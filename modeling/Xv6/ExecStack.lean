import Xv6.VmAlloc
import Xv6.UserCopy
import Xv6.Param
import Xv6.Exec

/-!
# The argument stack of `exec` (`exec.c`)

After loading the program, `exec` rounds the size up to a page, maps two
more pages with `uvmalloc`, clears `PTE_U` on the first (the guard page) and
builds the argument stack in the second: each argument string with its `NUL`
goes below the previous one, rounded down to a multiple of 16, then the
array of their addresses with a final `0`, rounded down again. A string or
the array that would start below the stack page sends `exec` to `bad`, and
`exec` returns `-1`.

`execStack` is that part of `exec`, from `sz = PGROUNDUP(sz)` to
`return argc`, with `sz`, `sp` and `stackbase` as `uint64`. The strings are
the kernel buffers that `sys_exec` filled with `fetchstr`, and `copyout`
copies `strlen + 1` bytes of each.

`strPlaces` and `argvPlace` say where the strings and the pointer array go,
from the top of the stack down, with no bound. `exec_stack_exact`: when
`uvmalloc` gets the two pages, the stack phase succeeds exactly when
`argvPlace` lies in the stack page, and then the stack holds what
`StackBuilt` says.
-/

namespace Xv6

open Phys

/-! ## The stack phase of `exec` -/

/-- `strlen(s)`. -/
def strlen (s : List UInt8) : Nat := (s.takeWhile (· ≠ 0)).length

/-- A `uint64` as it lies in memory, least significant byte first. -/
def le64 (w : UInt64) : List UInt8 := (List.range 8).map fun j => (w >>> (8 * j).toUInt64).toUInt8

/-- `(char *)ustack`: an array of `uint64` as bytes. -/
def ustackBytes (ws : List UInt64) : List UInt8 := ws.flatMap le64

/-- The loop of `exec` that pushes `argv[argc]` and the strings after it:
`none` is `goto bad`, otherwise `argc`, `sp`, `ustack` and RAM at its end. -/
def pushArgs (pt : Nat) (stackbase : UInt64) :
    Nat → List (List UInt8) → UInt64 → List UInt64 → Phys → Option (Nat × UInt64 × List UInt64 × Phys)
  | argc, [], sp, ustack, m => some (argc, sp, ustack, m)
  | argc, s :: argv, sp, ustack, m =>
    if MAXARG ≤ argc then none
    else
      let sp := sp - (strlen s + 1).toUInt64
      -- riscv sp must be 16-byte aligned
      let sp := sp - sp % 16
      if sp < stackbase then none
      else
        let r := copyout m pt sp.toNat (s.take (strlen s + 1))
        if r.1 < 0 then none
        else pushArgs pt stackbase (argc + 1) argv sp (ustack ++ [sp]) r.2

/-- What the stack phase hands to the commit of the new image. -/
structure StackImage where
  /-- `sz`, the new size. -/
  sz : UInt64
  /-- `sp`, the initial stack pointer. -/
  sp : UInt64
  /-- `p->trapframe->a1`, the second argument of `main`. -/
  a1 : UInt64
  /-- `argc`, which `exec` returns. -/
  argc : Nat
  /-- RAM. -/
  mem : Phys

/-- `ustack[argc] = 0` and the push of the array of `argv[]` pointers below
`sp`: `none` is `goto bad`, otherwise `sp` and RAM. -/
def pushUstack (pt : Nat) (stackbase : UInt64) (argc : Nat) (sp : UInt64) (ustack : List UInt64) (m : Phys) :
    Option (UInt64 × Phys) :=
  let ustack := ustack ++ [0]
  let sp := sp - ((argc + 1) * 8).toUInt64
  let sp := sp - sp % 16
  if sp < stackbase then none
  else
    let r := copyout m pt sp.toNat (ustackBytes ustack)
    if r.1 < 0 then none else some (sp, r.2)

/-- The stack phase of `exec(path, argv)` on the new page table `pt` with
the segments loaded up to `sz`: `none` is `goto bad`. -/
def execStack (m : Phys) (pt : Nat) (sz : UInt64) (argv : List (List UInt8)) :
    Except String (Option StackImage) := do
  let sz : UInt64 := (PGROUNDUP sz.toNat).toUInt64
  let (sz1, m) ← uvmalloc m pt sz.toNat (sz + 2 * PGSIZE.toUInt64).toNat PTE_W
  if sz1 = 0 then return none
  let sz : UInt64 := sz1.toUInt64
  let m ← uvmclear m pt (sz - 2 * PGSIZE.toUInt64).toNat
  let sp := sz
  let stackbase := sp - PGSIZE.toUInt64
  return (pushArgs pt stackbase 0 argv sp [] m).bind fun (argc, sp, ustack, m) =>
    (pushUstack pt stackbase argc sp ustack m).map fun (sp, m) =>
      { sz := sz, sp := sp, a1 := sp, argc := argc, mem := m }

/-! ## Where the arguments go -/

/-- `n` bytes below `sp`, rounded down to a multiple of 16. -/
def pushDown (sp n : Nat) : Nat := (sp - n) / 16 * 16

/-- The C string in a buffer: its bytes up to the first `NUL`, and the `NUL`. -/
def cstr (s : List UInt8) : List UInt8 := s.take (strlen s + 1)

/-- Where the strings go from `top` down: each below the one before. -/
def strPlaces : Nat → List (List UInt8) → List Nat
  | _, [] => []
  | top, s :: argv => pushDown top (cstr s).length :: strPlaces (pushDown top (cstr s).length) argv

/-- The lowest string, or `top` for none. -/
def strBottom : Nat → List (List UInt8) → Nat
  | top, [] => top
  | top, s :: argv => strBottom (pushDown top (cstr s).length) argv

/-- Where the pointer array goes: `argc + 1` words below the strings. -/
def argvPlace (top : Nat) (argv : List (List UInt8)) : Nat :=
  pushDown (strBottom top argv) ((argv.length + 1) * 8)

/-- The user page table maps the bytes at `va` and they hold `bs`. -/
def UserHolds (m : Phys) (pt va : Nat) (bs : List UInt8) : Prop :=
  ∀ i (h : i < bs.length), userByte m pt (va + i) = some bs[i]

/-- Page `va` is mapped without `PTE_U`: the user cannot reach it. -/
def GuardPage (m : Phys) (pt va : Nat) : Prop :=
  ∃ a, (walkFrom va false 2 pt m).1 = some a ∧ m.word a &&& PTE_V ≠ 0 ∧ m.word a &&& PTE_U = 0

/-- The stack that `exec` hands to `main(argc, argv)`, in the stack page
below `img.sz`. -/
structure StackBuilt (pt : Nat) (argv : List (List UInt8)) (img : StackImage) : Prop where
  /-- The page below the stack page is the guard page. -/
  guard : GuardPage img.mem pt (img.sz.toNat - 2 * PGSIZE)
  sp_eq : img.sp.toNat = argvPlace img.sz.toNat argv
  sp_in_page : img.sz.toNat - PGSIZE ≤ img.sp.toNat
  sp_aligned : img.sp.toNat % 16 = 0
  a1_eq : img.a1 = img.sp
  /-- `argv[0..argc]`: the string addresses and `0`. -/
  pointers : UserHolds img.mem pt img.sp.toNat
    (ustackBytes ((strPlaces img.sz.toNat argv).map Nat.toUInt64 ++ [0]))
  /-- The `i`-th string, with its `NUL`, in the stack page. -/
  strings : ∀ i (h : i < argv.length), img.sz.toNat - PGSIZE ≤ (strPlaces img.sz.toNat argv).getD i 0 ∧
    (strPlaces img.sz.toNat argv).getD i 0 + (cstr argv[i]).length ≤ img.sz.toNat ∧
    UserHolds img.mem pt ((strPlaces img.sz.toNat argv).getD i 0) (cstr argv[i])
  argc_eq : img.argc = argv.length

/-! ## Strings and pushes -/

theorem strlen_lt {s : List UInt8} (h : 0 ∈ s) : strlen s < s.length := by
  induction s with
  | nil => cases h
  | cons b s ih =>
    by_cases hb : b = 0
    · simp [strlen, hb]
    · have h' : 0 ∈ s := by rcases List.mem_cons.mp h with h | h <;> simp_all
      simpa [strlen, List.takeWhile_cons, hb] using ih h'

theorem cstr_length {s : List UInt8} (h : 0 ∈ s) : (cstr s).length = strlen s + 1 := by
  have := strlen_lt h
  simp only [cstr, List.length_take]
  omega

theorem pushDown_le (sp n : Nat) : pushDown sp n ≤ sp - n := by
  simp only [pushDown]
  omega

theorem pushDown_mod (sp n : Nat) : pushDown sp n % 16 = 0 := by
  simp only [pushDown]
  omega

theorem push_toUInt64 {sp n : Nat} (hsp : sp < 2 ^ 64) (hn : n ≤ sp) :
    sp.toUInt64 - n.toUInt64 - (sp.toUInt64 - n.toUInt64) % 16 = (pushDown sp n).toUInt64 := by
  have hx : (sp.toUInt64 - n.toUInt64).toNat = sp - n := by
    rw [UInt64.toNat_sub_of_le _ _ (by rw [UInt64.le_iff_toNat_le]; simp; omega)]
    simp
    omega
  have h16 : ((sp.toUInt64 - n.toUInt64) % 16).toNat = (sp - n) % 16 := by
    rw [UInt64.toNat_mod, hx]
    rfl
  apply UInt64.toNat_inj.mp
  rw [UInt64.toNat_sub_of_le _ _ (by rw [UInt64.le_iff_toNat_le, h16, hx]; omega), h16, hx]
  simp only [pushDown, Nat.toUInt64_eq, UInt64.toNat_ofNat']
  omega

/-! ## `copyout` within one page -/

theorem copyoutLoop_nil (pt k dstva : Nat) (m : Phys) : copyoutLoop pt k dstva [] m = (0, m) := by
  cases k <;> simp [copyoutLoop]

theorem copyout_one_page {m : Phys} {pt dstva : Nat} {src : List UInt8} (hsrc : src ≠ [])
    (hfit : dstva % PGSIZE + src.length ≤ PGSIZE) (h0 : walkaddr m pt (PGROUNDDOWN dstva) ≠ 0) :
    copyout m pt dstva src = (0, m.writeBytes (walkaddr m pt (PGROUNDDOWN dstva) + dstva % PGSIZE) src) := by
  obtain ⟨k, hk⟩ : ∃ k, src.length = k + 1 := ⟨src.length - 1, by have := List.length_pos_iff.mpr hsrc; omega⟩
  have hn : min (PGSIZE - dstva % PGSIZE) src.length = src.length := by omega
  rw [copyout, hk, copyoutLoop, if_neg hsrc, if_neg h0]
  simp only [sub_PGROUNDDOWN, hn, List.take_length, List.drop_length, copyoutLoop_nil]

/-! ## The stack page -/

/-- `[base, base + PGSIZE)` is a user page on physical page `f`. -/
structure StackPage (m : Phys) (pt base f : Nat) : Prop where
  aligned : base % PGSIZE = 0
  above : PGSIZE ≤ base
  below : base + PGSIZE < 2 ^ 64
  walkaddr_eq : walkaddr m pt base = f
  pos : 0 < f
  userAddr_eq : ∀ i < PGSIZE, userAddr m pt (base + i) = some (f + i)

section StackPage

variable {m m' : Phys} {pt base f : Nat}

theorem StackPage.congr (hs : StackPage m pt base f) (h : m'.word = m.word) : StackPage m' pt base f where
  aligned := hs.aligned
  above := hs.above
  below := hs.below
  walkaddr_eq := by rw [walkaddr_congr h, hs.walkaddr_eq]
  pos := hs.pos
  userAddr_eq i hi := by rw [userAddr_congr h, hs.userAddr_eq i hi]

theorem StackPage.userByte_eq (hs : StackPage m pt base f) {va : Nat} (h1 : base ≤ va)
    (h2 : va < base + PGSIZE) : userByte m pt va = some (m.byte (f + (va - base))) := by
  have := hs.userAddr_eq (va - base) (by omega)
  rw [Nat.add_sub_cancel' h1] at this
  rw [userByte, this, Option.map_some]

theorem StackPage.copyout_eq (hs : StackPage m pt base f) {p : Nat} {bs : List UInt8} (hbs : bs ≠ [])
    (h1 : base ≤ p) (h2 : p + bs.length ≤ base + PGSIZE) :
    copyout m pt p bs = (0, m.writeBytes (f + (p - base)) bs) := by
  have hal := hs.aligned
  have hdown : PGROUNDDOWN p = base := by
    have := List.length_pos_iff.mpr hbs
    simp only [PGROUNDDOWN, PGSIZE] at hal h2 ⊢
    omega
  have hmod : p % PGSIZE = p - base := by
    have := List.length_pos_iff.mpr hbs
    simp only [PGSIZE] at hal h2 ⊢
    omega
  rw [copyout_one_page hbs (by omega) (by rw [hdown, hs.walkaddr_eq]; exact Nat.pos_iff_ne_zero.mp hs.pos),
    hdown, hs.walkaddr_eq, hmod]

theorem StackPage.holds_write (hs : StackPage m pt base f) {p : Nat} {bs : List UInt8}
    (h1 : base ≤ p) (h2 : p + bs.length ≤ base + PGSIZE) : UserHolds (m.writeBytes (f + (p - base)) bs) pt p bs := by
  intro i hi
  rw [(hs.congr (writeBytes_word m _ bs)).userByte_eq (by omega) (by omega)]
  simp only [writeBytes]
  rw [if_pos (by omega), show f + (p + i - base) - (f + (p - base)) = i by omega]
  simp [List.getD_eq_getElem?_getD, hi]

theorem StackPage.holds_frame (hs : StackPage m pt base f) (hw : m'.word = m.word) {q : Nat} {cs : List UInt8}
    (h1 : base ≤ q) (h2 : q + cs.length ≤ base + PGSIZE) (hh : UserHolds m pt q cs)
    (hb : ∀ j < cs.length, m'.byte (f + (q - base) + j) = m.byte (f + (q - base) + j)) :
    UserHolds m' pt q cs := by
  intro j hj
  rw [(hs.congr hw).userByte_eq (by omega) (by omega), ← hh j hj, hs.userByte_eq (by omega) (by omega),
    show f + (q + j - base) = f + (q - base) + j by omega, hb j hj]

end StackPage

/-! ## The guard page and the stack page -/

theorem stackLeaf_bits {f : Nat} (hf : f < 2 ^ 56) (hal : f % PGSIZE = 0) :
    (PA2PTE f ||| (PTE_R ||| PTE_U ||| PTE_W) ||| PTE_V) &&& PTE_V ≠ 0 ∧
      (PA2PTE f ||| (PTE_R ||| PTE_U ||| PTE_W) ||| PTE_V) &&& PTE_U ≠ 0 ∧
      PTE2PA (PA2PTE f ||| (PTE_R ||| PTE_U ||| PTE_W) ||| PTE_V) = f := by
  have hw : PA2PTE f ||| (PTE_R ||| PTE_U ||| PTE_W) ||| PTE_V = PA2PTE f ||| (PTE_R ||| PTE_U ||| PTE_W ||| PTE_V) :=
    UInt64.or_assoc ..
  have hfl : PTE_FLAGS (PA2PTE f ||| (PTE_R ||| PTE_U ||| PTE_W ||| PTE_V)) = PTE_R ||| PTE_U ||| PTE_W ||| PTE_V :=
    PTE_FLAGS_PA2PTE_or hf (by decide)
  rw [hw, and_flag_eq _ PTE_V (by decide), and_flag_eq _ PTE_U (by decide), hfl,
    PTE2PA_PA2PTE_or hf hal (by decide)]
  exact ⟨by decide, by decide, rfl⟩

theorem walkFrom_false_eq {m : Phys} {pt va a : Nat} (hw : (walkFrom va false 2 pt m).1 = some a) :
    walkFrom va false 2 pt m = (some a, m) :=
  Prod.ext hw (walkFrom_false_snd 2 pt m)

theorem walkaddr_of_walk {m : Phys} {pt va a : Nat} (hva : va < MAXVA) (hw : (walkFrom va false 2 pt m).1 = some a)
    (hV : m.word a &&& PTE_V ≠ 0) (hU : m.word a &&& PTE_U ≠ 0) : walkaddr m pt va = PTE2PA (m.word a) := by
  simp only [walkaddr, walk, if_neg (Nat.not_le.mpr hva), walkFrom_false_eq hw, if_neg hV, if_neg hU]

theorem userAddr_of_walk {m : Phys} {pt va a : Nat} (hva : va < MAXVA)
    (hw : (walkFrom (PGROUNDDOWN va) false 2 pt m).1 = some a) (hV : m.word a &&& PTE_V ≠ 0)
    (hU : m.word a &&& PTE_U ≠ 0) : userAddr m pt va = some (PTE2PA (m.word a) + va % PGSIZE) := by
  simp only [userAddr, if_neg (Nat.not_le.mpr hva), hw, hV, hU, ne_eq, not_false_eq_true, and_self, if_true]

theorem StackPage.of_walk {m : Phys} {pt base a f : Nat} (hal : base % PGSIZE = 0) (hab : PGSIZE ≤ base)
    (htop : base + PGSIZE ≤ MAXVA) (hw : (walkFrom base false 2 pt m).1 = some a)
    (hword : m.word a = PA2PTE f ||| (PTE_R ||| PTE_U ||| PTE_W) ||| PTE_V) (hf0 : 0 < f) (hfal : f % PGSIZE = 0)
    (hf : f < 2 ^ 56) : StackPage m pt base f where
  aligned := hal
  above := hab
  below := by rw [MAXVA_eq] at htop; omega
  walkaddr_eq := by
    obtain ⟨hV, hU, hpa⟩ := stackLeaf_bits hf hfal
    rw [walkaddr_of_walk (by simp only [PGSIZE] at htop; omega) hw (hword ▸ hV) (hword ▸ hU), hword, hpa]
  pos := hf0
  userAddr_eq i hi := by
    obtain ⟨hV, hU, hpa⟩ := stackLeaf_bits hf hfal
    have hdown : PGROUNDDOWN (base + i) = base := by simp only [PGROUNDDOWN, PGSIZE] at hal hi ⊢; omega
    have hmod : (base + i) % PGSIZE = i := by simp only [PGSIZE] at hal hi ⊢; omega
    rw [userAddr_of_walk (by omega) (by rw [hdown]; exact hw) (hword ▸ hV) (hword ▸ hU), hword, hpa, hmod]

theorem Tables.exec_stack_pages {m m₁ : Phys} {pt : Nat} {lvl : Nat → Option Nat} (ht : Tables m pt lvl)
    (hf : FreeOk m) {S : Nat} (hS : S % PGSIZE = 0) (hS64 : S < 2 ^ 64)
    (h : uvmalloc m pt S (S + 2 * PGSIZE) PTE_W = .ok (S + 2 * PGSIZE, m₁)) :
    S + 2 * PGSIZE ≤ MAXVA ∧ ∃ m₂, uvmclear m₁ pt S = .ok m₂ ∧ GuardPage m₂ pt S ∧
      ∃ f, StackPage m₂ pt (S + PGSIZE) f := by
  obtain ⟨hlt, _, a₀, a₁, f, ht', hf', hne, hw₀, hv₀, hw₁, hword₁, hpos, hal, hphys⟩ := ht.uvmalloc_two hf hS hS64 h
  have hmax : S + 2 * PGSIZE ≤ MAXVA := by rw [MAXVA_eq] at hlt ⊢; simp only [PGSIZE] at hS hlt ⊢; omega
  refine ⟨hmax, _, uvmclear_eq (by omega) hw₀, ⟨a₀, ht'.walkFrom_clearU hf' hw₀, ?_, ?_⟩, f, ?_⟩
  · simp only [setWord, Function.update_self, clearU_and_V]
    exact hv₀
  · simp only [setWord, Function.update_self, clearU_and_U]
  · -- the stack PTE is not the guard PTE
    have hword : (m₁.setWord a₀ (m₁.word a₀ &&& ~~~PTE_U)).word a₁ = m₁.word a₁ := Function.update_of_ne hne.symm _ _
    exact StackPage.of_walk (by simp only [PGSIZE] at hS ⊢; omega) (by simp [PGSIZE]) (by omega)
      (ht'.walkFrom_clearU hf' hw₁) (hword.trans hword₁) hpos hal (lt_trans hphys (by decide))

/-! ## Pushing the strings -/

/-- The arguments as `sys_exec` fetches them: each a `NUL`-terminated string
within a page. -/
def ArgsOk (argv : List (List UInt8)) : Prop := ∀ s ∈ argv, 0 ∈ s ∧ strlen s < PGSIZE

instance (argv : List (List UInt8)) : Decidable (ArgsOk argv) :=
  inferInstanceAs (Decidable (∀ s ∈ argv, 0 ∈ s ∧ strlen s < PGSIZE))

theorem ArgsOk.cons {s : List UInt8} {argv : List (List UInt8)} (h : ArgsOk (s :: argv)) :
    (0 ∈ s ∧ strlen s < PGSIZE) ∧ ArgsOk argv :=
  List.forall_mem_cons.mp h

theorem toUInt64_lt_toUInt64 {a b : Nat} (ha : a < 2 ^ 64) (hb : b < 2 ^ 64) :
    a.toUInt64 < b.toUInt64 ↔ a < b := by
  rw [UInt64.lt_iff_toNat_lt, Nat.toUInt64_eq, Nat.toUInt64_eq, UInt64.toNat_ofNat', UInt64.toNat_ofNat',
    Nat.mod_eq_of_lt ha, Nat.mod_eq_of_lt hb]

theorem toNat_toUInt64_of_lt {a : Nat} (ha : a < 2 ^ 64) : a.toUInt64.toNat = a := by
  rw [Nat.toUInt64_eq, UInt64.toNat_ofNat', Nat.mod_eq_of_lt ha]

theorem writeBytes_byte_of_not_mem {m : Phys} {pa x : Nat} {src : List UInt8}
    (h : ¬(pa ≤ x ∧ x < pa + src.length)) : (m.writeBytes pa src).byte x = m.byte x := by
  simp only [writeBytes]
  rw [if_neg h]

theorem strPlaces_length : ∀ (sp : Nat) (argv : List (List UInt8)), (strPlaces sp argv).length = argv.length
  | _, [] => rfl
  | _, _ :: argv => by simp [strPlaces, strPlaces_length _ argv]

theorem strBottom_le : ∀ (sp : Nat) (argv : List (List UInt8)), strBottom sp argv ≤ sp
  | _, [] => le_refl _
  | sp, _ :: argv => le_trans (strBottom_le _ argv) (le_trans (pushDown_le sp _) (Nat.sub_le _ _))

section Push

variable {m : Phys} {pt base f argc sp : Nat} {s : List UInt8} {argv : List (List UInt8)} {ustack : List UInt64}

theorem pushArgs_cons_fits (hs : StackPage m pt base f) (hargc : argc < MAXARG) (hsp : sp ≤ base + PGSIZE)
    (hstr : 0 ∈ s ∧ strlen s < PGSIZE) (hp : base ≤ pushDown sp (cstr s).length) :
    pushArgs pt base.toUInt64 argc (s :: argv) sp.toUInt64 ustack m =
      pushArgs pt base.toUInt64 (argc + 1) argv (pushDown sp (cstr s).length).toUInt64
        (ustack ++ [(pushDown sp (cstr s).length).toUInt64])
        (m.writeBytes (f + (pushDown sp (cstr s).length - base)) (cstr s)) := by
  have hlen := cstr_length hstr.1
  have hb := hs.below
  have hab := hs.above
  have hle : (cstr s).length ≤ sp := by simp only [pushDown, PGSIZE] at hp hab; omega
  have hfit := pushDown_le sp (cstr s).length
  have hne : cstr s ≠ [] := List.ne_nil_of_length_pos (by omega)
  rw [pushArgs, if_neg (by omega)]
  simp only
  rw [← hlen, push_toUInt64 (by omega) hle,
    if_neg (by rw [toUInt64_lt_toUInt64 (by omega) (by omega)]; omega), toNat_toUInt64_of_lt (by omega)]
  simp only [show s.take (cstr s).length = cstr s by rw [hlen]; rfl,
    hs.copyout_eq hne hp (by omega), lt_self_iff_false, if_false]

theorem pushArgs_cons_below (hs : StackPage m pt base f) (hargc : argc < MAXARG) (hbase : base ≤ sp)
    (hsp : sp ≤ base + PGSIZE) (hstr : 0 ∈ s ∧ strlen s < PGSIZE) (hp : pushDown sp (cstr s).length < base) :
    pushArgs pt base.toUInt64 argc (s :: argv) sp.toUInt64 ustack m = none := by
  have hlen := cstr_length hstr.1
  have hb := hs.below
  have hab := hs.above
  have hle : (cstr s).length ≤ sp := by simp only [PGSIZE] at hab hstr; omega
  have hfit := pushDown_le sp (cstr s).length
  rw [pushArgs, if_neg (by omega)]
  simp only
  rw [← hlen, push_toUInt64 (by omega) hle, if_pos (by rw [toUInt64_lt_toUInt64 (by omega) (by omega)]; exact hp)]

theorem pushArgs_none (hs : StackPage m pt base f) :
    ∀ (argv : List (List UInt8)) (argc sp : Nat) (ustack : List UInt64) (m' : Phys), m'.word = m.word →
      base ≤ sp → sp ≤ base + PGSIZE → argc + argv.length < MAXARG → ArgsOk argv → strBottom sp argv < base →
      pushArgs pt base.toUInt64 argc argv sp.toUInt64 ustack m' = none
  | [], _, sp, _, _, _, hbase, _, _, _, hbot => absurd hbot (Nat.not_lt.mpr hbase)
  | s :: argv, argc, sp, ustack, m', hw, hbase, hsp, hargc, hok, hbot => by
    obtain ⟨hstr, hok⟩ := hok.cons
    have hargc' : argc < MAXARG := by simp at hargc; omega
    by_cases hp : base ≤ pushDown sp (cstr s).length
    · rw [pushArgs_cons_fits (hs.congr hw) hargc' hsp hstr hp]
      exact pushArgs_none hs argv _ _ _ _ (by rw [writeBytes_word, hw]) hp
        (le_trans (pushDown_le _ _) (by omega)) (by simp at hargc; omega) hok hbot
    · exact pushArgs_cons_below (hs.congr hw) hargc' hbase hsp hstr (Nat.lt_of_not_le hp)

/-- The loop succeeds when the lowest string starts in the stack page: each
string lies at its place with its `NUL`, and the pages below the strings and
above `sp` keep their bytes. -/
theorem pushArgs_some (hs : StackPage m pt base f) :
    ∀ (argv : List (List UInt8)) (argc sp : Nat) (ustack : List UInt64) (m' : Phys), m'.word = m.word →
      sp ≤ base + PGSIZE → argc + argv.length < MAXARG → ArgsOk argv → base ≤ strBottom sp argv →
      ∃ m'', pushArgs pt base.toUInt64 argc argv sp.toUInt64 ustack m' =
          some (argc + argv.length, (strBottom sp argv).toUInt64, ustack ++ (strPlaces sp argv).map Nat.toUInt64, m'') ∧
        m''.word = m'.word ∧
        (∀ x, (x < f + (strBottom sp argv - base) ∨ f + (sp - base) ≤ x) → m''.byte x = m'.byte x) ∧
        ∀ i (h : i < argv.length), base ≤ (strPlaces sp argv).getD i 0 ∧
          (strPlaces sp argv).getD i 0 + (cstr argv[i]).length ≤ sp ∧
          UserHolds m'' pt ((strPlaces sp argv).getD i 0) (cstr argv[i])
  | [], argc, sp, ustack, m', _, _, _, _, _ =>
    ⟨m', by simp [pushArgs, strBottom, strPlaces], rfl, fun _ _ => rfl, fun _ h => absurd h (by simp)⟩
  | s :: argv, argc, sp, ustack, m', hw, hsp, hargc, hok, hbot => by
    obtain ⟨hstr, hok⟩ := hok.cons
    set p := pushDown sp (cstr s).length with hpdef
    have hlen := cstr_length hstr.1
    have hp : base ≤ p := le_trans hbot (strBottom_le p argv)
    have hab := hs.above
    have hfit : p + (cstr s).length ≤ sp := by
      have := pushDown_le sp (cstr s).length
      simp only [PGSIZE] at hab
      omega
    rw [pushArgs_cons_fits (hs.congr hw) (by simp at hargc; omega) hsp hstr hp]
    set m₁ := m'.writeBytes (f + (p - base)) (cstr s)
    have hw₁ : m₁.word = m.word := by rw [writeBytes_word, hw]
    obtain ⟨m'', heq, hw', hframe, hstrs⟩ :=
      pushArgs_some hs argv (argc + 1) p (ustack ++ [p.toUInt64]) m₁ hw₁ (by omega) (by simp at hargc; omega) hok hbot
    -- the later strings lie below this one
    have hframe₁ : ∀ x, f + (p - base) ≤ x → m''.byte x = m₁.byte x := fun x hx => hframe x (.inr hx)
    refine ⟨m'', ?_, by rw [hw', hw₁, hw], ?_, ?_⟩
    · rw [heq]
      simp [strBottom, strPlaces, Nat.add_assoc, Nat.add_comm 1, ← hpdef]
    · intro x hx
      have hbot' : strBottom sp (s :: argv) = strBottom p argv := rfl
      have hbp := strBottom_le p argv
      rw [hbot'] at hx
      rw [hframe x (by omega), writeBytes_byte_of_not_mem (by omega)]
    · intro i hi
      cases i with
      | zero =>
        have hplace : (strPlaces sp (s :: argv)).getD 0 0 = p := rfl
        simp only [hplace, List.getElem_cons_zero]
        refine ⟨hp, hfit, ?_⟩
        exact (hs.congr hw₁).holds_frame hw' hp (by omega) ((hs.congr hw).holds_write hp (by omega))
          fun j _ => hframe₁ _ (by omega)
      | succ i =>
        have hplace : (strPlaces sp (s :: argv)).getD (i + 1) 0 = (strPlaces p argv).getD i 0 := rfl
        obtain ⟨h1, h2, h3⟩ := hstrs i (by simpa using hi)
        simp only [hplace, List.getElem_cons_succ]
        exact ⟨h1, by omega, h3⟩

theorem strBottom_le_place : ∀ (sp : Nat) (argv : List (List UInt8)) (i : Nat), i < argv.length →
    strBottom sp argv ≤ (strPlaces sp argv).getD i 0
  | _, [], _, h => absurd h (by simp)
  | sp, s :: argv, 0, _ => strBottom_le (pushDown sp (cstr s).length) argv
  | sp, _ :: argv, i + 1, h => strBottom_le_place _ argv i (by simpa using h)

end Push

/-! ## The pointer array -/

theorem ustackBytes_length (ws : List UInt64) : (ustackBytes ws).length = 8 * ws.length := by
  induction ws with
  | nil => rfl
  | cons w ws ih =>
    simp only [ustackBytes, List.flatMap_cons, List.length_append] at ih ⊢
    simp [le64, ih]
    omega

/-- The push of the pointer array below the lowest string `bot`. -/
theorem pushUstack_eq {m : Phys} {pt base f k bot : Nat} {ustack : List UInt64} (hs : StackPage m pt base f)
    (hbot : base ≤ bot) (hbot' : bot ≤ base + PGSIZE) (hk : (k + 1) * 8 ≤ PGSIZE) (hlen : ustack.length = k) :
    pushUstack pt base.toUInt64 k bot.toUInt64 ustack m =
      if pushDown bot ((k + 1) * 8) < base then none
      else some ((pushDown bot ((k + 1) * 8)).toUInt64,
        m.writeBytes (f + (pushDown bot ((k + 1) * 8) - base)) (ustackBytes (ustack ++ [0]))) := by
  have hb := hs.below
  have hab := hs.above
  have hq := pushDown_le bot ((k + 1) * 8)
  have hbytes : (ustackBytes (ustack ++ [0])).length = (k + 1) * 8 := by
    rw [ustackBytes_length, List.length_append, hlen]
    simp
    omega
  simp only [pushUstack]
  rw [push_toUInt64 (by omega) (by omega)]
  by_cases hlow : pushDown bot ((k + 1) * 8) < base
  · rw [if_pos ((toUInt64_lt_toUInt64 (by omega) (by omega)).mpr hlow), if_pos hlow]
  · rw [if_neg (mt (toUInt64_lt_toUInt64 (by omega) (by omega)).mp hlow), if_neg hlow,
      toNat_toUInt64_of_lt (by omega),
      hs.copyout_eq (List.ne_nil_of_length_pos (by omega)) (by omega) (by omega)]
    simp

/-! ## The stack phase -/

theorem GuardPage.congr {m m' : Phys} {pt va : Nat} (hg : GuardPage m pt va) (h : m'.word = m.word) :
    GuardPage m' pt va := by
  obtain ⟨a, hw, hV, hU⟩ := hg
  exact ⟨a, by rw [walkFrom_fst_congr h]; exact hw, by rw [h]; exact hV, by rw [h]; exact hU⟩

theorem except_ok_bind {α β ε : Type} (a : α) (f : α → Except ε β) : (Except.ok a >>= f) = f a := rfl

/-- The stack phase, once `uvmalloc` and `uvmclear` are done: the push of
the strings and of the pointer array. -/
theorem execStack_eq {m m₁ m₂ : Phys} {pt S : Nat} {sz : UInt64} {argv : List (List UInt8)}
    (hS : PGROUNDUP sz.toNat = S) (hmax : S + 2 * PGSIZE ≤ MAXVA)
    (halloc : uvmalloc m pt S (S + 2 * PGSIZE) PTE_W = .ok (S + 2 * PGSIZE, m₁))
    (hclear : uvmclear m₁ pt S = .ok m₂) :
    execStack m pt sz argv = .ok ((pushArgs pt (S + PGSIZE).toUInt64 0 argv (S + 2 * PGSIZE).toUInt64 [] m₂).bind
      fun (argc, sp, ustack, m) => (pushUstack pt (S + PGSIZE).toUInt64 argc sp ustack m).map fun (sp', m') =>
        { sz := (S + 2 * PGSIZE).toUInt64, sp := sp', a1 := sp', argc := argc, mem := m' }) := by
  have hmax' : S + 2 * PGSIZE < 2 ^ 64 := by rw [MAXVA_eq] at hmax; omega
  have hP : (PGSIZE.toUInt64).toNat = PGSIZE := rfl
  have h2P : (2 * PGSIZE.toUInt64).toNat = 2 * PGSIZE := rfl
  have e1 : (S.toUInt64).toNat = S := toNat_toUInt64_of_lt (by omega)
  have eT := toNat_toUInt64_of_lt hmax'
  -- `sz + 2*PGSIZE`, `sz - 2*PGSIZE` and `stackbase` do not wrap
  have e2 : (S.toUInt64 + 2 * PGSIZE.toUInt64).toNat = S + 2 * PGSIZE := by
    rw [UInt64.toNat_add, e1, h2P, Nat.mod_eq_of_lt hmax']
  have e3 : ((S + 2 * PGSIZE).toUInt64 - 2 * PGSIZE.toUInt64).toNat = S := by
    rw [UInt64.toNat_sub_of_le _ _ (by rw [UInt64.le_iff_toNat_le, eT, h2P]; omega), eT, h2P]
    omega
  have e4 : (S + 2 * PGSIZE).toUInt64 - PGSIZE.toUInt64 = (S + PGSIZE).toUInt64 := by
    apply UInt64.toNat_inj.mp
    rw [UInt64.toNat_sub_of_le _ _ (by rw [UInt64.le_iff_toNat_le, eT, hP]; omega), eT, hP,
      toNat_toUInt64_of_lt (by omega)]
    omega
  simp only [execStack, hS, e1, e2, halloc, except_ok_bind, e3, e4, hclear]
  rw [if_neg (by simp [PGSIZE])]
  rfl

/-- The stack once the strings and the pointer array are pushed: the
image the stack phase returns is `StackBuilt`. -/
theorem stackBuilt_final {m₂ m₃ : Phys} {pt S f : Nat} {argv : List (List UInt8)}
    (hsp : StackPage m₂ pt (S + PGSIZE) f) (hguard : GuardPage m₂ pt S) (hmax : S + 2 * PGSIZE ≤ MAXVA)
    (hw₃ : m₃.word = m₂.word)
    (hstrs : ∀ i (h : i < argv.length), S + PGSIZE ≤ (strPlaces (S + 2 * PGSIZE) argv).getD i 0 ∧
      (strPlaces (S + 2 * PGSIZE) argv).getD i 0 + (cstr argv[i]).length ≤ S + 2 * PGSIZE ∧
      UserHolds m₃ pt ((strPlaces (S + 2 * PGSIZE) argv).getD i 0) (cstr argv[i]))
    (hfit : S + PGSIZE ≤ argvPlace (S + 2 * PGSIZE) argv) :
    StackBuilt pt argv
      { sz := (S + 2 * PGSIZE).toUInt64, sp := (argvPlace (S + 2 * PGSIZE) argv).toUInt64,
        a1 := (argvPlace (S + 2 * PGSIZE) argv).toUInt64, argc := argv.length,
        mem := m₃.writeBytes (f + (argvPlace (S + 2 * PGSIZE) argv - (S + PGSIZE)))
          (ustackBytes ((strPlaces (S + 2 * PGSIZE) argv).map Nat.toUInt64 ++ [0])) } := by
  set q := argvPlace (S + 2 * PGSIZE) argv
  have hPG : PGSIZE = 4096 := rfl
  have hmax' : S + 2 * PGSIZE < 2 ^ 64 := by rw [MAXVA_eq] at hmax; omega
  have hq : q ≤ strBottom (S + 2 * PGSIZE) argv - (argv.length + 1) * 8 := pushDown_le _ _
  have hbp := strBottom_le (S + 2 * PGSIZE) argv
  have eT := toNat_toUInt64_of_lt hmax'
  have eq : q.toUInt64.toNat = q := toNat_toUInt64_of_lt (by omega)
  have hbytes := ustackBytes_length ((strPlaces (S + 2 * PGSIZE) argv).map Nat.toUInt64 ++ [0])
  simp only [List.length_append, List.length_map, strPlaces_length, List.length_singleton] at hbytes
  constructor
  case guard =>
    dsimp only
    rw [eT, Nat.add_sub_cancel]
    exact hguard.congr (by rw [writeBytes_word, hw₃])
  case sp_eq => dsimp only; rw [eq, eT]
  case sp_in_page => dsimp only; rw [eq, eT]; omega
  case sp_aligned => dsimp only; rw [eq]; exact pushDown_mod _ _
  case a1_eq => rfl
  case pointers =>
    dsimp only
    rw [eq, eT]
    exact (hsp.congr hw₃).holds_write hfit (by rw [hbytes]; omega)
  case strings =>
    intro i hi
    dsimp only
    simp only [eT]
    obtain ⟨h1, h2, h3⟩ := hstrs i hi
    have hbi := strBottom_le_place (S + 2 * PGSIZE) argv i hi
    -- the pointer array lies below every string
    refine ⟨by omega, h2, (hsp.congr hw₃).holds_frame (by rw [writeBytes_word]) h1 (by omega) h3
      fun j _ => writeBytes_byte_of_not_mem (by omega)⟩
  case argc_eq => rfl

/-- `exec` builds the argument stack exactly. Take any `argv` of at most
`MAXARG - 1` strings as `sys_exec` fetches them, and RAM whose page tables
and free list are as the kernel keeps them. Suppose `uvmalloc` gets the two
pages above the program. Then the stack phase does not panic, and it
succeeds exactly when the strings and the pointer array, placed from the top
down, start in the stack page. On success the stack is `StackBuilt`:
* the guard page has lost `PTE_U`;
* `sp` is 16-byte aligned and equals `a1`;
* the pointer array holds the addresses of byte-exact copies of the strings
  and a final `0`;
* `exec` returns `argc`. -/
theorem exec_stack_exact {m m₁ : Phys} {pt : Nat} {lvl : Nat → Option Nat} {sz : UInt64}
    {argv : List (List UInt8)} (ht : Tables m pt lvl) (hf : FreeOk m) (hargc : argv.length ≤ MAXARG - 1)
    (hok : ArgsOk argv)
    (halloc : uvmalloc m pt (PGROUNDUP sz.toNat) (PGROUNDUP sz.toNat + 2 * PGSIZE) PTE_W =
      .ok (PGROUNDUP sz.toNat + 2 * PGSIZE, m₁)) :
    ∃ r, execStack m pt sz argv = .ok r ∧
      ((∃ img, r = some img) ↔ PGROUNDUP sz.toNat + PGSIZE ≤ argvPlace (PGROUNDUP sz.toNat + 2 * PGSIZE) argv) ∧
      ∀ img, r = some img → img.sz.toNat = PGROUNDUP sz.toNat + 2 * PGSIZE ∧ StackBuilt pt argv img := by
  set S := PGROUNDUP sz.toNat with hSdef
  have hS : S % PGSIZE = 0 := by simp only [hSdef, PGROUNDUP, PGSIZE]; omega
  have hS64 : S < 2 ^ 64 := by
    have := Nat.mod_lt (sz.toNat + PGSIZE - 1) (show 0 < 2 ^ 64 by decide)
    simp only [hSdef, PGROUNDUP, PGSIZE] at this ⊢
    omega
  obtain ⟨hmax, m₂, hclear, hguard, f, hsp⟩ := ht.exec_stack_pages hf hS hS64 halloc
  have hmax' : S + 2 * PGSIZE < 2 ^ 64 := by rw [MAXVA_eq] at hmax; omega
  have hMAX : MAXARG = 32 := rfl
  have hPG : PGSIZE = 4096 := rfl
  rw [execStack_eq hSdef.symm hmax halloc hclear]
  refine ⟨_, rfl, ?_⟩
  have hbp := strBottom_le (S + 2 * PGSIZE) argv
  by_cases hbot : S + PGSIZE ≤ strBottom (S + 2 * PGSIZE) argv
  · -- every string fits: the push of the pointer array decides
    obtain ⟨m₃, hpush, hw₃, -, hstrs⟩ :=
      pushArgs_some hsp argv 0 (S + 2 * PGSIZE) [] m₂ rfl (by omega) (by omega) hok hbot
    rw [hpush, Option.bind_some, zero_add, List.nil_append]
    simp only
    rw [pushUstack_eq (hsp.congr hw₃) hbot (by omega) (by simp only [PGSIZE]; omega) (by simp [strPlaces_length])]
    have hq := pushDown_le (strBottom (S + 2 * PGSIZE) argv) ((argv.length + 1) * 8)
    by_cases hlow : pushDown (strBottom (S + 2 * PGSIZE) argv) ((argv.length + 1) * 8) < S + PGSIZE
    · rw [if_pos hlow]
      simp only [Option.map_none, reduceCtorEq, exists_false, false_iff, not_le, argvPlace]
      exact ⟨hlow, fun img h => by cases h⟩
    · rw [if_neg hlow]
      simp only [Option.map_some, Option.some.injEq, exists_eq', true_iff]
      refine ⟨Nat.not_lt.mp hlow, ?_⟩
      rintro img rfl
      exact ⟨toNat_toUInt64_of_lt hmax', stackBuilt_final hsp hguard hmax hw₃ hstrs (Nat.not_lt.mp hlow)⟩
  · -- a string would start below the stack page
    rw [pushArgs_none hsp argv 0 (S + 2 * PGSIZE) [] m₂ rfl (by omega) (by omega) (by omega) hok (by omega)]
    have hq := pushDown_le (strBottom (S + 2 * PGSIZE) argv) ((argv.length + 1) * 8)
    simp only [Option.bind_none, reduceCtorEq, exists_false, false_iff, not_le, argvPlace]
    exact ⟨by omega, fun img h => by cases h⟩

theorem tables_fourPages : Tables fourPages 0x87ffb000 (fun t => if t = 0x87ffb000 then some 2 else none) where
  root := rfl
  down _ _ _ _ _ hv := absurd (by decide : (0 : UInt64) &&& PTE_V = 0) hv
  aligned t l hl := by
    by_cases h : t = 0x87ffb000
    · subst h; decide
    · simp [h] at hl
  off t l hl := by
    by_cases h : t = 0x87ffb000
    · subst h; decide
    · simp [h] at hl

theorem freeOk_fourPages : FreeOk fourPages := ⟨by decide, by decide, by decide, by decide⟩

/-- The arguments of `echo hi x`. -/
def echoArgs : List (List UInt8) := [[101, 99, 104, 111, 0], [104, 105, 0], [120, 0]]

/-- `exec` of an empty program with the arguments `echo hi x`. -/
theorem exec_stack_exact_echo :
    Tables fourPages 0x87ffb000 (fun t => if t = 0x87ffb000 then some 2 else none) ∧ FreeOk fourPages ∧
      ArgsOk echoArgs ∧
      ∃ r, execStack fourPages 0x87ffb000 0 echoArgs = .ok r ∧
        ((∃ img, r = some img) ↔ PGROUNDUP (0 : UInt64).toNat + PGSIZE ≤
          argvPlace (PGROUNDUP (0 : UInt64).toNat + 2 * PGSIZE) echoArgs) ∧
        ∀ img, r = some img → img.sz.toNat = PGROUNDUP (0 : UInt64).toNat + 2 * PGSIZE ∧
          StackBuilt 0x87ffb000 echoArgs img := by
  have h0 : PGROUNDUP (0 : UInt64).toNat = 0 := by decide
  obtain ⟨m₁, halloc⟩ : ∃ m₁, uvmalloc fourPages 0x87ffb000 0 (0 + 2 * PGSIZE) PTE_W =
      .ok (0 + 2 * PGSIZE, m₁) := ⟨_, rfl⟩
  exact ⟨tables_fourPages, freeOk_fourPages, by decide,
    exec_stack_exact tables_fourPages freeOk_fourPages (by decide) (by decide) (by rw [h0]; exact halloc)⟩

end Xv6
