import Xv6.Vm

/-!
# Copies between the kernel and user memory (`copyout`, `copyin`, `copyinstr`)

User memory as the walk shows it, byte by byte: `userAddr m pt va` is the
physical byte behind `va` when its page is below `MAXVA` and the walk finds
a level-0 PTE with `PTE_V` and `PTE_U`. The copies go one page at a time;
for each of them the loop lemmas say, by induction over the pages, that it
succeeds exactly when every byte of its range has such a page, and which
bytes it moves.

`walkaddr` answers `0` for a page it does not map, so a user page whose PTE
holds physical page `0` reads as unmapped; `NonzeroFrames` rules that out, as
every page xv6 maps comes from `kalloc`. Two user pages on one physical page
put one byte of memory at two addresses, and `copyout` over both cannot
leave both equal to its source; `Distinct` rules that out for the range
written. On the page tables `vm.c` builds, both hold (`Xv6.UserTree`).
-/

namespace Xv6

open Phys

/-- The physical byte behind user address `va`. -/
def userAddr (m : Phys) (pt va : Nat) : Option Nat :=
  if MAXVA ≤ va then none
  else
    match (walkFrom (PGROUNDDOWN va) false 2 pt m).1 with
    | some a =>
      if m.word a &&& PTE_V ≠ 0 ∧ m.word a &&& PTE_U ≠ 0 then some (PTE2PA (m.word a) + va % PGSIZE)
      else none
    | none => none

def userByte (m : Phys) (pt va : Nat) : Option UInt8 := (userAddr m pt va).map m.byte

/-- Every page with `PTE_V` and `PTE_U` is on a physical page other than `0`. -/
def NonzeroFrames (m : Phys) (pt : Nat) : Prop :=
  ∀ va a, (walkFrom va false 2 pt m).1 = some a → m.word a &&& PTE_V ≠ 0 → m.word a &&& PTE_U ≠ 0 →
    PTE2PA (m.word a) ≠ 0

/-- The `len` bytes from `va` are on `len` different physical bytes. -/
def Distinct (m : Phys) (pt va len : Nat) : Prop :=
  ∀ i < len, ∀ j < len, userAddr m pt (va + i) = userAddr m pt (va + j) → i = j

/-! ## Pages -/

theorem sub_PGROUNDDOWN (a : Nat) : a - PGROUNDDOWN a = a % PGSIZE := by
  simp only [PGROUNDDOWN, PGSIZE]
  omega

theorem PGROUNDDOWN_add {a i : Nat} (h : a % PGSIZE + i < PGSIZE) : PGROUNDDOWN (a + i) = PGROUNDDOWN a := by
  simp only [PGROUNDDOWN, PGSIZE] at h ⊢
  omega

theorem add_mod_PGSIZE {a i : Nat} (h : a % PGSIZE + i < PGSIZE) : (a + i) % PGSIZE = a % PGSIZE + i := by
  simp only [PGSIZE] at h ⊢
  omega

theorem MAXVA_le_PGROUNDDOWN (a : Nat) : MAXVA ≤ PGROUNDDOWN a ↔ MAXVA ≤ a := by
  rw [MAXVA_eq]
  simp only [PGROUNDDOWN, PGSIZE]
  omega

theorem next_page_add {a n len j : Nat} (hn : n = min (PGSIZE - a % PGSIZE) len) (hj : j < len - n) :
    PGROUNDDOWN a + PGSIZE + j = a + (n + j) := by
  simp only [PGROUNDDOWN, PGSIZE] at hn ⊢
  omega

theorem forall_lt_split {P : Nat → Prop} {n len : Nat} (h : n ≤ len) :
    (∀ i < len, P i) ↔ (∀ i < n, P i) ∧ ∀ j < len - n, P (n + j) := by
  constructor
  · intro hP
    exact ⟨fun i hi => hP i (by omega), fun j hj => hP (n + j) (by omega)⟩
  · rintro ⟨h1, h2⟩ i hi
    by_cases hin : i < n
    · exact h1 i hin
    · simpa [Nat.add_sub_cancel' (not_lt.mp hin)] using h2 (i - n) (by omega)

/-! ## The walk reads page-table words only -/

theorem walkFrom_fst_congr {m m' : Phys} (h : m.word = m'.word) (va : Nat) :
    ∀ l pt, (walkFrom va false l pt m).1 = (walkFrom va false l pt m').1
  | 0, _ => rfl
  | l + 1, pt => by
    simp only [walkFrom, h, Bool.not_false, ↓reduceIte]
    split_ifs
    · exact walkFrom_fst_congr h va l _
    · rfl

theorem walkaddr_congr {m m' : Phys} (h : m.word = m'.word) (pt va : Nat) :
    walkaddr m pt va = walkaddr m' pt va := by
  have hw := walkFrom_fst_congr h va 2 pt
  simp only [walkaddr, walk]
  split_ifs
  · rfl
  · generalize walkFrom va false 2 pt m = r at hw ⊢
    generalize walkFrom va false 2 pt m' = r' at hw ⊢
    obtain ⟨o, _⟩ := r
    obtain ⟨o', _⟩ := r'
    simp only at hw
    subst hw
    simp only [h]
    cases o <;> rfl

theorem userAddr_congr {m m' : Phys} (h : m.word = m'.word) (pt va : Nat) :
    userAddr m pt va = userAddr m' pt va := by
  simp only [userAddr, walkFrom_fst_congr h, h]

@[simp]
theorem writeBytes_word (m : Phys) (pa : Nat) (src : List UInt8) : (m.writeBytes pa src).word = m.word := rfl

/-- `walkaddr`'s page, read byte by byte. -/
theorem userAddr_eq {m : Phys} {pt : Nat} (hz : NonzeroFrames m pt) (v : Nat) :
    userAddr m pt v =
      if walkaddr m pt (PGROUNDDOWN v) = 0 then none else some (walkaddr m pt (PGROUNDDOWN v) + v % PGSIZE) := by
  have hmax := MAXVA_le_PGROUNDDOWN v
  unfold userAddr walkaddr walk
  by_cases hv : MAXVA ≤ v
  · simp [hv, hmax.mpr hv]
  · have hv' : ¬MAXVA ≤ PGROUNDDOWN v := fun h => hv (hmax.mp h)
    simp only [hv, hv', if_false]
    generalize hr : walkFrom (PGROUNDDOWN v) false 2 pt m = r
    obtain ⟨o, _⟩ := r
    cases o with
    | none => simp
    | some a =>
      have ha := hz (PGROUNDDOWN v) a (by rw [hr])
      by_cases hV : m.word a &&& PTE_V = 0
      · simp [hV]
      · by_cases hU : m.word a &&& PTE_U = 0
        · simp [hV, hU]
        · simp [hV, hU, ha hV hU]

theorem userAddr_chunk {m : Phys} {pt : Nat} (hz : NonzeroFrames m pt) {a i : Nat}
    (hi : i < PGSIZE - a % PGSIZE) :
    userAddr m pt (a + i) =
      if walkaddr m pt (PGROUNDDOWN a) = 0 then none
      else some (walkaddr m pt (PGROUNDDOWN a) + a % PGSIZE + i) := by
  have h : a % PGSIZE + i < PGSIZE := by
    have := Nat.mod_lt a (show 0 < PGSIZE by decide)
    omega
  rw [userAddr_eq hz, PGROUNDDOWN_add h, add_mod_PGSIZE h, Nat.add_assoc]

/-! ## `copyout` -/

section Copyout

variable {m₀ : Phys} {pt : Nat}

theorem copyoutLoop_word : ∀ (k dstva : Nat) (src : List UInt8) (m : Phys),
    (copyoutLoop pt k dstva src m).2.word = m.word
  | 0, _, _, _ => rfl
  | k + 1, dstva, src, m => by
    simp only [copyoutLoop]
    split_ifs
    · rfl
    · rfl
    · rw [copyoutLoop_word]
      rfl

theorem copyoutLoop_free : ∀ (k dstva : Nat) (src : List UInt8) (m : Phys),
    (copyoutLoop pt k dstva src m).2.free = m.free
  | 0, _, _, _ => rfl
  | k + 1, dstva, src, m => by
    simp only [copyoutLoop]
    split_ifs
    · rfl
    · rfl
    · rw [copyoutLoop_free]
      rfl

theorem copyoutLoop_result : ∀ (k dstva : Nat) (src : List UInt8) (m : Phys),
    (copyoutLoop pt k dstva src m).1 = 0 ∨ (copyoutLoop pt k dstva src m).1 = -1
  | 0, _, _, _ => .inl rfl
  | k + 1, dstva, src, m => by
    simp only [copyoutLoop]
    split_ifs
    · exact .inl rfl
    · exact .inr rfl
    · exact copyoutLoop_result k _ _ _

theorem copyout_pass (hz : NonzeroFrames m₀ pt) {dstva n : Nat} (src : List UInt8)
    (hn : n = min (PGSIZE - dstva % PGSIZE) src.length)
    (h0 : walkaddr m₀ pt (PGROUNDDOWN dstva) ≠ 0) {i : Nat} (hi : i < n) :
    userAddr m₀ pt (dstva + i) = some (walkaddr m₀ pt (PGROUNDDOWN dstva) + dstva % PGSIZE + i) := by
  rw [userAddr_chunk hz (by omega), if_neg h0]

theorem copyoutLoop_ok (hz : NonzeroFrames m₀ pt) :
    ∀ (k dstva : Nat) (src : List UInt8) (m : Phys), m.word = m₀.word → src.length ≤ k →
      ((copyoutLoop pt k dstva src m).1 = 0 ↔ ∀ i < src.length, userAddr m₀ pt (dstva + i) ≠ none)
  | 0, dstva, src, m, _, hk => by
    have : src = [] := List.eq_nil_of_length_eq_zero (by omega)
    simp [copyoutLoop, this]
  | k + 1, dstva, src, m, hw, hk => by
    by_cases hsrc : src = []
    · simp [copyoutLoop, hsrc]
    have hlen : 0 < src.length := List.length_pos_iff.mpr hsrc
    simp only [copyoutLoop, if_neg hsrc, sub_PGROUNDDOWN, walkaddr_congr hw]
    by_cases h0 : walkaddr m₀ pt (PGROUNDDOWN dstva) = 0
    · -- the first byte has no page
      have hnone : userAddr m₀ pt (dstva + 0) = none := by
        rw [userAddr_chunk hz (by simp [PGSIZE]; omega), if_pos h0]
      simp only [h0, if_true]
      exact ⟨fun h => absurd h (by decide), fun h => absurd hnone (h 0 hlen)⟩
    · rw [if_neg h0]
      set n := min (PGSIZE - dstva % PGSIZE) src.length with hn
      have hn0 : 0 < n := by simp only [hn, PGSIZE]; omega
      rw [copyoutLoop_ok hz k _ _ _ (by simp [hw]) (by simp; omega),
        forall_lt_split (show n ≤ src.length by omega), List.length_drop]
      have hfirst : ∀ i < n, userAddr m₀ pt (dstva + i) ≠ none := fun i hi => by
        simp [copyout_pass hz src hn h0 hi]
      constructor
      · intro h
        exact ⟨hfirst, fun j hj => by rw [← next_page_add hn hj]; exact h j hj⟩
      · rintro ⟨-, h⟩ j hj
        rw [next_page_add hn hj]
        exact h j hj

/-- `copyout` writes the bytes of its range only. -/
theorem copyoutLoop_frame (hz : NonzeroFrames m₀ pt) :
    ∀ (k dstva : Nat) (src : List UInt8) (m : Phys), m.word = m₀.word → ∀ x,
      (∀ i < src.length, userAddr m₀ pt (dstva + i) ≠ some x) →
        (copyoutLoop pt k dstva src m).2.byte x = m.byte x
  | 0, _, _, _, _, _, _ => rfl
  | k + 1, dstva, src, m, hw, x, hx => by
    simp only [copyoutLoop, sub_PGROUNDDOWN, walkaddr_congr hw]
    split_ifs with hsrc h0
    · rfl
    · rfl
    · set n := min (PGSIZE - dstva % PGSIZE) src.length with hn
      rw [copyoutLoop_frame hz k _ _ _ (by simp [hw]) x (fun j hj => by
        rw [List.length_drop] at hj
        rw [next_page_add hn hj]
        exact hx (n + j) (by omega))]
      -- `x` is none of the `n` bytes of the first page
      have hout : ∀ i < n, walkaddr m₀ pt (PGROUNDDOWN dstva) + dstva % PGSIZE + i ≠ x := fun i hi h => by
        have hlen : i < src.length := by omega
        exact hx i hlen (by rw [copyout_pass hz src hn h0 hi, h])
      simp only [writeBytes, List.length_take]
      rw [if_neg]
      rintro ⟨hlo, hhi⟩
      exact hout (x - (walkaddr m₀ pt (PGROUNDDOWN dstva) + dstva % PGSIZE)) (by omega) (by omega)

/-- After a `copyout` that returns `0` over distinct physical bytes, the
range holds `src`. -/
theorem copyoutLoop_bytes (hz : NonzeroFrames m₀ pt) :
    ∀ (k dstva : Nat) (src : List UInt8) (m : Phys), m.word = m₀.word → src.length ≤ k →
      (copyoutLoop pt k dstva src m).1 = 0 → Distinct m₀ pt dstva src.length →
        ∀ i (hi : i < src.length), ∃ p, userAddr m₀ pt (dstva + i) = some p ∧
          (copyoutLoop pt k dstva src m).2.byte p = src[i]
  | 0, _, _, _, _, hk, _, _ => fun i hi => absurd hi (by omega)
  | k + 1, dstva, src, m, hw, hk, hok, hd => by
    intro i hi
    have hsrc : src ≠ [] := List.ne_nil_of_length_pos (by omega)
    have hok' := hok
    simp only [copyoutLoop, if_neg hsrc, sub_PGROUNDDOWN, walkaddr_congr hw] at hok' ⊢
    by_cases h0 : walkaddr m₀ pt (PGROUNDDOWN dstva) = 0
    · simp [h0] at hok'
    rw [if_neg h0] at hok' ⊢
    set n := min (PGSIZE - dstva % PGSIZE) src.length with hn
    set pa := walkaddr m₀ pt (PGROUNDDOWN dstva) + dstva % PGSIZE with hpa
    have hn0 : 0 < n := by simp only [hn, PGSIZE]; omega
    have hw' : (m.writeBytes pa (src.take n)).word = m₀.word := by simp [hw]
    by_cases hin : i < n
    · -- a byte of the first page: written now, and not by the later pages
      refine ⟨pa + i, copyout_pass hz src hn h0 hin, ?_⟩
      rw [copyoutLoop_frame hz k _ _ _ hw' _ (fun j hj h => by
        rw [List.length_drop] at hj
        rw [next_page_add hn hj, ← copyout_pass hz src hn h0 hin] at h
        have := hd _ (by omega) _ hi h
        omega)]
      simp only [writeBytes, List.length_take]
      rw [if_pos (by omega), Nat.add_sub_cancel_left]
      simp [List.getD_eq_getElem?_getD, hin, hi]
    · -- a byte of a later page
      have hj : i - n < (src.drop n).length := by simp; omega
      have hd' : Distinct m₀ pt (PGROUNDDOWN dstva + PGSIZE) (src.drop n).length := by
        intro a ha b hb hab
        rw [List.length_drop] at ha hb
        rw [next_page_add hn ha, next_page_add hn hb] at hab
        have := hd (n + a) (by omega) (n + b) (by omega) hab
        omega
      obtain ⟨p, hp, hbyte⟩ := copyoutLoop_bytes hz k _ _ _ hw' (by simp; omega) hok' hd' (i - n) hj
      rw [next_page_add hn (by simpa using hj), Nat.add_sub_cancel' (by omega)] at hp
      refine ⟨p, hp, ?_⟩
      rw [hbyte, List.getElem_drop]
      congr 1
      omega

end Copyout

/-! ## `copyin` and `copyinstr` -/

section Copyin

variable {m : Phys} {pt : Nat}

theorem userByte_pass (hz : NonzeroFrames m pt) {va n len i : Nat}
    (hn : n = min (PGSIZE - va % PGSIZE) len) (h0 : walkaddr m pt (PGROUNDDOWN va) ≠ 0) (hi : i < n) :
    userByte m pt (va + i) = some (m.byte (walkaddr m pt (PGROUNDDOWN va) + va % PGSIZE + i)) := by
  rw [userByte, userAddr_chunk hz (by omega), if_neg h0, Option.map_some]

theorem userAddr_of_walkaddr_eq_zero (hz : NonzeroFrames m pt) {va : Nat}
    (h0 : walkaddr m pt (PGROUNDDOWN va) = 0) : userAddr m pt va = none := by
  rw [userAddr_eq hz, if_pos h0]

theorem copyinLoop_result : ∀ (k srcva len : Nat),
    (copyinLoop m pt k srcva len).1 = 0 ∨ (copyinLoop m pt k srcva len).1 = -1
  | 0, _, _ => .inl rfl
  | k + 1, srcva, len => by
    simp only [copyinLoop]
    split_ifs
    · exact .inl rfl
    · exact .inr rfl
    · exact copyinLoop_result k _ _

theorem copyinLoop_ok (hz : NonzeroFrames m pt) : ∀ (k srcva len : Nat), len ≤ k →
    ((copyinLoop m pt k srcva len).1 = 0 ↔ ∀ i < len, userAddr m pt (srcva + i) ≠ none)
  | 0, _, len, hk => by simp [copyinLoop, show len = 0 by omega]
  | k + 1, srcva, len, hk => by
    by_cases hlen : len = 0
    · simp [copyinLoop, hlen]
    simp only [copyinLoop, if_neg hlen, sub_PGROUNDDOWN]
    by_cases h0 : walkaddr m pt (PGROUNDDOWN srcva) = 0
    · simp only [h0, if_true]
      exact ⟨fun h => absurd h (by decide),
        fun h => absurd (userAddr_of_walkaddr_eq_zero hz h0) (by simpa using h 0 (by omega))⟩
    · rw [if_neg h0]
      set n := min (PGSIZE - srcva % PGSIZE) len with hn
      have hn0 : 0 < n := by simp only [hn, PGSIZE]; omega
      rw [copyinLoop_ok hz k _ _ (by omega), forall_lt_split (show n ≤ len by omega)]
      have hfirst : ∀ i < n, userAddr m pt (srcva + i) ≠ none := fun i hi => by
        rw [userAddr_chunk hz (by omega), if_neg h0]
        simp
      constructor
      · intro h
        exact ⟨hfirst, fun j hj => by rw [← next_page_add hn hj]; exact h j hj⟩
      · rintro ⟨-, h⟩ j hj
        rw [next_page_add hn hj]
        exact h j hj

/-- The bytes `copyin` copies are the user bytes of its range. -/
theorem copyinLoop_bytes (hz : NonzeroFrames m pt) : ∀ (k srcva len : Nat), len ≤ k →
    (copyinLoop m pt k srcva len).1 = 0 →
      (copyinLoop m pt k srcva len).2.map some = (List.range len).map fun i => userByte m pt (srcva + i)
  | 0, _, len, hk, _ => by simp [copyinLoop, show len = 0 by omega]
  | k + 1, srcva, len, hk, hok => by
    by_cases hlen : len = 0
    · simp [copyinLoop, hlen]
    simp only [copyinLoop, if_neg hlen, sub_PGROUNDDOWN] at hok ⊢
    by_cases h0 : walkaddr m pt (PGROUNDDOWN srcva) = 0
    · simp [h0] at hok
    rw [if_neg h0] at hok ⊢
    set n := min (PGSIZE - srcva % PGSIZE) len with hn
    have hn0 : 0 < n := by simp only [hn, PGSIZE]; omega
    have hrest := copyinLoop_bytes hz k _ _ (by omega) hok
    rw [List.map_append, hrest, ← Nat.add_sub_cancel' (show n ≤ len by omega), List.range_add,
      List.map_append, Nat.add_sub_cancel' (show n ≤ len by omega)]
    congr 1
    · simp only [readBytes, List.map_map]
      refine List.map_congr_left fun i hi => ?_
      rw [Function.comp_apply, userByte_pass hz hn h0 (List.mem_range.mp hi)]
    · simp only [List.map_map]
      refine List.map_congr_left fun j hj => ?_
      rw [next_page_add hn (List.mem_range.mp hj)]
      rfl

/-- A `NUL` at `k` ends the string at `va`: the `k` bytes before it are user
bytes other than `0`. -/
def StrAt (m : Phys) (pt va k : Nat) : Prop :=
  (∀ i < k, ∃ b, userByte m pt (va + i) = some b ∧ b ≠ 0) ∧ userByte m pt (va + k) = some 0

theorem copyinstrPage_nonzero : ∀ (n p max : Nat), n ≤ max → (∀ i < n, m.byte (p + i) ≠ 0) →
    copyinstrPage m n p max = ((List.range n).map fun i => m.byte (p + i), false, max - n)
  | 0, _, _, _, _ => by simp [copyinstrPage]
  | n + 1, p, max, hn, hb => by
    have h0 := hb 0 (by omega)
    rw [Nat.add_zero] at h0
    rw [copyinstrPage, if_neg h0, copyinstrPage_nonzero n (p + 1) (max - 1) (by omega)
      (fun i hi => by simpa [Nat.add_assoc, Nat.add_comm 1] using hb (i + 1) (by omega))]
    show (m.byte p :: (List.range n).map (fun i => m.byte (p + 1 + i)), false, max - 1 - n) = _
    rw [List.range_succ_eq_map, List.map_cons, List.map_map, Nat.add_zero]
    congr 2
    · exact List.map_congr_left fun i _ => by simp [Nat.add_assoc, Nat.add_comm 1]
    · omega

theorem copyinstrPage_nul : ∀ (n p max k : Nat), k < n → (∀ i < k, m.byte (p + i) ≠ 0) → m.byte (p + k) = 0 →
    (copyinstrPage m n p max).1 = (List.range k).map (fun i => m.byte (p + i)) ++ [0] ∧
      (copyinstrPage m n p max).2.1 = true
  | 0, _, _, _, hk, _, _ => absurd hk (Nat.not_lt_zero _)
  | n + 1, p, max, 0, _, _, hz => by
    rw [Nat.add_zero] at hz
    simp [copyinstrPage, hz]
  | n + 1, p, max, k + 1, hk, hb, hz => by
    have h0 := hb 0 (by omega)
    rw [Nat.add_zero] at h0
    obtain ⟨h1, h2⟩ := copyinstrPage_nul n (p + 1) (max - 1) k (by omega)
      (fun i hi => by simpa [Nat.add_assoc, Nat.add_comm 1] using hb (i + 1) (by omega))
      (by simpa [Nat.add_assoc, Nat.add_comm 1] using hz)
    rw [copyinstrPage, if_neg h0]
    refine ⟨?_, h2⟩
    simp only [h1, List.range_succ_eq_map, List.map_cons, List.map_map, Nat.add_zero, List.cons_append]
    congr 2
    exact List.map_congr_left fun i _ => by simp [Nat.add_assoc, Nat.add_comm 1]

theorem StrAt.unique {va j j' : Nat} (h : StrAt m pt va j) (h' : StrAt m pt va j') : j = j' := by
  by_contra hne
  rcases Nat.lt_or_gt_of_ne hne with hlt | hlt
  · obtain ⟨b, hb, hb0⟩ := h'.1 j hlt
    exact hb0 (Option.some_injective _ (hb.symm.trans h.2))
  · obtain ⟨b, hb, hb0⟩ := h.1 j' hlt
    exact hb0 (Option.some_injective _ (hb.symm.trans h'.2))

theorem StrAt.le {va n j : Nat} (h : StrAt m pt va j)
    (hc : ∀ i < n, ∃ b, userByte m pt (va + i) = some b ∧ b ≠ 0) : n ≤ j := by
  by_contra hlt
  obtain ⟨b, hb, hb0⟩ := hc j (by omega)
  exact hb0 (Option.some_injective _ (hb.symm.trans h.2))

theorem strAt_add_iff {va n j : Nat} (hc : ∀ i < n, ∃ b, userByte m pt (va + i) = some b ∧ b ≠ 0) :
    StrAt m pt va (n + j) ↔ StrAt m pt (va + n) j := by
  simp only [StrAt, Nat.add_assoc]
  constructor
  · rintro ⟨h1, h2⟩
    exact ⟨fun i hi => h1 (n + i) (by omega), h2⟩
  · rintro ⟨h1, h2⟩
    refine ⟨fun i hi => ?_, h2⟩
    by_cases hin : i < n
    · exact hc i hin
    · simpa [Nat.add_sub_cancel' (not_lt.mp hin)] using h1 (i - n) (by omega)

theorem strAt_congr {a b j : Nat} (h : ∀ i ≤ j, userByte m pt (a + i) = userByte m pt (b + i)) :
    StrAt m pt a j ↔ StrAt m pt b j := by
  simp only [StrAt]
  constructor
  · rintro ⟨h1, h2⟩
    exact ⟨fun i hi => h i (by omega) ▸ h1 i hi, h j le_rfl ▸ h2⟩
  · rintro ⟨h1, h2⟩
    exact ⟨fun i hi => (h i (by omega)).symm ▸ h1 i hi, (h j le_rfl).symm ▸ h2⟩

theorem copyinstrLoop_result : ∀ (k srcva max : Nat),
    (copyinstrLoop m pt k srcva max).1 = 0 ∨ (copyinstrLoop m pt k srcva max).1 = -1
  | 0, _, _ => .inr rfl
  | k + 1, srcva, max => by
    simp only [copyinstrLoop]
    split_ifs
    · exact .inr rfl
    · exact .inr rfl
    · exact .inl rfl
    · exact copyinstrLoop_result k _ _

/-- `copyinstr` returns `0` iff a string ends within `max` bytes, and then
copies it with its `NUL`. -/
theorem copyinstrLoop_spec (hz : NonzeroFrames m pt) : ∀ (k srcva max : Nat), max ≤ k →
    ((copyinstrLoop m pt k srcva max).1 = 0 → ∃ j < max, StrAt m pt srcva j ∧
      (copyinstrLoop m pt k srcva max).2.map some = (List.range (j + 1)).map fun i => userByte m pt (srcva + i)) ∧
    ((∃ j < max, StrAt m pt srcva j) → (copyinstrLoop m pt k srcva max).1 = 0)
  | 0, srcva, max, hk =>
    ⟨fun h => absurd h (by simp [copyinstrLoop]), fun ⟨j, hj, _⟩ => absurd hj (by omega)⟩
  | k + 1, srcva, max, hk => by
    by_cases hmax : max = 0
    · simp only [copyinstrLoop, if_pos hmax]
      exact ⟨fun h => absurd h (by decide), fun ⟨j, hj, _⟩ => absurd hj (by omega)⟩
    simp only [copyinstrLoop, if_neg hmax, sub_PGROUNDDOWN]
    by_cases h0 : walkaddr m pt (PGROUNDDOWN srcva) = 0
    · -- the first byte has no page, so no string starts there
      simp only [if_pos h0]
      refine ⟨fun h => absurd h (by decide), fun ⟨j, _, hs⟩ => ?_⟩
      have hnone : userByte m pt srcva = none := by
        rw [userByte, userAddr_of_walkaddr_eq_zero hz h0, Option.map_none]
      cases j with
      | zero =>
        have := hs.2
        simp [hnone] at this
      | succ j =>
        obtain ⟨b, hb, _⟩ := hs.1 0 (by omega)
        simp [hnone] at hb
    rw [if_neg h0]
    set n := min (PGSIZE - srcva % PGSIZE) max with hn
    set pa := walkaddr m pt (PGROUNDDOWN srcva) + srcva % PGSIZE with hpa
    have hn0 : 0 < n := by simp only [hn, PGSIZE]; omega
    have hbyte : ∀ i < n, userByte m pt (srcva + i) = some (m.byte (pa + i)) := fun i hi => by
      rw [userByte_pass hz hn h0 hi, Nat.add_assoc]
    by_cases hnul : ∃ i, i < n ∧ m.byte (pa + i) = 0
    · -- the string ends on this page, at the first `NUL`
      set j := Nat.find hnul with hj
      obtain ⟨hjn, hj0⟩ := Nat.find_spec hnul
      have hbefore : ∀ i < j, m.byte (pa + i) ≠ 0 := fun i hi h =>
        Nat.find_min hnul hi ⟨by omega, h⟩
      obtain ⟨hbytes, hgot⟩ := copyinstrPage_nul n pa max j hjn hbefore hj0
      have hstr : StrAt m pt srcva j :=
        ⟨fun i hi => ⟨_, hbyte i (by omega), hbefore i hi⟩, by rw [hbyte j hjn, hj0]⟩
      simp only [if_pos hgot]
      refine ⟨fun _ => ⟨j, by omega, hstr, ?_⟩, fun _ => trivial⟩
      rw [hbytes, List.range_succ, List.map_append, List.map_append, List.map_map]
      congr 1
      · exact List.map_congr_left fun i hi => (hbyte i (by simp at hi; omega)).symm
      · have hj0' : m.byte (pa + j) = 0 := hj0
        simp [hbyte j hjn, hj0']
    · -- no `NUL` on this page: the string must go on from the next one
      have hc : ∀ i < n, m.byte (pa + i) ≠ 0 := fun i hi h => hnul ⟨i, hi, h⟩
      have hc' : ∀ i < n, ∃ b, userByte m pt (srcva + i) = some b ∧ b ≠ 0 :=
        fun i hi => ⟨_, hbyte i hi, hc i hi⟩
      rw [copyinstrPage_nonzero n pa max (by omega) hc]
      simp only [Bool.false_eq_true, if_false]
      have hnext : ∀ j < max - n, ∀ i ≤ j, userByte m pt (PGROUNDDOWN srcva + PGSIZE + i) =
          userByte m pt (srcva + n + i) := fun j hj i hi => by
        rw [next_page_add hn (show i < max - n by omega), Nat.add_assoc]
      obtain ⟨ih1, ih2⟩ := copyinstrLoop_spec hz k (PGROUNDDOWN srcva + PGSIZE) (max - n) (by omega)
      constructor
      · intro hok
        obtain ⟨j, hj, hs, hb⟩ := ih1 hok
        refine ⟨n + j, by omega, (strAt_add_iff hc').mpr ((strAt_congr (hnext j hj)).mp hs), ?_⟩
        rw [List.map_append, hb]
        conv_rhs => rw [show n + j + 1 = n + (j + 1) by omega, List.range_add, List.map_append, List.map_map]
        rw [List.map_map]
        congr 1
        · exact List.map_congr_left fun i hi => by
            simp [hbyte i (List.mem_range.mp hi)]
        · exact List.map_congr_left fun i hi => by
            simp only [Function.comp_apply]
            rw [hnext j hj i (by simp at hi; omega), Nat.add_assoc]
      · rintro ⟨j, hj, hs⟩
        have hle := hs.le hc'
        obtain ⟨j', rfl⟩ := Nat.exists_eq_add_of_le hle
        exact ih2 ⟨j', by omega, (strAt_congr (hnext j' (by omega))).mpr ((strAt_add_iff hc').mp hs)⟩

end Copyin

/-! ## The three copies -/

section Spec

variable {m : Phys} {pt : Nat}

theorem copyout_spec (hz : NonzeroFrames m pt) (dstva : Nat) (src : List UInt8) :
    ((copyout m pt dstva src).1 = 0 ↔ ∀ i < src.length, userAddr m pt (dstva + i) ≠ none) ∧
      ((copyout m pt dstva src).1 = 0 ∨ (copyout m pt dstva src).1 = -1) ∧
      ((copyout m pt dstva src).1 = 0 → Distinct m pt dstva src.length →
        ∀ i (hi : i < src.length), userByte (copyout m pt dstva src).2 pt (dstva + i) = some src[i]) := by
  refine ⟨copyoutLoop_ok hz _ _ _ _ rfl le_rfl, copyoutLoop_result _ _ _ _, fun hok hd i hi => ?_⟩
  obtain ⟨p, hp, hbyte⟩ := copyoutLoop_bytes hz _ _ _ _ rfl le_rfl hok hd i hi
  rw [userByte, copyout, userAddr_congr (copyoutLoop_word _ _ _ _), hp, Option.map_some, hbyte]

theorem copyin_spec (hz : NonzeroFrames m pt) (srcva len : Nat) :
    ((copyin m pt srcva len).1 = 0 ↔ ∀ i < len, userAddr m pt (srcva + i) ≠ none) ∧
      ((copyin m pt srcva len).1 = 0 ∨ (copyin m pt srcva len).1 = -1) ∧
      ((copyin m pt srcva len).1 = 0 →
        (copyin m pt srcva len).2.map some = (List.range len).map fun i => userByte m pt (srcva + i)) :=
  ⟨copyinLoop_ok hz _ _ _ le_rfl, copyinLoop_result _ _ _, copyinLoop_bytes hz _ _ _ le_rfl⟩

theorem copyinstr_spec (hz : NonzeroFrames m pt) (srcva max : Nat) :
    ((copyinstr m pt srcva max).1 = 0 ↔ ∃ k < max, StrAt m pt srcva k) ∧
      ((copyinstr m pt srcva max).1 = 0 ∨ (copyinstr m pt srcva max).1 = -1) ∧
      (∀ k, StrAt m pt srcva k → (copyinstr m pt srcva max).1 = 0 →
        (copyinstr m pt srcva max).2.map some = (List.range (k + 1)).map fun i => userByte m pt (srcva + i)) := by
  obtain ⟨h1, h2⟩ := copyinstrLoop_spec hz max srcva max le_rfl
  refine ⟨⟨fun h => ?_, h2⟩, copyinstrLoop_result _ _ _, fun k hk hok => ?_⟩
  · obtain ⟨k, hk, hs, -⟩ := h1 h
    exact ⟨k, hk, hs⟩
  · obtain ⟨k', -, hs, hb⟩ := h1 hok
    rw [copyinstr, hb, hs.unique hk]

/-- User memory as `copyout`, `copyin` and `copyinstr` see it. -/
theorem copies_match_user_memory (hz : NonzeroFrames m pt) :
    (∀ (dstva : Nat) (src : List UInt8),
      ((copyout m pt dstva src).1 = 0 ↔ ∀ i < src.length, userAddr m pt (dstva + i) ≠ none) ∧
      ((copyout m pt dstva src).1 = 0 ∨ (copyout m pt dstva src).1 = -1) ∧
      ((copyout m pt dstva src).1 = 0 → Distinct m pt dstva src.length →
        ∀ i (hi : i < src.length), userByte (copyout m pt dstva src).2 pt (dstva + i) = some src[i])) ∧
    (∀ srcva len : Nat,
      ((copyin m pt srcva len).1 = 0 ↔ ∀ i < len, userAddr m pt (srcva + i) ≠ none) ∧
      ((copyin m pt srcva len).1 = 0 ∨ (copyin m pt srcva len).1 = -1) ∧
      ((copyin m pt srcva len).1 = 0 →
        (copyin m pt srcva len).2.map some = (List.range len).map fun i => userByte m pt (srcva + i))) ∧
    (∀ srcva max : Nat,
      ((copyinstr m pt srcva max).1 = 0 ↔ ∃ k < max, StrAt m pt srcva k) ∧
      ((copyinstr m pt srcva max).1 = 0 ∨ (copyinstr m pt srcva max).1 = -1) ∧
      (∀ k, StrAt m pt srcva k → (copyinstr m pt srcva max).1 = 0 →
        (copyinstr m pt srcva max).2.map some = (List.range (k + 1)).map fun i => userByte m pt (srcva + i))) :=
  ⟨copyout_spec hz, copyin_spec hz, copyinstr_spec hz⟩

end Spec

/-! ## Small page tables -/

/-- RAM with a page table at `0x1000`, whose level-0 page at `0x3000` holds
`leaf i` for the `i`-th page of the first 2 MiB. -/
def smallPhys (leaf : Nat → UInt64) (bytes : Nat → UInt8) : Phys where
  word a :=
    if a = 0x1000 then PA2PTE 0x2000 ||| PTE_V
    else if a = 0x2000 then PA2PTE 0x3000 ||| PTE_V
    else if 0x3000 ≤ a ∧ a < 0x4000 ∧ a % 8 = 0 then leaf ((a - 0x3000) / 8)
    else 0
  byte := bytes
  free := []
  kend := 0x80000000

/-- A user page (`PTE_R | PTE_W | PTE_U`) on physical page `pa`. -/
def userLeaf (pa : Nat) : UInt64 := PA2PTE pa ||| PTE_R ||| PTE_W ||| PTE_U ||| PTE_V

-- Over an arbitrary page table: a user page on physical page `0` makes
-- `copyout` fail, and two user pages on one physical page leave the first
-- byte of a `copyout` over both different from its source.
example :
    let zero := smallPhys (fun i => if i = 0 then userLeaf 0 else 0) fun _ => 0
    let aliased := smallPhys (fun i => if i = 0 ∨ i = 1 then userLeaf 0x4000 else 0) fun _ => 0
    let src : List UInt8 := List.replicate 4096 1 ++ [2]
    (userAddr zero 0x1000 0 ≠ none ∧ (copyout zero 0x1000 0 [1]).1 = -1) ∧
      ((copyout aliased 0x1000 0 src).1 = 0 ∧ userByte (copyout aliased 0x1000 0 src).2 0x1000 0 ≠ some 1) := by
  decide +kernel

end Xv6
