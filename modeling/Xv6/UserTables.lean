import Xv6.Walker
import Xv6.ExecStack

/-!
# The page tables of a process (`uvmcreate`, `mappages`, `uvmalloc`)

`Built m pt`: RAM `m` holds a page table `pt` as `vm.c` builds a process's.
`uvmcreate` made it, `mappages` mapped kernel pages in it without `PTE_U`
(the trampoline and trapframe of `proc_pagetable`), `uvmalloc` grew it, and
stores through it changed bytes of user pages only. On such tables every
user page lies on a physical page of its own, which is not `0`, not free and
not a page-table page (`UserTree`): `uvmalloc` takes it from the free list as
`walk` takes the page-table pages, and the free list hands a page out once.

RAM is kept as a word view and a byte view (`Xv6.Phys`): the kernel reads
page-table pages as words and user pages as bytes. On built tables the two
never meet. A byte of user memory lies off every page-table page, so the
bytes `copyout` writes change no PTE of RAM read as one array, and the copies
follow user memory with no hypothesis on the frames
(`copies_match_built_tables`; over arbitrary tables
`Xv6.copies_match_user_memory` needs `NonzeroFrames` and `Distinct`).
-/

namespace Xv6

open Phys

/-! ## User pages on pages of their own -/

/-- `x` is a PTE of a level-0 page-table page. -/
def Leaf (lvl : Nat → Option Nat) (x : Nat) : Prop := ∃ t i, lvl t = some 0 ∧ i < 512 ∧ x = t + 8 * i

/-- The PTE at `x` maps a user page. -/
def UserPte (m : Phys) (x : Nat) : Prop := m.word x &&& PTE_V ≠ 0 ∧ m.word x &&& PTE_U ≠ 0

/-- A physical page that one user page owns. -/
structure OwnFrame (m : Phys) (lvl : Nat → Option Nat) (f : Nat) : Prop where
  pos : 0 < f
  aligned : f % PGSIZE = 0
  not_table : lvl f = none
  not_free : f ∉ m.free

/-- A process's page tables: a tree whose user pages lie on pages of their
own, over a free list as `kfree` builds it. -/
structure UserTree (m : Phys) (pt : Nat) (lvl : Nat → Option Nat) : Prop extends Tree m pt lvl where
  freeOk : FreeOk m
  frame : ∀ x, Leaf lvl x → UserPte m x → OwnFrame m lvl (PTE2PA (m.word x))
  frame_inj : ∀ x x', Leaf lvl x → Leaf lvl x' → UserPte m x → UserPte m x' →
    PTE2PA (m.word x) = PTE2PA (m.word x') → x = x'

section Own

variable {m m' : Phys} {pt : Nat} {lvl lvl' : Nat → Option Nat}

theorem lvl_new_none (hnew : ∀ t l, lvl' t = some l → lvl t = some l ∨ t ∈ m.free) {f : Nat}
    (hl : lvl f = none) (hf : f ∉ m.free) : lvl' f = none := by
  cases hl' : lvl' f with
  | none => rfl
  | some l =>
    rcases hnew f l hl' with h | h
    · rw [hl] at h
      cases h
    · exact absurd h hf

theorem OwnFrame.grows {f : Nat} (h : OwnFrame m lvl f) (hg : Grows m m')
    (hnew : ∀ t l, lvl' t = some l → lvl t = some l ∨ t ∈ m.free) : OwnFrame m' lvl' f where
  pos := h.pos
  aligned := h.aligned
  not_table := lvl_new_none hnew h.not_table h.not_free
  not_free hf := h.not_free (hg.mem_free hf)

/-- The tables after a call that links page-table pages from the free list
and writes the leaf PTE `s`: they stay a process's when every other valid
leaf PTE was there before and a user page mapped at `s` was free. -/
theorem UserTree.extend (hU : UserTree m pt lvl) (hT' : Tree m' pt lvl') (hf' : FreeOk m') (hg : Grows m m')
    (hnew : ∀ t l, lvl' t = some l → lvl t = some l ∨ t ∈ m.free) {s : Nat}
    (hold : ∀ x, Leaf lvl' x → x ≠ s → m'.word x &&& PTE_V ≠ 0 → Leaf lvl x ∧ m'.word x = m.word x)
    (hs : UserPte m' s → OwnFrame m' lvl' (PTE2PA (m'.word s)) ∧ PTE2PA (m'.word s) ∈ m.free) :
    UserTree m' pt lvl' := by
  -- a user PTE other than `s` is an old one
  have hold' : ∀ x, Leaf lvl' x → x ≠ s → UserPte m' x → Leaf lvl x ∧ UserPte m x ∧ m'.word x = m.word x :=
    fun x hx hxs hu => by
      obtain ⟨hl, hw⟩ := hold x hx hxs hu.1
      exact ⟨hl, by rw [UserPte, ← hw]; exact hu, hw⟩
  refine ⟨hT', hf', fun x hx hu => ?_, fun x x' hx hx' hu hu' heq => ?_⟩
  · by_cases hxs : x = s
    · subst hxs
      exact (hs hu).1
    · obtain ⟨hl, hu₀, hw⟩ := hold' x hx hxs hu
      rw [hw]
      exact (hU.frame x hl hu₀).grows hg hnew
  · by_cases hxs : x = s <;> by_cases hxs' : x' = s
    · rw [hxs, hxs']
    · -- the page at `s` was free, an old user page was not
      subst hxs
      obtain ⟨hl', hu₀', hw'⟩ := hold' x' hx' hxs' hu'
      rw [hw'] at heq
      exact absurd (heq ▸ (hs hu).2) (hU.frame x' hl' hu₀').not_free
    · subst hxs'
      obtain ⟨hl, hu₀, hw⟩ := hold' x hx hxs hu
      rw [hw] at heq
      exact absurd (heq ▸ (hs hu').2) (hU.frame x hl hu₀).not_free
    · obtain ⟨hl, hu₀, hw⟩ := hold' x hx hxs hu
      obtain ⟨hl', hu₀', hw'⟩ := hold' x' hx' hxs' hu'
      rw [hw, hw'] at heq
      exact hU.frame_inj x x' hl hl' hu₀ hu₀' heq

end Own

/-! ## `walk` and `mappages` on a tree -/

section Walk

variable {m m' : Phys} {pt va : Nat} {lvl : Nat → Option Nat}

theorem Tables.ptesFrom_page (ht : Tables m pt lvl) :
    ∀ {l q x : Nat}, lvl q = some l → x ∈ ptesFrom va l q m →
      ∃ t l', lvl t = some (l' + 1) ∧ t ≤ x ∧ x < t + PGSIZE
  | 0, _, _, _, h => by simp [ptesFrom] at h
  | l + 1, q, x, hq, h => by
    rw [ptesFrom, List.mem_cons] at h
    rcases h with rfl | h
    · exact ⟨q, l, hq, pte_mem_page q (PX_lt _ _)⟩
    · split_ifs at h with hv
      · exact ht.ptesFrom_page (ht.down q l _ hq (PX_lt _ _) hv) h
      · simp at h

theorem PX_zero_slot {i : Nat} (hi : i < 512) : PX 0 (i * PGSIZE) = i := by
  rw [PX_eq, show 2 ^ (12 + 9 * 0) = PGSIZE from rfl, Nat.mul_div_cancel _ (by decide), Nat.mod_eq_of_lt hi]

/-- After `walk` with allocation on a tree, a valid PTE of a level-0 page was
there before: an old page translates as before, and a new page is zero but
for the PTEs of the path, which lie on pages above level `0`. -/
theorem Tree.walkFrom_alloc_leaf (hT : Tree m pt lvl) (hf : FreeOk m) {a : Nat}
    (h : walkFrom va true 2 pt m = (some a, m')) :
    ∃ lvl', Linked m m' pt lvl lvl' ∧ (walkFrom va false 2 pt m').1 = some a ∧
      ∀ x, Leaf lvl' x → m'.word x &&& PTE_V ≠ 0 → Leaf lvl x ∧ m'.word x = m.word x := by
  obtain ⟨lvl', hL, hw, hF⟩ := hT.walkFrom_alloc hf hT.root h
  refine ⟨lvl', hL, hw, fun x hx hv => ?_⟩
  obtain ⟨t, i, ht0, hi, rfl⟩ := hx
  rcases hL.lvl_new t 0 ht0 with hold | hfree
  · have hs := hL.slotPte_eq (i * PGSIZE) 0 t hold
    simp only [walkFrom_zero, PX_zero_slot hi, slotPte, if_pos hv] at hs
    split_ifs at hs with hv₀
    exact ⟨⟨t, i, hold, hi, rfl⟩, Option.some.inj hs⟩
  · -- a page this walk took: zero off the path
    have htake : t ∈ m.free.take (missingFrom va 2 pt m) := by
      have hoff := hL.tree.off t 0 ht0
      rw [hF.free] at hoff
      rw [← List.take_append_drop (missingFrom va 2 pt m) m.free] at hfree
      exact (List.mem_append.mp hfree).resolve_right hoff
    have hpath : t + 8 * i ∉ ptesFrom va 2 pt m' := fun hp => by
      obtain ⟨t', l', hl', hx'⟩ := hL.tree.ptesFrom_page hL.tree.root hp
      have htt := page_eq (hL.tree.aligned t' _ hl') (hL.tree.aligned t 0 ht0) hx' (pte_mem_page t hi)
      rw [htt, ht0] at hl'
      cases hl'
    have hz := hF.zero t htake _ (pte_mem_page t hi).1 (pte_mem_page t hi).2 hpath
    exact absurd (by rw [hz]; decide) hv

/-- `mappages` of one page on a tree: the page-table pages it adds were
free, it writes one leaf PTE, and every other valid leaf PTE was there
before. -/
theorem Tree.mappages_one (hT : Tree m pt lvl) (hf : FreeOk m) {pa : Nat} {perm : UInt64}
    (hva : va % PGSIZE = 0) (h : mappages m pt va PGSIZE pa perm = .ok (true, m')) :
    ∃ lvl' s, Tree m' pt lvl' ∧ FreeOk m' ∧ Grows m m' ∧
      (∀ t l, lvl' t = some l → lvl t = some l ∨ t ∈ m.free) ∧ m'.word s = PA2PTE pa ||| perm ||| PTE_V ∧
      ∀ x, Leaf lvl' x → x ≠ s → m'.word x &&& PTE_V ≠ 0 → Leaf lvl x ∧ m'.word x = m.word x := by
  rw [mappages_page_eq hva] at h
  obtain ⟨-, s, m₁, hw, hinv, rfl⟩ := mapLoop_zero_ok h
  obtain ⟨lvl', hL, hw', hleaf⟩ := hT.walkFrom_alloc_leaf hf hw
  obtain ⟨t, ht0, rfl⟩ := hL.tree.walkFrom_slot hL.tree.root hw'
  have hf₁ := hL.freeOk
  refine ⟨lvl', t + 8 * PX 0 va, hL.tree.setWord_leaf ht0 (PX_lt 0 va) _, ⟨hf₁.1, hf₁.2, hf₁.3, hf₁.4⟩,
    hL.grows.trans (Grows.setWord hinv _), hL.lvl_new, by simp [setWord], fun x hx hxs hv => ?_⟩
  have hsame : (m₁.setWord (t + 8 * PX 0 va) (PA2PTE pa ||| perm ||| PTE_V)).word x = m₁.word x :=
    Function.update_of_ne hxs _ _
  rw [hsame] at hv ⊢
  exact hleaf x hx hv

theorem Tree.kalloc_memset (hT : Tree m pt lvl) (hf : FreeOk m) {r : Nat} {m₁ : Phys}
    (hk : kalloc m = some (r, m₁)) (c : UInt8) : Tree (m₁.memset r c PGSIZE) pt lvl := by
  refine ⟨hT.toTables.kalloc_memset hf hk c, fun t t' l l' i i' hl hl' hi hi' hv hv' heq => ?_⟩
  simp only [kalloc_memset_word hk c (hT.kalloc_page hf hk hl (pte_mem_page t hi)),
    kalloc_memset_word hk c (hT.kalloc_page hf hk hl' (pte_mem_page t' hi'))] at hv hv' heq
  exact hT.inj t t' l l' i i' hl hl' hi hi' hv hv' heq

end Walk

/-! ## PTE bits -/

theorem PA2PTE_and_U (pa : Nat) : PA2PTE pa &&& PTE_U = 0 := by
  apply UInt64.toBitVec_inj.mp
  simp only [UInt64.toBitVec_and, PA2PTE, UInt64.toBitVec_shiftLeft, UInt64.toBitVec_shiftRight]
  ext i hi
  -- the shift clears the ten flag bits, and `PTE_U` is one of them
  have hU : ∀ i (hi : i < 64), 10 ≤ i → PTE_U.toBitVec[i] = false := by decide
  simp only [BitVec.getElem_and]
  by_cases h10 : i < 10
  · simp [h10]
  · simp [hU i hi (by omega)]

theorem PTE_and_U {pa : Nat} {perm : UInt64} (h : perm &&& PTE_U = 0) :
    (PA2PTE pa ||| perm ||| PTE_V) &&& PTE_U = 0 := by
  apply UInt64.toBitVec_inj.mp
  have h' := congrArg UInt64.toBitVec h
  have hpa := congrArg UInt64.toBitVec (PA2PTE_and_U pa)
  simp only [UInt64.toBitVec_and, UInt64.toBitVec_or, BitVec.and_or_distrib_right] at h' hpa ⊢
  rw [h', hpa, show PTE_V.toBitVec &&& PTE_U.toBitVec = 0 by decide]
  rfl

theorem toNat_or_V_lt {perm : UInt64} (h : perm.toNat < 1024) : (perm ||| PTE_V).toNat < 1024 := by
  rw [UInt64.toNat_or]
  exact Nat.or_lt_two_pow (show perm.toNat < 2 ^ 10 from h) (show PTE_V.toNat < 2 ^ 10 by decide)

theorem toNat_uperm_lt {xperm : UInt64} (h : xperm.toNat < 1024) : (PTE_R ||| PTE_U ||| xperm).toNat < 1024 := by
  rw [UInt64.toNat_or]
  exact Nat.or_lt_two_pow (show (PTE_R ||| PTE_U).toNat < 2 ^ 10 by decide) (show xperm.toNat < 2 ^ 10 from h)

/-! ## What `vm.c` does to a process's tables -/

section Preserve

variable {m m' : Phys} {pt : Nat} {lvl : Nat → Option Nat}

/-- `uvmcreate` makes a process's tables: a zeroed root and nothing mapped. -/
theorem userTree_uvmcreate (hf : FreeOk m) (h : uvmcreate m = some (pt, m')) :
    UserTree m' pt (fun t => if t = pt then some 2 else none) := by
  unfold uvmcreate at h
  cases hk : kalloc m with
  | none =>
    rw [hk] at h
    cases h
  | some p =>
    obtain ⟨r, m₀⟩ := p
    rw [hk, Option.some.injEq, Prod.mk.injEq] at h
    obtain ⟨rfl, rfl⟩ := h
    have hfree := kalloc_memset_free hk 0
    have hr : r ∈ m.free := by rw [hfree]; exact List.mem_cons_self ..
    -- only the root has a level, and it holds no valid PTE
    have hlvl : ∀ {t l}, (if t = r then some 2 else none) = some l → t = r ∧ l = 2 := fun {t l} hl => by
      by_cases htr : t = r
      · rw [if_pos htr, Option.some.injEq] at hl
        exact ⟨htr, hl.symm⟩
      · rw [if_neg htr] at hl
        cases hl
    have hinv : ∀ {t l i}, (if t = r then some 2 else none) = some l → i < 512 →
        (m₀.memset r 0 PGSIZE).word (t + 8 * i) &&& PTE_V = 0 := fun {t l i} hl hi => by
      rw [(hlvl hl).1]
      simp only [memset, if_pos (pte_mem_page r hi), fill8_zero]
      decide
    have hleaf : ∀ x, ¬Leaf (fun t => if t = r then some 2 else none) x := fun x hx => by
      obtain ⟨t, i, ht0, -, -⟩ := hx
      exact absurd (hlvl ht0).2 (by decide)
    refine ⟨⟨⟨if_pos rfl, fun t l i hl hi hv => absurd (hinv hl hi) hv, fun t l hl => ?_, fun t l hl => ?_⟩,
      fun t t' l l' i i' hl _ hi _ hv _ _ => absurd (hinv hl hi) hv⟩, hf.grows (grows_kalloc_memset hk 0),
      fun x hx _ => absurd hx (hleaf x), fun x _ hx _ _ _ _ => absurd hx (hleaf x)⟩
    · rw [(hlvl hl).1]
      exact hf.aligned r hr
    · rw [(hlvl hl).1]
      have hnd := hf.nodup
      rw [hfree, List.nodup_cons] at hnd
      exact hnd.1

/-- `mappages` of a kernel page (no `PTE_U`) keeps the tables a process's. -/
theorem UserTree.mappages_kernel (hU : UserTree m pt lvl) {va pa : Nat} {perm : UInt64}
    (hva : va % PGSIZE = 0) (hperm : perm &&& PTE_U = 0) (h : mappages m pt va PGSIZE pa perm = .ok (true, m')) :
    ∃ lvl', UserTree m' pt lvl' := by
  obtain ⟨lvl', s, hT', hf', hg, hnew, hs, hold⟩ := hU.toTree.mappages_one hU.freeOk hva h
  refine ⟨lvl', hU.extend hT' hf' hg hnew hold fun hu => absurd ?_ hu.2⟩
  rw [hs]
  exact PTE_and_U hperm

/-- One pass of `uvmalloc`'s loop keeps the tables a process's: the page
`kalloc` hands out was free, so no user page and no page-table page is on
it. -/
theorem UserTree.alloc_pass (hU : UserTree m pt lvl) {a f : Nat} {m₀ : Phys} {perm : UInt64}
    (ha : a % PGSIZE = 0) (hperm : perm.toNat < 1024) (hk : kalloc m = some (f, m₀))
    (h : mappages (m₀.memset f 0 PGSIZE) pt a PGSIZE f perm = .ok (true, m')) :
    ∃ lvl', UserTree m' pt lvl' := by
  have hfree := kalloc_memset_free hk 0
  have hfm : f ∈ m.free := by rw [hfree]; exact List.mem_cons_self ..
  have hf₀ : f ∉ (m₀.memset f 0 PGSIZE).free := by
    have hnd := hU.freeOk.nodup
    rw [hfree, List.nodup_cons] at hnd
    exact hnd.1
  have hg₀ := grows_kalloc_memset hk 0
  obtain ⟨lvl', s, hT', hf', hg, hnew, hs, hold⟩ :=
    (hU.toTree.kalloc_memset hU.freeOk hk 0).mappages_one (hU.freeOk.grows hg₀) ha h
  have hpa : PTE2PA (m'.word s) = f := by
    rw [hs, UInt64.or_assoc,
      PTE2PA_PA2PTE_or (hU.freeOk.lt_pow hfm) (hU.freeOk.aligned f hfm) (toNat_or_V_lt hperm)]
  refine ⟨lvl', hU.extend hT' hf' (hg₀.trans hg) (fun t l hl => (hnew t l hl).imp_right hg₀.mem_free)
    (fun x hx hxs hv => ?_) fun _ => ⟨?_, hpa ▸ hfm⟩⟩
  · -- a leaf PTE lies on a page-table page, which `kalloc` did not hand out
    obtain ⟨⟨t, i, ht0, hi, rfl⟩, hw⟩ := hold x hx hxs hv
    refine ⟨⟨t, i, ht0, hi, rfl⟩, ?_⟩
    rw [hw, kalloc_memset_word hk 0 (hU.kalloc_page hU.freeOk hk ht0 (pte_mem_page t hi))]
  · rw [hpa]
    exact ⟨hU.freeOk.pos f hfm, hU.freeOk.aligned f hfm, lvl_new_none hnew (hU.lvl_free hfm) hf₀,
      fun hm => hf₀ (hg.mem_free hm)⟩

/-- The loop of `uvmalloc`: every pass that does not fail keeps the tables a
process's. -/
theorem UserTree.allocLoop {oldsz newsz sz : Nat} {xperm : UInt64} (hx : xperm.toNat < 1024) :
    ∀ (k a : Nat) (m : Phys) (lvl : Nat → Option Nat), UserTree m pt lvl → a % PGSIZE = 0 →
      allocLoop pt oldsz newsz xperm k a m = .ok (sz, m') → sz ≠ 0 → ∃ lvl', UserTree m' pt lvl'
  | 0, _, m, lvl, hU, _, h, _ => by
    rw [Xv6.allocLoop, Except.ok.injEq, Prod.mk.injEq] at h
    exact ⟨lvl, h.2 ▸ hU⟩
  | k + 1, a, m, lvl, hU, ha, h, hsz => by
    by_cases hlt : a < newsz
    · obtain ⟨f, m₀, m₁, hk, hmp, hrest⟩ := allocLoop_succ_ok hsz hlt h
      obtain ⟨lvl₁, hU₁⟩ := hU.alloc_pass ha (toNat_uperm_lt hx) hk hmp
      exact UserTree.allocLoop hx k (a + PGSIZE) m₁ lvl₁ hU₁ (by simpa using ha) hrest hsz
    · rw [Xv6.allocLoop, if_neg hlt, Except.ok.injEq, Prod.mk.injEq] at h
      exact ⟨lvl, h.2 ▸ hU⟩

theorem PGROUNDUP_aligned (sz : Nat) : PGROUNDUP sz % PGSIZE = 0 := Nat.mul_mod_left _ _

/-- `uvmalloc` that does not fail keeps the tables a process's. -/
theorem UserTree.uvmalloc (hU : UserTree m pt lvl) {oldsz newsz sz : Nat} {xperm : UInt64}
    (hx : xperm.toNat < 1024) (h : uvmalloc m pt oldsz newsz xperm = .ok (sz, m')) (hsz : sz ≠ 0) :
    ∃ lvl', UserTree m' pt lvl' := by
  unfold Xv6.uvmalloc at h
  split_ifs at h
  · rw [Except.ok.injEq, Prod.mk.injEq] at h
    exact ⟨lvl, h.2 ▸ hU⟩
  · exact UserTree.allocLoop hx _ _ m lvl hU (PGROUNDUP_aligned oldsz) h hsz

/-- A store that changes bytes only keeps the tables a process's. -/
theorem UserTree.store (hU : UserTree m pt lvl) (hw : m'.word = m.word) (hfree : m'.free = m.free) :
    UserTree m' pt lvl := by
  obtain ⟨w, b, fr, k⟩ := m
  obtain ⟨w', b', fr', k'⟩ := m'
  simp only at hw hfree
  subst hw hfree
  exact ⟨⟨⟨hU.root, hU.down, hU.aligned, hU.off⟩, hU.inj⟩, ⟨hU.freeOk.1, hU.freeOk.2, hU.freeOk.3, hU.freeOk.4⟩,
    fun x hx hu => ⟨(hU.frame x hx hu).pos, (hU.frame x hx hu).aligned, (hU.frame x hx hu).not_table,
      (hU.frame x hx hu).not_free⟩, hU.frame_inj⟩

end Preserve

/-! ## User memory on a process's tables -/

section Memory

variable {m : Phys} {pt : Nat} {lvl : Nat → Option Nat}

theorem userAddr_eq_some {v x : Nat} (h : userAddr m pt v = some x) :
    v < MAXVA ∧ ∃ a, (walkFrom (PGROUNDDOWN v) false 2 pt m).1 = some a ∧ UserPte m a ∧
      x = PTE2PA (m.word a) + v % PGSIZE := by
  unfold userAddr at h
  split_ifs at h with hv
  rcases hw : (walkFrom (PGROUNDDOWN v) false 2 pt m).1 with _ | a
  · simp [hw] at h
  · simp only [hw] at h
    split_ifs at h with hu
    exact ⟨Nat.lt_of_not_le hv, a, rfl, hu, (Option.some.inj h).symm⟩

theorem UserTree.nonzeroFrames (hU : UserTree m pt lvl) : NonzeroFrames m pt := fun va a hw hv hu => by
  obtain ⟨t, ht0, rfl⟩ := hU.walkFrom_slot hU.root hw
  exact (hU.frame _ ⟨t, _, ht0, PX_lt 0 va, rfl⟩ ⟨hv, hu⟩).pos.ne'

/-- The page a user address lies on is its own page. -/
theorem UserTree.userAddr_frame (hU : UserTree m pt lvl) {v x : Nat} (h : userAddr m pt v = some x) :
    ∃ f, OwnFrame m lvl f ∧ f ≤ x ∧ x < f + PGSIZE := by
  obtain ⟨-, a, hw, hu, rfl⟩ := userAddr_eq_some h
  obtain ⟨t, ht0, rfl⟩ := hU.walkFrom_slot hU.root hw
  have hlt := Nat.mod_lt v (show 0 < PGSIZE by decide)
  exact ⟨_, hU.frame _ ⟨t, _, ht0, PX_lt 0 _, rfl⟩ hu, Nat.le_add_right _ _, by omega⟩

/-- A byte of user memory lies off every page-table page and every free page. -/
theorem UserTree.userAddr_off (hU : UserTree m pt lvl) {v x : Nat} (h : userAddr m pt v = some x) :
    (∀ t l, lvl t = some l → ¬(t ≤ x ∧ x < t + PGSIZE)) ∧ ¬OnFree m x := by
  obtain ⟨f, hf, hx⟩ := hU.userAddr_frame h
  refine ⟨fun t l hl ht => ?_, hU.freeOk.not_onFree hf.aligned hf.not_free hx⟩
  rw [page_eq (hU.aligned t l hl) hf.aligned ht hx, hf.not_table] at hl
  cases hl

/-- Two user addresses on one physical byte are one address. -/
theorem UserTree.userAddr_inj (hU : UserTree m pt lvl) {v v' x : Nat} (h : userAddr m pt v = some x)
    (h' : userAddr m pt v' = some x) : v = v' := by
  obtain ⟨hv, a, hw, hu, hx⟩ := userAddr_eq_some h
  obtain ⟨hv', a', hw', hu', hx'⟩ := userAddr_eq_some h'
  obtain ⟨t, ht0, rfl⟩ := hU.walkFrom_slot hU.root hw
  obtain ⟨t', ht0', rfl⟩ := hU.walkFrom_slot hU.root hw'
  have hl : Leaf lvl (t + 8 * PX 0 (PGROUNDDOWN v)) := ⟨t, _, ht0, PX_lt 0 _, rfl⟩
  have hl' : Leaf lvl (t' + 8 * PX 0 (PGROUNDDOWN v')) := ⟨t', _, ht0', PX_lt 0 _, rfl⟩
  have hf := hU.frame _ hl hu
  have hf' := hU.frame _ hl' hu'
  -- the byte lies on both frames, so they are one page, reached through one slot
  have ho := Nat.mod_lt v (show 0 < PGSIZE by decide)
  have ho' := Nat.mod_lt v' (show 0 < PGSIZE by decide)
  have hpage := page_eq hf.aligned hf'.aligned (x := x) ⟨by omega, by omega⟩ ⟨by omega, by omega⟩
  have hslot := hU.frame_inj _ _ hl hl' hu hu' hpage
  rw [walkFrom_false_two] at hw hw'
  have hdiv := hU.toTree.page_of_slot (Nat.lt_of_not_le fun h => absurd ((MAXVA_le_PGROUNDDOWN v).mp h) (Nat.not_le.mpr hv))
    (Nat.lt_of_not_le fun h => absurd ((MAXVA_le_PGROUNDDOWN v').mp h) (Nat.not_le.mpr hv')) hw (hslot ▸ hw')
  simp only [PGROUNDDOWN, PGSIZE] at hdiv hx hx' hpage ⊢
  omega

theorem UserTree.distinct (hU : UserTree m pt lvl) {va len : Nat}
    (h : ∀ i < len, userAddr m pt (va + i) ≠ none) : Distinct m pt va len := fun i hi j _ heq => by
  obtain ⟨x, hx⟩ := Option.ne_none_iff_exists'.mp (h i hi)
  have := hU.userAddr_inj hx (heq ▸ hx)
  omega

end Memory

/-! ## Tables `vm.c` builds -/

/-- RAM `m` holding a page table `pt` as `vm.c` builds a process's:
`uvmcreate` made it, `mappages` mapped kernel pages without `PTE_U` in it,
`uvmalloc` grew it with `PTE_R | PTE_U | xperm` for the flag bits `xperm`
its callers pass, and stores through it changed bytes of user pages only. -/
inductive Built : Phys → Nat → Prop
  | create {m m' : Phys} {pt : Nat} : FreeOk m → uvmcreate m = some (pt, m') → Built m' pt
  | mapKernel {m m' : Phys} {pt va pa : Nat} {perm : UInt64} : Built m pt → va % PGSIZE = 0 →
      perm &&& PTE_U = 0 → mappages m pt va PGSIZE pa perm = .ok (true, m') → Built m' pt
  | grow {m m' : Phys} {pt oldsz newsz sz : Nat} {xperm : UInt64} : Built m pt → xperm.toNat < 1024 →
      uvmalloc m pt oldsz newsz xperm = .ok (sz, m') → sz ≠ 0 → Built m' pt
  | store {m m' : Phys} {pt : Nat} : Built m pt → m'.word = m.word → m'.free = m.free →
      (∀ x, m'.byte x ≠ m.byte x → ∃ va, userAddr m pt va = some x) → Built m' pt

theorem Built.userTree {m : Phys} {pt : Nat} (h : Built m pt) : ∃ lvl, UserTree m pt lvl := by
  induction h with
  | create hf hc => exact ⟨_, userTree_uvmcreate hf hc⟩
  | mapKernel _ hva hperm hmap ih =>
    obtain ⟨lvl, hU⟩ := ih
    exact hU.mappages_kernel hva hperm hmap
  | grow _ hx halloc hsz ih =>
    obtain ⟨lvl, hU⟩ := ih
    exact hU.uvmalloc hx halloc hsz
  | store _ hw hfree _ ih =>
    obtain ⟨lvl, hU⟩ := ih
    exact ⟨lvl, hU.store hw hfree⟩

/-- A `copyout` on built tables writes user bytes only, so the tables stay
built. -/
theorem Built.copyout_store {m : Phys} {pt : Nat} (h : Built m pt) (dstva : Nat) (src : List UInt8) :
    (∀ x, (copyout m pt dstva src).2.byte x ≠ m.byte x → ∃ va, userAddr m pt va = some x) ∧
      Built (copyout m pt dstva src).2 pt := by
  obtain ⟨lvl, hU⟩ := h.userTree
  have hbytes : ∀ x, (copyout m pt dstva src).2.byte x ≠ m.byte x → ∃ va, userAddr m pt va = some x := by
    intro x hx
    by_contra hno
    exact hx (copyoutLoop_frame hU.nonzeroFrames _ _ _ _ rfl x fun i _ hi => hno ⟨_, hi⟩)
  exact ⟨hbytes, h.store (copyoutLoop_word _ _ _ _) (copyoutLoop_free _ _ _ _) hbytes⟩

/-! ## The copies on built tables -/

/-- On a page table that `vm.c` built, user memory lies off every
page-table page and every free page; `copyout`, `copyin` and `copyinstr`
follow it with no hypothesis on the frames; and `copyout` writes user bytes
only, so the tables stay built. -/
theorem copies_match_built_tables {m : Phys} {pt : Nat} (hB : Built m pt) :
    (∃ lvl, Tree m pt lvl ∧ ∀ va x, userAddr m pt va = some x →
      (∀ t l, lvl t = some l → ¬(t ≤ x ∧ x < t + PGSIZE)) ∧ ¬OnFree m x) ∧
    (∀ (dstva : Nat) (src : List UInt8),
      ((copyout m pt dstva src).1 = 0 ↔ ∀ i < src.length, userAddr m pt (dstva + i) ≠ none) ∧
      ((copyout m pt dstva src).1 = 0 ∨ (copyout m pt dstva src).1 = -1) ∧
      ((copyout m pt dstva src).1 = 0 →
        ∀ i (hi : i < src.length), userByte (copyout m pt dstva src).2 pt (dstva + i) = some src[i]) ∧
      (∀ x, (copyout m pt dstva src).2.byte x ≠ m.byte x → ∃ va, userAddr m pt va = some x) ∧
      Built (copyout m pt dstva src).2 pt) ∧
    (∀ srcva len : Nat,
      ((copyin m pt srcva len).1 = 0 ↔ ∀ i < len, userAddr m pt (srcva + i) ≠ none) ∧
      ((copyin m pt srcva len).1 = 0 ∨ (copyin m pt srcva len).1 = -1) ∧
      ((copyin m pt srcva len).1 = 0 →
        (copyin m pt srcva len).2.map some = (List.range len).map fun i => userByte m pt (srcva + i))) ∧
    (∀ srcva max : Nat,
      ((copyinstr m pt srcva max).1 = 0 ↔ ∃ k < max, StrAt m pt srcva k) ∧
      ((copyinstr m pt srcva max).1 = 0 ∨ (copyinstr m pt srcva max).1 = -1) ∧
      (∀ k, StrAt m pt srcva k → (copyinstr m pt srcva max).1 = 0 →
        (copyinstr m pt srcva max).2.map some = (List.range (k + 1)).map fun i => userByte m pt (srcva + i))) := by
  obtain ⟨lvl, hU⟩ := hB.userTree
  have hz := hU.nonzeroFrames
  refine ⟨⟨lvl, hU.toTree, fun _ _ h => hU.userAddr_off h⟩, fun dstva src => ?_, copyin_spec hz, copyinstr_spec hz⟩
  -- a `copyout` that returns `0` found every byte of its range mapped, on distinct bytes
  obtain ⟨hiff, hres, hbytes⟩ := copyout_spec hz dstva src
  exact ⟨hiff, hres, fun hok => hbytes hok (hU.distinct (hiff.mp hok)), hB.copyout_store dstva src⟩

/-- `uvmcreate` and a one-page `uvmalloc` on `fourPages`: a `copyout` of
`"hi"` to address `0` stores it, and one to the next page, unmapped, fails. -/
theorem copies_match_built_tables_fourPages :
    ∃ pt m₁ m₂, uvmcreate fourPages = some (pt, m₁) ∧ uvmalloc m₁ pt 0 PGSIZE PTE_W = .ok (PGSIZE, m₂) ∧
      Built m₂ pt ∧ (copyout m₂ pt 0 [104, 105]).1 = 0 ∧
      userByte (copyout m₂ pt 0 [104, 105]).2 pt 0 = some 104 ∧
      userByte (copyout m₂ pt 0 [104, 105]).2 pt 1 = some 105 ∧ (copyout m₂ pt PGSIZE [104]).1 = -1 := by
  obtain ⟨pt, m₁, m₂, h₁, h₂, hok, hfail⟩ : ∃ pt m₁ m₂, uvmcreate fourPages = some (pt, m₁) ∧
      uvmalloc m₁ pt 0 PGSIZE PTE_W = .ok (PGSIZE, m₂) ∧ (copyout m₂ pt 0 [104, 105]).1 = 0 ∧
      (copyout m₂ pt PGSIZE [104]).1 = -1 := ⟨_, _, _, rfl, rfl, by decide, by decide⟩
  have hB : Built m₂ pt := .grow (.create freeOk_fourPages h₁) (by decide) h₂ (by decide)
  have hbytes := ((copies_match_built_tables hB).2.1 0 [104, 105]).2.2.1 hok
  exact ⟨pt, m₁, m₂, h₁, h₂, hB, hok, hbytes 0 (by decide), hbytes 1 (by decide), hfail⟩

end Xv6
