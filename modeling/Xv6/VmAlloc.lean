import Xv6.Vm

/-!
# Growing a page table (`walk`, `mappages`, `uvmalloc`, `uvmclear`)

What the allocating functions of `vm.c` do to RAM, and what a walk finds
after them. Two invariants of the kernel state carry the proofs:

* `FreeOk`: the free list is made of distinct aligned pages above `0` and
  below `PHYSTOP`, as `kfree` admits them;
* `Tables m pt lvl`: `lvl` names the page-table pages under the root `pt`
  with their levels; a valid PTE of a page of level `l + 1` points to a page
  of level `l`, and page-table pages are aligned and off the free list.

`Grows m m'` is the footprint of an allocating call: the free list loses a
prefix, and a word changes only on a page that was free or where no valid
PTE was. A walk that reaches its PTE reads valid PTEs on page-table pages
only, so it reaches the same PTE after any such change
(`Tables.walkFrom_frame`). `Tables.walkFrom_alloc` is `walk` with `alloc`
set: it links fresh zeroed pages into the tree, keeps both invariants, and
the PTE it returns is then found without allocating. `mappages` of one page,
`uvmalloc` of two pages (`exec`'s stack and guard) and `uvmclear` follow.
-/

namespace Xv6

open Phys

/-! ## The free list and the page-table pages -/

/-- `x` lies on a page of the free list. -/
def OnFree (m : Phys) (x : Nat) : Prop := ∃ r ∈ m.free, r ≤ x ∧ x < r + PGSIZE

/-- The free list as `kfree` builds it. -/
structure FreeOk (m : Phys) : Prop where
  nodup : m.free.Nodup
  aligned : ∀ r ∈ m.free, r % PGSIZE = 0
  pos : ∀ r ∈ m.free, 0 < r
  lt : ∀ r ∈ m.free, r < PHYSTOP

/-- `lvl t = some l`: `t` is a page-table page of level `l` under root `pt`. -/
structure Tables (m : Phys) (pt : Nat) (lvl : Nat → Option Nat) : Prop where
  root : lvl pt = some 2
  down : ∀ t l i, lvl t = some (l + 1) → i < 512 → m.word (t + 8 * i) &&& PTE_V ≠ 0 →
    lvl (PTE2PA (m.word (t + 8 * i))) = some l
  aligned : ∀ t l, lvl t = some l → t % PGSIZE = 0
  off : ∀ t l, lvl t = some l → t ∉ m.free

/-- What an allocating call may do to RAM. -/
structure Grows (m m' : Phys) : Prop where
  free : ∃ k, m'.free = m.free.drop k
  word : ∀ x, m'.word x ≠ m.word x → OnFree m x ∨ m.word x &&& PTE_V = 0

theorem page_eq {t t' x : Nat} (ht : t % PGSIZE = 0) (ht' : t' % PGSIZE = 0)
    (hx : t ≤ x ∧ x < t + PGSIZE) (hx' : t' ≤ x ∧ x < t' + PGSIZE) : t = t' := by
  simp only [PGSIZE] at *
  omega

theorem pte_mem_page (t : Nat) {i : Nat} (hi : i < 512) : t ≤ t + 8 * i ∧ t + 8 * i < t + PGSIZE := by
  simp only [PGSIZE]
  omega

theorem FreeOk.not_onFree {m : Phys} (hf : FreeOk m) {t x : Nat} (ht : t % PGSIZE = 0) (htf : t ∉ m.free)
    (hx : t ≤ x ∧ x < t + PGSIZE) : ¬OnFree m x := by
  rintro ⟨r, hr, hrx⟩
  exact htf (page_eq (hf.aligned r hr) ht hrx hx ▸ hr)

theorem Tables.not_onFree {m : Phys} {pt : Nat} {lvl : Nat → Option Nat} (ht : Tables m pt lvl)
    (hf : FreeOk m) {t l i : Nat} (hl : lvl t = some l) (hi : i < 512) : ¬OnFree m (t + 8 * i) :=
  hf.not_onFree (ht.aligned t l hl) (ht.off t l hl) (pte_mem_page t hi)

theorem Tables.lvl_free {m : Phys} {pt : Nat} {lvl : Nat → Option Nat} (ht : Tables m pt lvl)
    {r : Nat} (hr : r ∈ m.free) : lvl r = none := by
  cases h : lvl r with
  | none => rfl
  | some l => exact absurd hr (ht.off r l h)

theorem FreeOk.lt_pow {m : Phys} (hf : FreeOk m) {r : Nat} (hr : r ∈ m.free) : r < 2 ^ 56 :=
  lt_trans (hf.lt r hr) (by decide)

/-! ## PTE bits -/

theorem or_V_and_V (x : UInt64) : (x ||| PTE_V) &&& PTE_V = PTE_V := by
  apply UInt64.toBitVec_inj.mp
  simp only [UInt64.toBitVec_and, UInt64.toBitVec_or]
  ext i hi
  simp only [BitVec.getElem_and, BitVec.getElem_or]
  cases PTE_V.toBitVec[i] <;> simp

theorem or_V_valid (x : UInt64) : (x ||| PTE_V) &&& PTE_V ≠ 0 := by
  rw [or_V_and_V]
  decide

theorem clearU_and_V (w : UInt64) : (w &&& ~~~PTE_U) &&& PTE_V = w &&& PTE_V := by
  rw [UInt64.and_assoc, show ~~~PTE_U &&& PTE_V = PTE_V by decide]

theorem clearU_and_U (w : UInt64) : (w &&& ~~~PTE_U) &&& PTE_U = 0 := by
  rw [UInt64.and_assoc, show ~~~PTE_U &&& PTE_U = 0 by decide, UInt64.and_zero]

theorem PTE2PA_clearU (w : UInt64) : PTE2PA (w &&& ~~~PTE_U) = PTE2PA w := by
  have hdiv : (w.toNat &&& 2 ^ 64 - 17) / 2 ^ 10 = w.toNat / 2 ^ 10 := by
    rw [← Nat.shiftRight_eq_div_pow, ← Nat.shiftRight_eq_div_pow, Nat.shiftRight_and_distrib,
      show (2 ^ 64 - 17) >>> 10 = 2 ^ 54 - 1 by decide, Nat.and_two_pow_sub_one_eq_mod,
      Nat.mod_eq_of_lt (by rw [Nat.shiftRight_eq_div_pow]; have := w.toNat_lt; omega)]
  rw [PTE2PA_eq, PTE2PA_eq, UInt64.toNat_and, show (~~~PTE_U).toNat = 2 ^ 64 - 17 by decide]
  rw [show (1024 : Nat) = 2 ^ 10 from rfl, hdiv]

/-! ## Footprints -/

theorem Grows.refl (m : Phys) : Grows m m :=
  ⟨⟨0, rfl⟩, fun _ h => absurd rfl h⟩

theorem Grows.mem_free {m m' : Phys} (hg : Grows m m') {r : Nat} (hr : r ∈ m'.free) : r ∈ m.free := by
  obtain ⟨k, hk⟩ := hg.free
  rw [hk] at hr
  exact List.mem_of_mem_drop hr

theorem Grows.onFree {m m' : Phys} (hg : Grows m m') {x : Nat} (hx : OnFree m' x) : OnFree m x := by
  obtain ⟨r, hr, hrx⟩ := hx
  exact ⟨r, hg.mem_free hr, hrx⟩

theorem Grows.word_eq {m m' : Phys} (hg : Grows m m') {x : Nat} (hx : ¬OnFree m x)
    (hv : m.word x &&& PTE_V ≠ 0) : m'.word x = m.word x := by
  by_contra hne
  rcases hg.word x hne with h | h
  · exact hx h
  · exact hv h

theorem Grows.trans {m₁ m₂ m₃ : Phys} (h₁ : Grows m₁ m₂) (h₂ : Grows m₂ m₃) : Grows m₁ m₃ where
  free := by
    obtain ⟨k₁, hk₁⟩ := h₁.free
    obtain ⟨k₂, hk₂⟩ := h₂.free
    exact ⟨k₁ + k₂, by rw [hk₂, hk₁, List.drop_drop, Nat.add_comm]⟩
  word x hne := by
    by_cases h12 : m₂.word x = m₁.word x
    · -- the change is the second call's
      rw [← h12] at hne ⊢
      rcases h₂.word x hne with h | h
      · exact .inl (h₁.onFree h)
      · exact .inr h
    · exact h₁.word x h12

theorem FreeOk.grows {m m' : Phys} (hf : FreeOk m) (hg : Grows m m') : FreeOk m' where
  nodup := by
    obtain ⟨k, hk⟩ := hg.free
    rw [hk]
    exact hf.nodup.sublist (List.drop_sublist k _)
  aligned r hr := hf.aligned r (hg.mem_free hr)
  pos r hr := hf.pos r (hg.mem_free hr)
  lt r hr := hf.lt r (hg.mem_free hr)

theorem Grows.setWord {m : Phys} {a : Nat} (ha : m.word a &&& PTE_V = 0) (v : UInt64) :
    Grows m (m.setWord a v) where
  free := ⟨0, rfl⟩
  word x hne := by
    by_cases hx : x = a
    · exact .inr (hx ▸ ha)
    · exact absurd (Function.update_of_ne hx _ _) hne

/-! ## `kalloc` -/

section Kalloc

variable {m m₁ : Phys} {r : Nat}

theorem kalloc_eq_some (h : kalloc m = some (r, m₁)) :
    m.free = r :: m₁.free ∧ ∀ x, ¬(r ≤ x ∧ x < r + PGSIZE) → m₁.word x = m.word x := by
  unfold kalloc at h
  split at h
  · cases h
  · rename_i r' rest hfree
    cases h
    exact ⟨hfree, fun x hx => by simp only [memset]; rw [if_neg hx]⟩

theorem kalloc_memset_word (h : kalloc m = some (r, m₁)) (c : UInt8) {x : Nat}
    (hx : ¬(r ≤ x ∧ x < r + PGSIZE)) : (m₁.memset r c PGSIZE).word x = m.word x := by
  simp only [memset]
  rw [if_neg hx, (kalloc_eq_some h).2 x hx]

theorem kalloc_memset_free (h : kalloc m = some (r, m₁)) (c : UInt8) :
    m.free = r :: (m₁.memset r c PGSIZE).free :=
  (kalloc_eq_some h).1

theorem grows_kalloc_memset (h : kalloc m = some (r, m₁)) (c : UInt8) : Grows m (m₁.memset r c PGSIZE) where
  free := ⟨1, by rw [kalloc_memset_free h c]; rfl⟩
  word x hne := by
    by_cases hx : r ≤ x ∧ x < r + PGSIZE
    · exact .inl ⟨r, by rw [kalloc_memset_free h c]; exact List.mem_cons_self .., hx⟩
    · exact absurd (kalloc_memset_word h c hx) hne

theorem Tables.kalloc_page {pt : Nat} {lvl : Nat → Option Nat} (ht : Tables m pt lvl) (hf : FreeOk m)
    (h : kalloc m = some (r, m₁)) {t l : Nat} (hl : lvl t = some l) {x : Nat} (hx : t ≤ x ∧ x < t + PGSIZE) :
    ¬(r ≤ x ∧ x < r + PGSIZE) := by
  have hr : r ∈ m.free := by rw [(kalloc_eq_some h).1]; exact List.mem_cons_self ..
  exact fun hrx => hf.not_onFree (ht.aligned t l hl) (ht.off t l hl) hx ⟨r, hr, hrx⟩

theorem Tables.kalloc_memset {pt : Nat} {lvl : Nat → Option Nat} (ht : Tables m pt lvl) (hf : FreeOk m)
    (h : kalloc m = some (r, m₁)) (c : UInt8) : Tables (m₁.memset r c PGSIZE) pt lvl where
  root := ht.root
  down t l i hl hi hv := by
    have heq := kalloc_memset_word h c (ht.kalloc_page hf h hl (pte_mem_page t hi))
    rw [heq] at hv ⊢
    exact ht.down t l i hl hi hv
  aligned := ht.aligned
  off t l hl hmem := ht.off t l hl (by rw [kalloc_memset_free h c]; exact List.mem_cons_of_mem _ hmem)

end Kalloc

/-! ## `walk` -/

section Walk

variable {va : Nat} {alloc : Bool}

theorem walkFrom_succ_of_valid {l q : Nat} {m : Phys} (h : m.word (q + 8 * PX (l + 1) va) &&& PTE_V ≠ 0) :
    walkFrom va alloc (l + 1) q m = walkFrom va alloc l (PTE2PA (m.word (q + 8 * PX (l + 1) va))) m := by
  simp only [walkFrom, if_pos h]

theorem walkFrom_false_succ_of_invalid {l q : Nat} {m : Phys}
    (h : m.word (q + 8 * PX (l + 1) va) &&& PTE_V = 0) : walkFrom va false (l + 1) q m = (none, m) := by
  rw [walkFrom, if_neg (by simpa using h)]
  rfl

theorem walkFrom_true_succ_of_invalid {l q : Nat} {m : Phys}
    (h : m.word (q + 8 * PX (l + 1) va) &&& PTE_V = 0) :
    walkFrom va true (l + 1) q m =
      match kalloc m with
      | none => (none, m)
      | some r => walkFrom va true l r.1
          ((r.2.memset r.1 0 PGSIZE).setWord (q + 8 * PX (l + 1) va) (PA2PTE r.1 ||| PTE_V)) := by
  rw [walkFrom, if_neg (by simpa using h)]
  rfl

variable {m : Phys} {pt : Nat} {lvl : Nat → Option Nat}

theorem Tables.walkFrom_slot (ht : Tables m pt lvl) :
    ∀ {l q a : Nat}, lvl q = some l → (walkFrom va false l q m).1 = some a →
      ∃ t, lvl t = some 0 ∧ a = t + 8 * PX 0 va
  | 0, q, a, hq, h => ⟨q, hq, by simpa [walkFrom] using h.symm⟩
  | l + 1, q, a, hq, h => by
    by_cases hv : m.word (q + 8 * PX (l + 1) va) &&& PTE_V = 0
    · simp [walkFrom_false_succ_of_invalid hv] at h
    · rw [walkFrom_succ_of_valid hv] at h
      exact ht.walkFrom_slot (ht.down q l _ hq (PX_lt _ _) hv) h

theorem Tables.walkFrom_frame (ht : Tables m pt lvl) (hf : FreeOk m) {m' : Phys}
    (hkeep : ∀ x, ¬OnFree m x → m.word x &&& PTE_V ≠ 0 →
      m'.word x &&& PTE_V ≠ 0 ∧ PTE2PA (m'.word x) = PTE2PA (m.word x)) :
    ∀ {l q a : Nat}, lvl q = some l → (walkFrom va false l q m).1 = some a →
      (walkFrom va false l q m').1 = some a
  | 0, q, a, _, h => by simpa [walkFrom] using h
  | l + 1, q, a, hq, h => by
    by_cases hv : m.word (q + 8 * PX (l + 1) va) &&& PTE_V = 0
    · simp [walkFrom_false_succ_of_invalid hv] at h
    · rw [walkFrom_succ_of_valid hv] at h
      obtain ⟨hv', hpa⟩ := hkeep _ (ht.not_onFree hf hq (PX_lt _ _)) hv
      rw [walkFrom_succ_of_valid hv', hpa]
      exact ht.walkFrom_frame hf hkeep (ht.down q l _ hq (PX_lt _ _) hv) h

/-- `walk` links a fresh page where a page-table page was missing: the page
becomes a page-table page of the level below. -/
theorem Tables.link (ht : Tables m pt lvl) (hf : FreeOk m) {q l r : Nat} {m₁ : Phys} (hq : lvl q = some (l + 1))
    (hpte : m.word (q + 8 * PX (l + 1) va) &&& PTE_V = 0) (hk : kalloc m = some (r, m₁)) :
    Tables ((m₁.memset r 0 PGSIZE).setWord (q + 8 * PX (l + 1) va) (PA2PTE r ||| PTE_V)) pt
      (Function.update lvl r (some l)) := by
  set pte := q + 8 * PX (l + 1) va
  have hfree := kalloc_memset_free hk 0
  have hr : r ∈ m.free := by rw [hfree]; exact List.mem_cons_self ..
  have hlr := ht.lvl_free hr
  have hpte_page : q ≤ pte ∧ pte < q + PGSIZE := pte_mem_page q (PX_lt (l + 1) va)
  -- every word off the new page and off the linked PTE keeps its value
  have hword : ∀ x, x ≠ pte → ¬(r ≤ x ∧ x < r + PGSIZE) →
      ((m₁.memset r 0 PGSIZE).setWord pte (PA2PTE r ||| PTE_V)).word x = m.word x := fun x hx hxr => by
    simp only [setWord]
    rw [Function.update_of_ne hx, kalloc_memset_word hk 0 hxr]
  constructor
  case root =>
    have hptr : pt ≠ r := fun h => by rw [← h, ht.root] at hlr; cases hlr
    rw [Function.update_of_ne hptr, ht.root]
  case down =>
    intro t l' i hl hi hv
    by_cases htr : t = r
    · -- the new page is all zero
      subst htr
      have hne : t + 8 * i ≠ pte := fun h =>
        by have := page_eq (ht.aligned q _ hq) (hf.aligned t hr) (h ▸ hpte_page) (pte_mem_page t hi); simp_all
      simp only [setWord, Function.update_of_ne hne, memset, if_pos (pte_mem_page t hi)] at hv
      exact absurd (by decide) hv
    · rw [Function.update_of_ne htr] at hl
      by_cases hx : t + 8 * i = pte
      · -- the linked PTE points to the new page
        have htq : t = q :=
          page_eq (ht.aligned t _ hl) (ht.aligned q _ hq) (by rw [← hx]; exact pte_mem_page t hi) hpte_page
        subst htq
        obtain rfl : l = l' := by simpa [hq] using hl
        simp only [setWord, hx, Function.update_self]
        rw [PTE2PA_PA2PTE_or (hf.lt_pow hr) (hf.aligned r hr) (by decide), Function.update_self]
      · have hw := hword _ hx (ht.kalloc_page hf hk hl (pte_mem_page t hi))
        rw [hw] at hv ⊢
        have hdown := ht.down t l' i hl hi hv
        rw [Function.update_of_ne (fun h => by simp [h, hlr] at hdown), hdown]
  case aligned =>
    intro t l' hl
    by_cases htr : t = r
    · exact htr ▸ hf.aligned r hr
    · exact ht.aligned t l' (by rwa [Function.update_of_ne htr] at hl)
  case off =>
    intro t l' hl hmem
    have hmem' : t ∈ (m₁.memset r 0 PGSIZE).free := hmem
    by_cases htr : t = r
    · subst htr
      have hnd := hf.nodup
      rw [hfree, List.nodup_cons] at hnd
      exact hnd.1 hmem'
    · rw [Function.update_of_ne htr] at hl
      exact ht.off t l' hl (by rw [hfree]; exact List.mem_cons_of_mem _ hmem')

theorem grows_link {m m₁ : Phys} {r pte : Nat} (hk : kalloc m = some (r, m₁)) (hpte : m.word pte &&& PTE_V = 0)
    (hpr : ¬(r ≤ pte ∧ pte < r + PGSIZE)) (v : UInt64) :
    Grows m ((m₁.memset r 0 PGSIZE).setWord pte v) :=
  (grows_kalloc_memset hk 0).trans (Grows.setWord (by rw [kalloc_memset_word hk 0 hpr]; exact hpte) v)

/-- `walk` with `alloc` set: when it returns a PTE, the page tables it grew
keep both invariants, its footprint is an allocating one, and a walk without
allocation finds the same PTE. -/
theorem Tables.walkFrom_alloc (ht : Tables m pt lvl) (hf : FreeOk m) {l q a : Nat} {m' : Phys}
    (hq : lvl q = some l) (h : walkFrom va true l q m = (some a, m')) :
    ∃ lvl', Tables m' pt lvl' ∧ Grows m m' ∧ (walkFrom va false l q m').1 = some a := by
  induction l generalizing q m lvl with
  | zero =>
    simp only [walkFrom, Prod.mk.injEq, Option.some.injEq] at h
    obtain ⟨rfl, rfl⟩ := h
    exact ⟨lvl, ht, Grows.refl m, by simp [walkFrom]⟩
  | succ l ih =>
    by_cases hv : m.word (q + 8 * PX (l + 1) va) &&& PTE_V = 0
    · -- a missing page-table page: `kalloc` one, zero it, link it
      rw [walkFrom_true_succ_of_invalid hv] at h
      cases hk : kalloc m with
      | none => simp [hk] at h
      | some p =>
        obtain ⟨r, m₁⟩ := p
        rw [hk] at h
        have hr : r ∈ m.free := by rw [kalloc_memset_free hk 0]; exact List.mem_cons_self ..
        have ht₂ := ht.link hf hq hv hk
        have hg₂ := grows_link hk hv (ht.kalloc_page hf hk hq (pte_mem_page q (PX_lt _ _))) (PA2PTE r ||| PTE_V)
        have hf₂ := hf.grows hg₂
        obtain ⟨lvl', ht', hg', hw⟩ := ih ht₂ hf₂ (Function.update_self ..) h
        refine ⟨lvl', ht', hg₂.trans hg', ?_⟩
        -- the linked PTE is a valid PTE of a page-table page, so the rest of the walk keeps it
        have hlq : Function.update lvl r (some l) q = some (l + 1) := by
          rw [Function.update_of_ne (fun h => by simp [h, ht.lvl_free hr] at hq), hq]
        have hpte : m'.word (q + 8 * PX (l + 1) va) = PA2PTE r ||| PTE_V := by
          rw [hg'.word_eq (ht₂.not_onFree hf₂ hlq (PX_lt _ _)) (by simp [setWord, or_V_valid])]
          simp [setWord]
        rw [walkFrom_succ_of_valid (by rw [hpte]; exact or_V_valid _), hpte,
          PTE2PA_PA2PTE_or (hf.lt_pow hr) (hf.aligned r hr) (by decide)]
        exact hw
    · rw [walkFrom_succ_of_valid hv] at h
      obtain ⟨lvl', ht', hg, hw⟩ := ih ht hf (ht.down q l _ hq (PX_lt _ _) hv) h
      refine ⟨lvl', ht', hg, ?_⟩
      have hpte := hg.word_eq (ht.not_onFree hf hq (PX_lt _ _)) hv
      rw [walkFrom_succ_of_valid (by rw [hpte]; exact hv), hpte]
      exact hw

theorem Tables.walkFrom_grows (ht : Tables m pt lvl) (hf : FreeOk m) {m' : Phys} (hg : Grows m m')
    {l q a : Nat} (hq : lvl q = some l) (h : (walkFrom va false l q m).1 = some a) :
    (walkFrom va false l q m').1 = some a :=
  ht.walkFrom_frame hf (fun _ hx hv => by rw [hg.word_eq hx hv]; exact ⟨hv, rfl⟩) hq h

theorem walkFrom_false_snd : ∀ (l q : Nat) (m : Phys), (walkFrom va false l q m).2 = m
  | 0, _, _ => rfl
  | l + 1, q, m => by
    by_cases hv : m.word (q + 8 * PX (l + 1) va) &&& PTE_V = 0
    · rw [walkFrom_false_succ_of_invalid hv]
    · rw [walkFrom_succ_of_valid hv, walkFrom_false_snd]

theorem Tables.setWord_leaf (ht : Tables m pt lvl) {t i : Nat} (ht0 : lvl t = some 0) (hi : i < 512)
    (v : UInt64) : Tables (m.setWord (t + 8 * i) v) pt lvl where
  root := ht.root
  down t' l i' hl hi' hv := by
    -- a PTE of a higher level lies on another page
    have hne : t' + 8 * i' ≠ t + 8 * i := fun h => by
      have htt := page_eq (ht.aligned t' _ hl) (ht.aligned t _ ht0) (pte_mem_page t' hi')
        (by rw [h]; exact pte_mem_page t hi)
      rw [htt, ht0] at hl
      cases hl
    simp only [setWord, Function.update_of_ne hne] at hv ⊢
    exact ht.down t' l i' hl hi' hv
  aligned := ht.aligned
  off := ht.off

end Walk

/-! ## `mappages` and `uvmalloc` -/

section Map

variable {m m' : Phys} {pt va pa : Nat} {perm : UInt64} {lvl : Nat → Option Nat}

theorem mapLoop_zero_ok (h : mapLoop pt perm va pa 0 m = .ok (true, m')) :
    va < MAXVA ∧ ∃ pte m₁, walkFrom va true 2 pt m = (some pte, m₁) ∧ m₁.word pte &&& PTE_V = 0 ∧
      m' = m₁.setWord pte (PA2PTE pa ||| perm ||| PTE_V) := by
  rw [mapLoop] at h
  by_cases hva : MAXVA ≤ va
  · simp [walk, hva] at h
  refine ⟨by omega, ?_⟩
  simp only [walk, if_neg hva] at h
  rcases hw : walkFrom va true 2 pt m with ⟨_ | pte, m₁⟩
  · simp [hw] at h
  · rw [hw] at h
    by_cases hv : m₁.word pte &&& PTE_V = 0
    · simp only [hv, ne_eq, not_true_eq_false, if_false, Except.ok.injEq, Prod.mk.injEq] at h
      exact ⟨pte, m₁, rfl, hv, h.2.symm⟩
    · simp [hv] at h

theorem mappages_page_eq (hva : va % PGSIZE = 0) : mappages m pt va PGSIZE pa perm = mapLoop pt perm va pa 0 m := by
  have h1 : PGROUNDDOWN va = va := by simp only [PGROUNDDOWN, PGSIZE] at hva ⊢; omega
  have h2 : PGROUNDDOWN (va + PGSIZE - 1) = va := by simp only [PGROUNDDOWN, PGSIZE] at hva ⊢; omega
  simp only [mappages, if_neg (show PGSIZE ≠ 0 by decide), h1, h2, Nat.sub_self, Nat.zero_div]

theorem Tables.mappages_page (ht : Tables m pt lvl) (hf : FreeOk m) (hva : va % PGSIZE = 0)
    (h : mappages m pt va PGSIZE pa perm = .ok (true, m')) :
    va < MAXVA ∧ ∃ lvl' a, Tables m' pt lvl' ∧ Grows m m' ∧ (walkFrom va false 2 pt m').1 = some a ∧
      m'.word a = PA2PTE pa ||| perm ||| PTE_V ∧ (¬OnFree m a → m.word a &&& PTE_V = 0) := by
  rw [mappages_page_eq hva] at h
  obtain ⟨hlt, pte, m₁, hw, hinv, rfl⟩ := mapLoop_zero_ok h
  obtain ⟨lvl', ht', hg, hw'⟩ := ht.walkFrom_alloc hf ht.root hw
  obtain ⟨t, ht0, rfl⟩ := ht'.walkFrom_slot ht'.root hw'
  refine ⟨hlt, lvl', t + 8 * PX 0 va, ht'.setWord_leaf ht0 (PX_lt _ _) _, hg.trans (Grows.setWord hinv _), ?_, ?_, ?_⟩
  · -- the new PTE was not valid, so no walk read it
    refine ht'.walkFrom_frame (hf.grows hg) (fun x _ hv => ?_) ht'.root hw'
    have hx : x ≠ t + 8 * PX 0 va := fun h => hv (h ▸ hinv)
    have hsame : (m₁.setWord (t + 8 * PX 0 va) (PA2PTE pa ||| perm ||| PTE_V)).word x = m₁.word x :=
      Function.update_of_ne hx _ _
    exact ⟨hsame ▸ hv, by rw [hsame]⟩
  · simp [setWord]
  · intro hoff
    by_contra hv
    exact hv (hg.word_eq hoff hv ▸ hinv)

/-- The loop of `uvmalloc` maps one page a pass; a pass that ends in a size
other than `0` got its page from `kalloc` and mapped it. -/
theorem allocLoop_succ_ok {oldsz newsz sz a k : Nat} {xperm : UInt64} (hnz : sz ≠ 0) (ha : a < newsz)
    (h : allocLoop pt oldsz newsz xperm (k + 1) a m = .ok (sz, m')) :
    ∃ f m₀ m₁, kalloc m = some (f, m₀) ∧
      mappages (m₀.memset f 0 PGSIZE) pt a PGSIZE f (PTE_R ||| PTE_U ||| xperm) = .ok (true, m₁) ∧
      allocLoop pt oldsz newsz xperm k (a + PGSIZE) m₁ = .ok (sz, m') := by
  rw [allocLoop, if_pos ha] at h
  cases hk : kalloc m with
  | none =>
    -- `uvmdealloc` and the result `0`
    rw [hk] at h
    cases hu : uvmdealloc m pt a oldsz <;> simp [hu, Except.map] at h
    exact absurd h.1.symm hnz
  | some p =>
    obtain ⟨f, m₀⟩ := p
    rw [hk] at h
    cases hmp : mappages (m₀.memset f 0 PGSIZE) pt a PGSIZE f (PTE_R ||| PTE_U ||| xperm) with
    | error e => simp [hmp] at h
    | ok r =>
      obtain ⟨b, m₁⟩ := r
      cases b
      · -- `kfree` and `uvmdealloc`, then the result `0`
        simp only [hmp] at h
        cases hkf : kfree m₁ f with
        | error e => simp [hkf, bind, Except.bind] at h
        | ok m₂ =>
          cases hu : uvmdealloc m₂ pt a oldsz <;> simp [hkf, hu, bind, Except.bind, Except.map] at h
          exact absurd h.1.symm hnz
      · exact ⟨f, m₀, m₁, rfl, hmp, by simpa [hmp] using h⟩

theorem uvmalloc_two_ok {S : Nat} {xperm : UInt64} (hS : S % PGSIZE = 0) (hS64 : S < 2 ^ 64)
    (h : uvmalloc m pt S (S + 2 * PGSIZE) xperm = .ok (S + 2 * PGSIZE, m')) :
    ∃ f₀ m₀ m₁ f₁ m₂, kalloc m = some (f₀, m₀) ∧
      mappages (m₀.memset f₀ 0 PGSIZE) pt S PGSIZE f₀ (PTE_R ||| PTE_U ||| xperm) = .ok (true, m₁) ∧
      kalloc m₁ = some (f₁, m₂) ∧
      mappages (m₂.memset f₁ 0 PGSIZE) pt (S + PGSIZE) PGSIZE f₁ (PTE_R ||| PTE_U ||| xperm) = .ok (true, m') := by
  have hup : PGROUNDUP S = S := by
    simp only [PGROUNDUP, PGSIZE] at *
    rw [Nat.mod_eq_of_lt (by omega)]
    omega
  have hk : (S + 2 * PGSIZE - S + PGSIZE - 1) / PGSIZE = 1 + 1 := by simp [PGSIZE]
  simp only [uvmalloc, if_neg (show ¬S + 2 * PGSIZE < S by omega), hup, hk] at h
  obtain ⟨f₀, m₀, m₁, hk₀, hm₀, h₁⟩ := allocLoop_succ_ok (by simp [PGSIZE]) (by simp [PGSIZE]) h
  obtain ⟨f₁, m₂, m₃, hk₁, hm₁, h₂⟩ := allocLoop_succ_ok (by simp [PGSIZE]) (by simp [PGSIZE]) h₁
  simp only [allocLoop, Except.ok.injEq, Prod.mk.injEq, true_and] at h₂
  exact ⟨f₀, m₀, m₁, f₁, m₂, hk₀, hm₀, hk₁, h₂ ▸ hm₁⟩

/-- `uvmalloc` of two pages keeps both invariants and maps both: the first
with a valid PTE, the second on a page of the free list. -/
theorem Tables.uvmalloc_two (ht : Tables m pt lvl) (hf : FreeOk m) {S : Nat} {xperm : UInt64}
    (hS : S % PGSIZE = 0) (hS64 : S < 2 ^ 64)
    (h : uvmalloc m pt S (S + 2 * PGSIZE) xperm = .ok (S + 2 * PGSIZE, m')) :
    S + PGSIZE < MAXVA ∧ ∃ lvl' a₀ a₁ f₁, Tables m' pt lvl' ∧ FreeOk m' ∧ a₀ ≠ a₁ ∧
      (walkFrom S false 2 pt m').1 = some a₀ ∧ m'.word a₀ &&& PTE_V ≠ 0 ∧
      (walkFrom (S + PGSIZE) false 2 pt m').1 = some a₁ ∧
      m'.word a₁ = PA2PTE f₁ ||| (PTE_R ||| PTE_U ||| xperm) ||| PTE_V ∧
      0 < f₁ ∧ f₁ % PGSIZE = 0 ∧ f₁ < PHYSTOP := by
  obtain ⟨f₀, m₀, m₁, f₁, m₂, hk₀, hm₀, hk₁, hm₁⟩ := uvmalloc_two_ok hS hS64 h
  -- the first pass maps the guard page
  have hgA := grows_kalloc_memset hk₀ 0
  have hfA := hf.grows hgA
  obtain ⟨-, lvl₁, a₀, ht₁, hg₁, hw₀, hword₀, -⟩ := (ht.kalloc_memset hf hk₀ 0).mappages_page hfA hS hm₀
  have hf₁ := hfA.grows hg₁
  -- the second pass maps the stack page
  have hgB := grows_kalloc_memset hk₁ 0
  have hfB := hf₁.grows hgB
  have hS' : (S + PGSIZE) % PGSIZE = 0 := by simp only [PGSIZE] at hS ⊢; omega
  obtain ⟨hlt, lvl₂, a₁, ht₂, hg₂, hw₁, hword₁, hold⟩ :=
    (ht₁.kalloc_memset hf₁ hk₁ 0).mappages_page hfB hS' hm₁
  -- the guard PTE is a valid PTE of a page-table page, so the second pass keeps it
  obtain ⟨t₀, ht₀, rfl⟩ := ht₁.walkFrom_slot ht₁.root hw₀
  have hv₀ : m₁.word (t₀ + 8 * PX 0 S) &&& PTE_V ≠ 0 := by rw [hword₀]; exact or_V_valid _
  have hoff₀ := ht₁.not_onFree hf₁ ht₀ (PX_lt 0 S)
  have hf₁mem : f₁ ∈ m₁.free := by rw [kalloc_memset_free hk₁ 0]; exact List.mem_cons_self ..
  refine ⟨hlt, lvl₂, _, a₁, f₁, ht₂, hfB.grows hg₂, ?_, ht₁.walkFrom_grows hf₁ (hgB.trans hg₂) ht₁.root hw₀,
    by rw [(hgB.trans hg₂).word_eq hoff₀ hv₀]; exact hv₀, hw₁, hword₁,
    hf₁.pos f₁ hf₁mem, hf₁.aligned f₁ hf₁mem, hf₁.lt f₁ hf₁mem⟩
  -- the stack PTE held no valid PTE before the second `mappages`, the guard PTE did
  intro heq
  have hvB : (m₂.memset f₁ 0 PGSIZE).word (t₀ + 8 * PX 0 S) &&& PTE_V ≠ 0 := by
    rw [hgB.word_eq hoff₀ hv₀]
    exact hv₀
  have hoffB : ¬OnFree (m₂.memset f₁ 0 PGSIZE) (t₀ + 8 * PX 0 S) := fun hon => hoff₀ (hgB.onFree hon)
  rw [heq] at hvB hoffB
  exact hvB (hold hoffB)

theorem uvmclear_eq {a : Nat} (hva : va < MAXVA) (hw : (walkFrom va false 2 pt m).1 = some a) :
    uvmclear m pt va = .ok (m.setWord a (m.word a &&& ~~~PTE_U)) := by
  have hwalk : walkFrom va false 2 pt m = (some a, m) := Prod.ext hw (walkFrom_false_snd 2 pt m)
  simp only [uvmclear, walk, if_neg (Nat.not_le.mpr hva), hwalk]

theorem Tables.walkFrom_clearU (ht : Tables m pt lvl) (hf : FreeOk m) {a va' a' : Nat}
    (hw : (walkFrom va' false 2 pt m).1 = some a') :
    (walkFrom va' false 2 pt (m.setWord a (m.word a &&& ~~~PTE_U))).1 = some a' := by
  refine ht.walkFrom_frame hf (fun x _ hv => ?_) ht.root hw
  by_cases hx : x = a
  · subst hx
    simp only [setWord, Function.update_self]
    exact ⟨by rw [clearU_and_V]; exact hv, PTE2PA_clearU _⟩
  · have hsame : (m.setWord a (m.word a &&& ~~~PTE_U)).word x = m.word x := Function.update_of_ne hx _ _
    rw [hsame]
    exact ⟨hv, rfl⟩

end Map

end Xv6
