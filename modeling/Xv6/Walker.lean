import Xv6.VmAlloc

/-!
# The Sv39 walker as a page map (`walk`, `walkaddr`)

`pathSlot m pt va` is what the three-level scheme says a walk finds: the
level-0 PTE selected by `PX(2, va)`, `PX(1, va)` and `PX(0, va)` through
the valid PTEs above it. `walk` without allocation returns it
(`walk_false_eq`), and `walkaddr` reads it (`walkaddr_eq`). Addresses of one
page share their slot (`pathSlot_page`). The converse needs more than the
invariant `Tables` of `Xv6.VmAlloc`: two valid PTEs may point to one
page-table page, and then addresses of different pages share a slot. `Tree`
adds that no two valid PTEs of page-table pages point to the same page, and
under it a slot determines the page (`Tree.page_of_slot`).

`pageMap m pt` is what the tables stand for: virtual page `n` maps through
its valid level-0 PTE. `walk` with allocation links a fresh zeroed page for
each missing page-table page on the path (`Fresh`), keeps the tree a tree
and changes no translation (`Linked`, one link at a time by
`Tree.linked_link`); it returns `0` only when the free list runs out
(`walkFrom_true_none`, `Tree.walkFrom_alloc`). Writing a slot remaps its page
and no other (`Tree.pageMap_setWord_slot`), so the `mappages` loop maps its
range as `mapRange` says, and each of its outcomes says what it found
(`Tree.mapLoop_cases`). `PageMapLaw` collects the laws; `mappages` may return
`-1` on a range that holds a mapped page when the free list runs out first
(`mappages_oom_skips_remap`).
-/

namespace Xv6

open Phys

/-! ## The slot of an address -/

/-- The level-0 PTE that `PX(2, va)`, `PX(1, va)` and `PX(0, va)` select
under the root `pt` through valid PTEs; `none` when a PTE above is invalid. -/
def pathSlot (m : Phys) (pt va : Nat) : Option Nat :=
  let e₂ := m.word (pt + 8 * PX 2 va)
  if e₂ &&& PTE_V = 0 then none
  else
    let e₁ := m.word (PTE2PA e₂ + 8 * PX 1 va)
    if e₁ &&& PTE_V = 0 then none
    else some (PTE2PA e₁ + 8 * PX 0 va)

section Path

variable {m : Phys} {pt va va' : Nat}

theorem walkFrom_zero (alloc : Bool) (q : Nat) (m : Phys) :
    walkFrom va alloc 0 q m = (some (q + 8 * PX 0 va), m) := rfl

theorem walkFrom_false_two : walkFrom va false 2 pt m = (pathSlot m pt va, m) := by
  unfold pathSlot
  by_cases h₂ : m.word (pt + 8 * PX 2 va) &&& PTE_V = 0
  · rw [if_pos h₂, walkFrom_false_succ_of_invalid h₂]
  · rw [if_neg h₂, walkFrom_succ_of_valid h₂]
    by_cases h₁ : m.word (PTE2PA (m.word (pt + 8 * PX 2 va)) + 8 * PX 1 va) &&& PTE_V = 0
    · rw [if_pos h₁, walkFrom_false_succ_of_invalid h₁]
    · rw [if_neg h₁, walkFrom_succ_of_valid h₁, walkFrom_zero]

theorem walk_false_eq (hva : va < MAXVA) : walk m pt va false = .ok (pathSlot m pt va, m) := by
  rw [walk, if_neg (Nat.not_le.mpr hva), walkFrom_false_two]

theorem PX_page (h : va / PGSIZE = va' / PGSIZE) (l : Nat) : PX l va = PX l va' := by
  have hpow : 2 ^ (12 + 9 * l) = PGSIZE * 2 ^ (9 * l) := by rw [pow_add]; rfl
  rw [PX_eq, PX_eq, hpow, ← Nat.div_div_eq_div_mul, ← Nat.div_div_eq_div_mul, h]

theorem pathSlot_page (h : va / PGSIZE = va' / PGSIZE) : pathSlot m pt va = pathSlot m pt va' := by
  simp only [pathSlot, PX_page h]

theorem page_of_PX (hva : va < MAXVA) (hva' : va' < MAXVA) (h₂ : PX 2 va = PX 2 va')
    (h₁ : PX 1 va = PX 1 va') (h₀ : PX 0 va = PX 0 va') : va / PGSIZE = va' / PGSIZE := by
  rw [PX_eq, PX_eq] at h₂ h₁ h₀
  rw [MAXVA_eq] at hva hva'
  simp only [PGSIZE]
  norm_num at h₂ h₁ h₀
  omega

theorem slot_eq {t t' i i' : Nat} (ht : t % PGSIZE = 0) (ht' : t' % PGSIZE = 0) (hi : i < 512)
    (hi' : i' < 512) (h : t + 8 * i = t' + 8 * i') : t = t' ∧ i = i' := by
  simp only [PGSIZE] at ht ht'
  omega

end Path

/-! ## Trees of page-table pages -/

/-- The page-table pages form a tree: `Tables`, and no two valid PTEs of
page-table pages above level `0` point to the same page. -/
structure Tree (m : Phys) (pt : Nat) (lvl : Nat → Option Nat) : Prop extends Tables m pt lvl where
  inj : ∀ t t' l l' i i', lvl t = some (l + 1) → lvl t' = some (l' + 1) → i < 512 → i' < 512 →
    m.word (t + 8 * i) &&& PTE_V ≠ 0 → m.word (t' + 8 * i') &&& PTE_V ≠ 0 →
    PTE2PA (m.word (t + 8 * i)) = PTE2PA (m.word (t' + 8 * i')) → t + 8 * i = t' + 8 * i'

section Tree

variable {m : Phys} {pt va va' a : Nat} {lvl : Nat → Option Nat}

theorem Tables.pathSlot_eq_some (ht : Tables m pt lvl) (h : pathSlot m pt va = some a) :
    ∃ t₁ t₀, m.word (pt + 8 * PX 2 va) &&& PTE_V ≠ 0 ∧ t₁ = PTE2PA (m.word (pt + 8 * PX 2 va)) ∧
      lvl t₁ = some 1 ∧ m.word (t₁ + 8 * PX 1 va) &&& PTE_V ≠ 0 ∧ t₀ = PTE2PA (m.word (t₁ + 8 * PX 1 va)) ∧
      lvl t₀ = some 0 ∧ a = t₀ + 8 * PX 0 va := by
  unfold pathSlot at h
  dsimp only at h
  split_ifs at h with h₂ h₁
  cases h
  have hl₁ := ht.down pt 1 _ ht.root (PX_lt 2 va) h₂
  exact ⟨_, _, h₂, rfl, hl₁, h₁, rfl, ht.down _ 0 _ hl₁ (PX_lt 1 va) h₁, rfl⟩

theorem Tree.page_of_slot (hT : Tree m pt lvl) (hva : va < MAXVA) (hva' : va' < MAXVA)
    (h : pathSlot m pt va = some a) (h' : pathSlot m pt va' = some a) : va / PGSIZE = va' / PGSIZE := by
  obtain ⟨t₁, t₀, hv₂, rfl, hl₁, hv₁, rfl, hl₀, rfl⟩ := hT.pathSlot_eq_some h
  obtain ⟨t₁', t₀', hv₂', rfl, hl₁', hv₁', rfl, hl₀', heq⟩ := hT.pathSlot_eq_some h'
  -- the level-0 pages and indices agree, so the level-1 PTEs are one PTE
  obtain ⟨h₀, hx₀⟩ := slot_eq (hT.aligned _ _ hl₀) (hT.aligned _ _ hl₀') (PX_lt 0 va) (PX_lt 0 va') heq
  have h₁ := hT.inj _ _ 0 0 _ _ hl₁ hl₁' (PX_lt 1 va) (PX_lt 1 va') hv₁ hv₁' h₀
  obtain ⟨ht₁, hx₁⟩ := slot_eq (hT.aligned _ _ hl₁) (hT.aligned _ _ hl₁') (PX_lt 1 va) (PX_lt 1 va') h₁
  -- and so are the root PTEs
  have h₂ := hT.inj _ _ 1 1 _ _ hT.root hT.root (PX_lt 2 va) (PX_lt 2 va') hv₂ hv₂' ht₁
  have hx₂ : PX 2 va = PX 2 va' := by omega
  exact page_of_PX hva hva' hx₂ hx₁ hx₀

end Tree

/-! ## `walk` with allocation -/

/-- The PTEs above level `0` that a walk without allocation reads on the path
of `va` from page `q` at level `l`. -/
def ptesFrom (va : Nat) : Nat → Nat → Phys → List Nat
  | 0, _, _ => []
  | l + 1, q, m =>
    let pte := q + 8 * PX (l + 1) va
    pte :: if m.word pte &&& PTE_V ≠ 0 then ptesFrom va l (PTE2PA (m.word pte)) m else []

/-- The page-table pages missing on the path of `va` from page `q` at level
`l`: below the first invalid PTE, every level needs a new page. -/
def missingFrom (va : Nat) : Nat → Nat → Phys → Nat
  | 0, _, _ => 0
  | l + 1, q, m =>
    let pte := q + 8 * PX (l + 1) va
    if m.word pte &&& PTE_V ≠ 0 then missingFrom va l (PTE2PA (m.word pte)) m else l + 1

section Alloc

variable {m m' : Phys} {pt va a : Nat} {lvl : Nat → Option Nat}

theorem kalloc_eq_none (h : kalloc m = none) : m.free = [] := by
  unfold kalloc at h
  split at h
  · assumption
  · cases h

theorem fill8_zero : fill8 0 = 0 := by decide

theorem walkFrom_true_none : ∀ {l q : Nat} {m : Phys}, (walkFrom va true l q m).1 = none →
    (walkFrom va true l q m).2.free = []
  | 0, _, _, h => by cases h
  | l + 1, q, m, h => by
    by_cases hv : m.word (q + 8 * PX (l + 1) va) &&& PTE_V = 0
    · rw [walkFrom_true_succ_of_invalid hv] at h ⊢
      cases hk : kalloc m with
      | none => exact kalloc_eq_none hk
      | some p =>
        rw [hk] at h
        exact walkFrom_true_none h
    · rw [walkFrom_succ_of_valid hv] at h ⊢
      exact walkFrom_true_none h

/-- What linking a fresh page-table page under an invalid PTE does: the
page is zero, the PTE points to it, and nothing else changes. -/
theorem Tables.link_words (ht : Tables m pt lvl) (hf : FreeOk m) {q l r : Nat} {m₁ : Phys}
    (hq : lvl q = some (l + 1)) (hk : kalloc m = some (r, m₁)) (va : Nat) :
    let pte := q + 8 * PX (l + 1) va
    let m₂ := (m₁.memset r 0 PGSIZE).setWord pte (PA2PTE r ||| PTE_V)
    (∀ x, r ≤ x → x < r + PGSIZE → m₂.word x = 0) ∧
      (∀ x, m₂.word x ≠ m.word x → (r ≤ x ∧ x < r + PGSIZE) ∨ x = pte) ∧
      m₂.word pte = PA2PTE r ||| PTE_V ∧ PTE2PA (m₂.word pte) = r := by
  intro pte m₂
  have hr : r ∈ m.free := by rw [kalloc_memset_free hk 0]; exact List.mem_cons_self ..
  have hpr : ¬(r ≤ pte ∧ pte < r + PGSIZE) := ht.kalloc_page hf hk hq (pte_mem_page q (PX_lt _ _))
  have hpte : m₂.word pte = PA2PTE r ||| PTE_V := by simp [m₂, setWord]
  refine ⟨fun x hx hx' => ?_, fun x hne => ?_, hpte, ?_⟩
  · have hxp : x ≠ pte := fun h => hpr (h ▸ ⟨hx, hx'⟩)
    simp only [m₂, setWord, Function.update_of_ne hxp, memset, if_pos (And.intro hx hx'), fill8_zero]
  · by_cases hxp : x = pte
    · exact .inr hxp
    · refine .inl (by_contra fun hxr => hne ?_)
      simp only [m₂, setWord, Function.update_of_ne hxp]
      exact kalloc_memset_word hk 0 hxr
  · rw [hpte, PTE2PA_PA2PTE_or (hf.lt_pow hr) (hf.aligned r hr) (by decide)]

/-- Linking a fresh page keeps the tree a tree: the new PTE is the only one
pointing to the page, which was free. -/
theorem Tree.link (hT : Tree m pt lvl) (hf : FreeOk m) {q l r : Nat} {m₁ : Phys} (hq : lvl q = some (l + 1))
    (hpte : m.word (q + 8 * PX (l + 1) va) &&& PTE_V = 0) (hk : kalloc m = some (r, m₁)) :
    Tree ((m₁.memset r 0 PGSIZE).setWord (q + 8 * PX (l + 1) va) (PA2PTE r ||| PTE_V)) pt
      (Function.update lvl r (some l)) := by
  obtain ⟨hzero, hchg, -, hto⟩ := hT.toTables.link_words hf hq hk va
  have hr : r ∈ m.free := by rw [kalloc_memset_free hk 0]; exact List.mem_cons_self ..
  have ht₂ := hT.toTables.link hf hq hpte hk
  refine ⟨ht₂, fun t t' l₁ l₁' i i' hl hl' hi hi' hv hv' heq => ?_⟩
  -- a valid PTE of a page-table page after the link is the new PTE or an old one
  have hold : ∀ {t l₁ i}, Function.update lvl r (some l) t = some (l₁ + 1) → i < 512 →
      ((m₁.memset r 0 PGSIZE).setWord (q + 8 * PX (l + 1) va) (PA2PTE r ||| PTE_V)).word (t + 8 * i) &&& PTE_V ≠ 0 →
      t + 8 * i = q + 8 * PX (l + 1) va ∨
        (lvl t = some (l₁ + 1) ∧ m.word (t + 8 * i) &&& PTE_V ≠ 0 ∧
          ((m₁.memset r 0 PGSIZE).setWord (q + 8 * PX (l + 1) va) (PA2PTE r ||| PTE_V)).word (t + 8 * i) =
            m.word (t + 8 * i)) := by
    intro t l₁ i hl hi hv
    by_cases htr : t = r
    · -- the new page holds no valid PTE
      subst htr
      rw [hzero _ (pte_mem_page t hi).1 (pte_mem_page t hi).2] at hv
      exact absurd (by decide) hv
    rw [Function.update_of_ne htr] at hl
    by_cases hx : t + 8 * i = q + 8 * PX (l + 1) va
    · exact .inl hx
    · have hsame : ((m₁.memset r 0 PGSIZE).setWord (q + 8 * PX (l + 1) va) (PA2PTE r ||| PTE_V)).word (t + 8 * i) =
          m.word (t + 8 * i) := by
        by_contra hne
        rcases hchg _ hne with hon | heq'
        · exact hT.toTables.kalloc_page hf hk hl (pte_mem_page t hi) hon
        · exact hx heq'
      exact .inr ⟨hl, hsame ▸ hv, hsame⟩
  -- an old PTE points to a page-table page, never to the free page `r`
  have hnot : ∀ {t l₁ i}, lvl t = some (l₁ + 1) → i < 512 → m.word (t + 8 * i) &&& PTE_V ≠ 0 →
      PTE2PA (m.word (t + 8 * i)) ≠ r := fun hl hi hv h => by
    have := hT.down _ _ _ hl hi hv
    rw [h, hT.lvl_free hr] at this
    cases this
  rcases hold hl hi hv with hx | ⟨hlo, hvo, hso⟩ <;> rcases hold hl' hi' hv' with hx' | ⟨hlo', hvo', hso'⟩
  · rw [hx, hx']
  · rw [hx, hto, hso'] at heq
    exact absurd heq.symm (hnot hlo' hi' hvo')
  · rw [hx', hto, hso] at heq
    exact absurd heq (hnot hlo hi hvo)
  · rw [hso, hso'] at heq
    exact hT.inj t t' l₁ l₁' i i' hlo hlo' hi hi' hvo hvo' heq

end Alloc

/-! ## Translations -/

/-- The valid PTE in slot `s`: what the MMU translates through. -/
def slotPte (m : Phys) : Option Nat → Option UInt64
  | some s => if m.word s &&& PTE_V ≠ 0 then some (m.word s) else none
  | none => none

/-- The page map that the page tables under `pt` stand for: virtual page `n`
maps through its valid level-0 PTE, if it has one. -/
def pageMap (m : Phys) (pt n : Nat) : Option UInt64 := slotPte m (pathSlot m pt (n * PGSIZE))

theorem pageMap_div (m : Phys) (pt va : Nat) :
    pageMap m pt (va / PGSIZE) = slotPte m (pathSlot m pt va) := by
  rw [pageMap, pathSlot_page (Nat.mul_div_cancel _ (by decide) : va / PGSIZE * PGSIZE / PGSIZE = va / PGSIZE)]

/-- The footprint of `walk` with allocation on a tree: it stays a tree, the
old page-table pages keep their levels, a new one was free, and a walk from an
old page-table page translates as before. -/
structure Linked (m m' : Phys) (pt : Nat) (lvl lvl' : Nat → Option Nat) : Prop where
  tree : Tree m' pt lvl'
  freeOk : FreeOk m'
  grows : Grows m m'
  lvl_le : ∀ t l, lvl t = some l → lvl' t = some l
  slotPte_eq : ∀ va l t, lvl t = some l →
    slotPte m' (walkFrom va false l t m').1 = slotPte m (walkFrom va false l t m).1
  lvl_new : ∀ t l, lvl' t = some l → lvl t = some l ∨ t ∈ m.free

section Linked

variable {m m' m'' : Phys} {pt va a : Nat} {lvl lvl' lvl'' : Nat → Option Nat}

theorem Linked.refl (hT : Tree m pt lvl) (hf : FreeOk m) : Linked m m pt lvl lvl :=
  ⟨hT, hf, Grows.refl m, fun _ _ h => h, fun _ _ _ _ => rfl, fun _ _ h => .inl h⟩

theorem Linked.trans (h : Linked m m' pt lvl lvl') (h' : Linked m' m'' pt lvl' lvl'') :
    Linked m m'' pt lvl lvl'' where
  tree := h'.tree
  freeOk := h'.freeOk
  grows := h.grows.trans h'.grows
  lvl_le t l hl := h'.lvl_le t l (h.lvl_le t l hl)
  slotPte_eq va l t hl := by rw [h'.slotPte_eq va l t (h.lvl_le t l hl), h.slotPte_eq va l t hl]
  lvl_new t l hl := (h'.lvl_new t l hl).elim (h.lvl_new t l) fun hm => .inr (h.grows.mem_free hm)

theorem Linked.pageMap_eq (h : Linked m m' pt lvl lvl') (hroot : lvl pt = some 2) (n : Nat) :
    pageMap m' pt n = pageMap m pt n := by
  have h₂ := h.slotPte_eq (n * PGSIZE) 2 pt hroot
  rwa [walkFrom_false_two, walkFrom_false_two] at h₂

theorem slotPte_zero_page {r : Nat} (hz : ∀ x, r ≤ x → x < r + PGSIZE → m.word x = 0) :
    ∀ l, slotPte m (walkFrom va false l r m).1 = none
  | 0 => by
    have hx := pte_mem_page r (PX_lt 0 va)
    simp [walkFrom_zero, slotPte, hz _ hx.1 hx.2]
  | l + 1 => by
    have hx := pte_mem_page r (PX_lt (l + 1) va)
    have hv : m.word (r + 8 * PX (l + 1) va) &&& PTE_V = 0 := by rw [hz _ hx.1 hx.2]; decide
    rw [walkFrom_false_succ_of_invalid hv]
    rfl

theorem missingFrom_zero_page {r : Nat} (hz : ∀ x, r ≤ x → x < r + PGSIZE → m.word x = 0) :
    ∀ l, missingFrom va l r m = l
  | 0 => rfl
  | l + 1 => by
    have hx := pte_mem_page r (PX_lt (l + 1) va)
    simp [missingFrom, hz _ hx.1 hx.2]

/-- A link changes no translation: a walk that reaches the linked PTE found
it invalid before and finds a zeroed page now, and every other word it reads
is kept. -/
theorem Tables.slotPte_link (ht : Tables m pt lvl) (hf : FreeOk m) {q l r : Nat} {m₁ : Phys}
    (hq : lvl q = some (l + 1)) (hpte : m.word (q + 8 * PX (l + 1) va) &&& PTE_V = 0)
    (hk : kalloc m = some (r, m₁)) (va' : Nat) :
    ∀ l' t, lvl t = some l' →
      slotPte ((m₁.memset r 0 PGSIZE).setWord (q + 8 * PX (l + 1) va) (PA2PTE r ||| PTE_V))
          (walkFrom va' false l' t ((m₁.memset r 0 PGSIZE).setWord (q + 8 * PX (l + 1) va) (PA2PTE r ||| PTE_V))).1 =
        slotPte m (walkFrom va' false l' t m).1 := by
  obtain ⟨hzero, hchg, hnew, hto⟩ := ht.link_words hf hq hk va
  -- a word of a page-table page other than the linked PTE keeps its value
  have hkeep : ∀ {t l' i}, lvl t = some l' → i < 512 → t + 8 * i ≠ q + 8 * PX (l + 1) va →
      ((m₁.memset r 0 PGSIZE).setWord (q + 8 * PX (l + 1) va) (PA2PTE r ||| PTE_V)).word (t + 8 * i) =
        m.word (t + 8 * i) := fun hl hi hx => by
    by_contra hne
    rcases hchg _ hne with hon | heq
    · exact ht.kalloc_page hf hk hl (pte_mem_page _ hi) hon
    · exact hx heq
  intro l'
  induction l' with
  | zero =>
    intro t hl
    -- the linked PTE lies on a page of level `l + 1`, not on a level-0 page
    have hx : t + 8 * PX 0 va' ≠ q + 8 * PX (l + 1) va := fun h => by
      have htq := (slot_eq (ht.aligned _ _ hl) (ht.aligned _ _ hq) (PX_lt _ _) (PX_lt _ _) h).1
      rw [htq, hq] at hl
      cases hl
    simp only [walkFrom_zero, slotPte, hkeep hl (PX_lt _ _) hx]
  | succ l' ih =>
    intro t hl
    by_cases hx : t + 8 * PX (l' + 1) va' = q + 8 * PX (l + 1) va
    · -- the walk reaches the linked PTE: invalid before, a zeroed page now
      have hold : walkFrom va' false (l' + 1) t m = (none, m) :=
        walkFrom_false_succ_of_invalid (by rw [hx]; exact hpte)
      rw [hold, walkFrom_succ_of_valid (by rw [hx, hnew]; exact or_V_valid _), hx, hto,
        slotPte_zero_page hzero]
      rfl
    · have hw := hkeep hl (PX_lt _ _) hx
      by_cases hv : m.word (t + 8 * PX (l' + 1) va') &&& PTE_V = 0
      · rw [walkFrom_false_succ_of_invalid hv, walkFrom_false_succ_of_invalid (by rw [hw]; exact hv)]
        rfl
      · rw [walkFrom_succ_of_valid hv, walkFrom_succ_of_valid (by rw [hw]; exact hv), hw]
        exact ih _ (ht.down t l' _ hl (PX_lt _ _) hv)

theorem Tree.linked_link (hT : Tree m pt lvl) (hf : FreeOk m) {q l r : Nat} {m₁ : Phys}
    (hq : lvl q = some (l + 1)) (hpte : m.word (q + 8 * PX (l + 1) va) &&& PTE_V = 0)
    (hk : kalloc m = some (r, m₁)) :
    Linked m ((m₁.memset r 0 PGSIZE).setWord (q + 8 * PX (l + 1) va) (PA2PTE r ||| PTE_V)) pt lvl
      (Function.update lvl r (some l)) := by
  have hr : r ∈ m.free := by rw [kalloc_memset_free hk 0]; exact List.mem_cons_self ..
  have hg := grows_link hk hpte (hT.kalloc_page hf hk hq (pte_mem_page q (PX_lt _ _))) (PA2PTE r ||| PTE_V)
  refine ⟨hT.link hf hq hpte hk, hf.grows hg, hg, fun t l' hl => ?_, fun va' => hT.slotPte_link hf hq hpte hk va',
    fun t l' hl => ?_⟩
  · have htr : t ≠ r := fun h => by rw [h, hT.lvl_free hr] at hl; cases hl
    rw [Function.update_of_ne htr, hl]
  · -- the one new page-table page is the page `kalloc` took
    by_cases htr : t = r
    · exact .inr (htr ▸ hr)
    · rw [Function.update_of_ne htr] at hl
      exact .inl hl

theorem ptesFrom_succ_of_valid {l q : Nat} (h : m.word (q + 8 * PX (l + 1) va) &&& PTE_V ≠ 0) :
    ptesFrom va (l + 1) q m =
      (q + 8 * PX (l + 1) va) :: ptesFrom va l (PTE2PA (m.word (q + 8 * PX (l + 1) va))) m := by
  simp only [ptesFrom, if_pos h]

theorem missingFrom_succ_of_valid {l q : Nat} (h : m.word (q + 8 * PX (l + 1) va) &&& PTE_V ≠ 0) :
    missingFrom va (l + 1) q m = missingFrom va l (PTE2PA (m.word (q + 8 * PX (l + 1) va))) m := by
  simp only [missingFrom, if_pos h]

theorem missingFrom_succ_of_invalid {l q : Nat} (h : m.word (q + 8 * PX (l + 1) va) &&& PTE_V = 0) :
    missingFrom va (l + 1) q m = l + 1 := by
  simp [missingFrom, h]

theorem missingFrom_le : ∀ (l q : Nat) (m : Phys), missingFrom va l q m ≤ l
  | 0, _, _ => le_rfl
  | l + 1, q, m => by
    by_cases hv : m.word (q + 8 * PX (l + 1) va) &&& PTE_V = 0
    · rw [missingFrom_succ_of_invalid hv]
    · rw [missingFrom_succ_of_valid hv]
      exact (missingFrom_le l _ m).trans (Nat.le_succ l)

end Linked

/-! ## The pages `walk` allocates -/

/-- `m'` took the first `n` pages of the free list of `m`: they are zero but
for the PTEs of `path`, and no other word changed. -/
structure Fresh (m m' : Phys) (n : Nat) (path : List Nat) : Prop where
  free : m'.free = m.free.drop n
  changed : ∀ x, m'.word x ≠ m.word x → x ∈ path ∨ ∃ r ∈ m.free.take n, r ≤ x ∧ x < r + PGSIZE
  zero : ∀ r ∈ m.free.take n, ∀ x, r ≤ x → x < r + PGSIZE → x ∉ path → m'.word x = 0

section Fresh

variable {m m₂ m' : Phys} {n : Nat} {path : List Nat}

theorem Fresh.refl (m : Phys) : Fresh m m 0 [] :=
  ⟨rfl, fun _ h => absurd rfl h, fun _ h => by simp at h⟩

theorem Fresh.cons (h : Fresh m m' n path) (x : Nat) : Fresh m m' n (x :: path) where
  free := h.free
  changed y hy := (h.changed y hy).imp_left (List.mem_cons_of_mem x)
  zero r hr y hy hy' hnot := h.zero r hr y hy hy' fun hp => hnot (List.mem_cons_of_mem x hp)

/-- A link in front of a walk that took `n` pages: the linked page is the
first page taken, and the linked PTE joins the path. -/
theorem Fresh.link (hf : FreeOk m) {r pte : Nat} (hfree : m.free = r :: m₂.free)
    (hz : ∀ x, r ≤ x → x < r + PGSIZE → m₂.word x = 0)
    (hchg : ∀ x, m₂.word x ≠ m.word x → (r ≤ x ∧ x < r + PGSIZE) ∨ x = pte)
    (h : Fresh m₂ m' n path) : Fresh m m' (n + 1) (pte :: path) := by
  have hnd := hf.nodup
  rw [hfree, List.nodup_cons] at hnd
  have hal : ∀ r' ∈ m.free, r' % PGSIZE = 0 := hf.aligned
  rw [hfree] at hal
  refine ⟨by rw [h.free, hfree]; rfl, fun x hx => ?_, fun r' hr' x hx hx' hnot => ?_⟩
  · rw [hfree]
    by_cases h₂ : m'.word x = m₂.word x
    · rcases hchg x (h₂ ▸ hx) with hon | rfl
      · exact .inr ⟨r, List.mem_cons_self .., hon⟩
      · exact .inl (List.mem_cons_self ..)
    · rcases h.changed x h₂ with hp | ⟨r'', hr'', hon⟩
      · exact .inl (List.mem_cons_of_mem _ hp)
      · exact .inr ⟨r'', List.mem_cons_of_mem _ hr'', hon⟩
  · have hnot' : x ∉ path := fun hp => hnot (List.mem_cons_of_mem _ hp)
    rw [hfree] at hr'
    rcases List.mem_cons.mp hr' with rfl | hr'
    · -- the linked page: the rest of the walk writes only its own pages and the path
      by_contra hne
      have h₂ : m'.word x ≠ m₂.word x := fun heq => hne (heq ▸ hz x hx hx')
      rcases h.changed x h₂ with hp | ⟨r'', hr'', hon⟩
      · exact hnot' hp
      · have hr''m : r'' ∈ m₂.free := List.mem_of_mem_take hr''
        have := page_eq (hal _ (List.mem_cons_self ..)) (hal _ (List.mem_cons_of_mem _ hr''m)) ⟨hx, hx'⟩ hon
        exact hnd.1 (this ▸ hr''m)
    · exact h.zero r' hr' x hx hx' hnot'

end Fresh

section Walk

variable {m m' : Phys} {pt va a : Nat} {lvl : Nat → Option Nat}

/-- `walk` with `alloc` set, on a tree: it takes the first `missingFrom`
pages of the free list as the missing page-table pages of the path, zeroed
and linked; no other word changes and no translation changes. -/
theorem Tree.walkFrom_alloc (hT : Tree m pt lvl) (hf : FreeOk m) {l q : Nat} (hq : lvl q = some l)
    (h : walkFrom va true l q m = (some a, m')) :
    ∃ lvl', Linked m m' pt lvl lvl' ∧ (walkFrom va false l q m').1 = some a ∧
      Fresh m m' (missingFrom va l q m) (ptesFrom va l q m') := by
  induction l generalizing q m lvl with
  | zero =>
    rw [walkFrom_zero, Prod.mk.injEq, Option.some.injEq] at h
    obtain ⟨rfl, rfl⟩ := h
    exact ⟨lvl, Linked.refl hT hf, rfl, Fresh.refl m⟩
  | succ l ih =>
    by_cases hv : m.word (q + 8 * PX (l + 1) va) &&& PTE_V = 0
    · -- a missing page-table page: `kalloc` one, zero it, link it
      rw [walkFrom_true_succ_of_invalid hv] at h
      cases hk : kalloc m with
      | none => rw [hk] at h; cases h
      | some p =>
        obtain ⟨r, m₁⟩ := p
        rw [hk] at h
        have hL := hT.linked_link hf hq hv hk
        obtain ⟨hzero, hchg, hnew, hto⟩ := hT.link_words hf hq hk va
        obtain ⟨lvl', hL', hw, hF⟩ := ih hL.tree hL.freeOk (Function.update_self ..) h
        -- the rest of the walk keeps the linked PTE, a valid PTE of a page-table page
        have hpte : m'.word (q + 8 * PX (l + 1) va) = PA2PTE r ||| PTE_V := by
          rw [hL'.grows.word_eq (hL.tree.not_onFree hL.freeOk (hL.lvl_le q _ hq) (PX_lt _ _))
            (by rw [hnew]; exact or_V_valid _), hnew]
        have hvalid : m'.word (q + 8 * PX (l + 1) va) &&& PTE_V ≠ 0 := by rw [hpte]; exact or_V_valid _
        have hpa : PTE2PA (m'.word (q + 8 * PX (l + 1) va)) = r := by rw [hpte, ← hnew, hto]
        refine ⟨lvl', hL.trans hL', by rw [walkFrom_succ_of_valid hvalid, hpa]; exact hw, ?_⟩
        rw [missingFrom_succ_of_invalid hv, ptesFrom_succ_of_valid hvalid, hpa]
        rw [missingFrom_zero_page hzero] at hF
        have hfree : m.free = r ::
            ((m₁.memset r 0 PGSIZE).setWord (q + 8 * PX (l + 1) va) (PA2PTE r ||| PTE_V)).free :=
          kalloc_memset_free hk 0
        exact Fresh.link hf hfree hzero hchg hF
    · rw [walkFrom_succ_of_valid hv] at h
      obtain ⟨lvl', hL', hw, hF⟩ := ih hT hf (hT.down q l _ hq (PX_lt _ _) hv) h
      have hpte := hL'.grows.word_eq (hT.not_onFree hf hq (PX_lt _ _)) hv
      have hv' : m'.word (q + 8 * PX (l + 1) va) &&& PTE_V ≠ 0 := by rw [hpte]; exact hv
      refine ⟨lvl', hL', by rw [walkFrom_succ_of_valid hv', hpte]; exact hw, ?_⟩
      rw [missingFrom_succ_of_valid hv, ptesFrom_succ_of_valid hv', hpte]
      exact hF.cons _

/-- `walk` with `alloc` set returns a PTE when the free list holds the
missing page-table pages of the path. -/
theorem Tables.walkFrom_alloc_some (ht : Tables m pt lvl) (hf : FreeOk m) {l q : Nat} (hq : lvl q = some l)
    (hn : missingFrom va l q m ≤ m.free.length) : ∃ a m', walkFrom va true l q m = (some a, m') := by
  induction l generalizing q m lvl with
  | zero => exact ⟨_, _, walkFrom_zero true q m⟩
  | succ l ih =>
    by_cases hv : m.word (q + 8 * PX (l + 1) va) &&& PTE_V = 0
    · rw [missingFrom_succ_of_invalid hv] at hn
      rw [walkFrom_true_succ_of_invalid hv]
      obtain ⟨r, rest, hfree⟩ : ∃ r rest, m.free = r :: rest := by
        cases hm : m.free with
        | nil => rw [hm] at hn; cases hn
        | cons r rest => exact ⟨r, rest, rfl⟩
      have hk : kalloc m = some (r, ({ m with free := rest } : Phys).memset r 5 PGSIZE) := by
        simp [kalloc, hfree]
      rw [hk]
      obtain ⟨hzero, -, -, -⟩ := ht.link_words hf hq hk va
      have hL := ht.link hf hq hv hk
      have hg := grows_link hk hv (ht.kalloc_page hf hk hq (pte_mem_page q (PX_lt _ _))) (PA2PTE r ||| PTE_V)
      refine ih hL (hf.grows hg) (Function.update_self ..) ?_
      rw [missingFrom_zero_page hzero]
      have hlen := congrArg List.length hfree
      simp only [List.length_cons] at hlen
      show l ≤ rest.length
      omega
    · rw [missingFrom_succ_of_valid hv] at hn
      rw [walkFrom_succ_of_valid hv]
      exact ih ht hf (ht.down q l _ hq (PX_lt _ _) hv) hn

end Walk

/-! ## The slot `mappages` writes -/

section Leaf

variable {m : Phys} {pt va : Nat} {lvl : Nat → Option Nat}

theorem Tables.pte_ne_leaf (ht : Tables m pt lvl) {t t' l i i' : Nat} (hl : lvl t' = some (l + 1))
    (ht0 : lvl t = some 0) (hi' : i' < 512) (hi : i < 512) : t' + 8 * i' ≠ t + 8 * i := fun h => by
  have htt := (slot_eq (ht.aligned t' _ hl) (ht.aligned t _ ht0) hi' hi h).1
  rw [htt, ht0] at hl
  cases hl

theorem Tree.setWord_leaf (hT : Tree m pt lvl) {t i : Nat} (ht0 : lvl t = some 0) (hi : i < 512)
    (v : UInt64) : Tree (m.setWord (t + 8 * i) v) pt lvl := by
  refine ⟨hT.toTables.setWord_leaf ht0 hi v, fun t₁ t₂ l₁ l₂ i₁ i₂ hl₁ hl₂ hi₁ hi₂ hv₁ hv₂ heq => ?_⟩
  have h₁ := hT.pte_ne_leaf hl₁ ht0 hi₁ hi
  have h₂ := hT.pte_ne_leaf hl₂ ht0 hi₂ hi
  simp only [setWord, Function.update_of_ne h₁, Function.update_of_ne h₂] at hv₁ hv₂ heq
  exact hT.inj _ _ _ _ _ _ hl₁ hl₂ hi₁ hi₂ hv₁ hv₂ heq

theorem Tables.walkFrom_setWord_leaf (ht : Tables m pt lvl) {t i : Nat} (ht0 : lvl t = some 0)
    (hi : i < 512) (v : UInt64) :
    ∀ {l q}, lvl q = some l → (walkFrom va false l q (m.setWord (t + 8 * i) v)).1 = (walkFrom va false l q m).1
  | 0, _, _ => rfl
  | l + 1, q, hq => by
    have hw : (m.setWord (t + 8 * i) v).word (q + 8 * PX (l + 1) va) = m.word (q + 8 * PX (l + 1) va) :=
      Function.update_of_ne (ht.pte_ne_leaf hq ht0 (PX_lt _ _) hi) _ _
    by_cases hv : m.word (q + 8 * PX (l + 1) va) &&& PTE_V = 0
    · rw [walkFrom_false_succ_of_invalid hv, walkFrom_false_succ_of_invalid (by rw [hw]; exact hv)]
    · rw [walkFrom_succ_of_valid hv, walkFrom_succ_of_valid (by rw [hw]; exact hv), hw]
      exact ht.walkFrom_setWord_leaf ht0 hi v (ht.down q l _ hq (PX_lt _ _) hv)

theorem Tables.pathSlot_setWord_leaf (ht : Tables m pt lvl) {t i : Nat} (ht0 : lvl t = some 0)
    (hi : i < 512) (v : UInt64) : pathSlot (m.setWord (t + 8 * i) v) pt va = pathSlot m pt va := by
  have h : (walkFrom va false 2 pt (m.setWord (t + 8 * i) v)).1 = (walkFrom va false 2 pt m).1 :=
    ht.walkFrom_setWord_leaf ht0 hi v ht.root
  rwa [walkFrom_false_two, walkFrom_false_two] at h

theorem Tree.pageMap_setWord_slot (hT : Tree m pt lvl) (hva : va < MAXVA) {s : Nat}
    (hs : pathSlot m pt va = some s) (v : UInt64) {n : Nat} (hn : n * PGSIZE < MAXVA) :
    pageMap (m.setWord s v) pt n =
      if n = va / PGSIZE then (if v &&& PTE_V ≠ 0 then some v else none) else pageMap m pt n := by
  obtain ⟨-, t₀, -, -, -, -, -, hl₀, rfl⟩ := hT.pathSlot_eq_some hs
  rw [pageMap, pageMap, hT.pathSlot_setWord_leaf hl₀ (PX_lt 0 va)]
  by_cases hnv : n = va / PGSIZE
  · rw [if_pos hnv, hnv, pathSlot_page (Nat.mul_div_cancel _ (by decide)), hs]
    simp [slotPte, setWord]
  · rw [if_neg hnv]
    cases hps : pathSlot m pt (n * PGSIZE) with
    | none => rfl
    | some s' =>
      -- another page has another slot in a tree
      have hne : s' ≠ t₀ + 8 * PX 0 va := fun h => by
        have := hT.page_of_slot hn hva (h ▸ hps) hs
        rw [Nat.mul_div_cancel _ (by decide)] at this
        exact hnv this
      simp only [slotPte, setWord, Function.update_of_ne hne]

end Leaf

/-! ## `mappages` -/

/-- The page map `f` with pages `first` to `first + k` mapped to the
physical pages from `pa` on with `perm`: what `mappages` is for. -/
def mapRange (f : Nat → Option UInt64) (first k pa : Nat) (perm : UInt64) (n : Nat) : Option UInt64 :=
  if first ≤ n ∧ n ≤ first + k then some (PA2PTE (pa + (n - first) * PGSIZE) ||| perm ||| PTE_V) else f n

theorem mapRange_succ (f : Nat → Option UInt64) (first k pa : Nat) (perm : UInt64) (n : Nat) :
    mapRange f first (k + 1) pa perm n =
      mapRange (mapRange f first 0 pa perm) (first + 1) k (pa + PGSIZE) perm n := by
  unfold mapRange
  by_cases h₁ : first + 1 ≤ n ∧ n ≤ first + 1 + k
  · obtain ⟨j, rfl⟩ : ∃ j, n = first + 1 + j := ⟨n - (first + 1), by omega⟩
    rw [if_pos (by omega), if_pos h₁, show first + 1 + j - first = j + 1 by omega,
      show first + 1 + j - (first + 1) = j by omega, Nat.succ_mul, ← Nat.add_assoc,
      Nat.add_right_comm pa]
  · by_cases h₀ : n = first
    · subst h₀
      rw [if_pos ⟨le_rfl, by omega⟩, if_neg h₁, if_pos ⟨le_rfl, le_rfl⟩]
    · rw [if_neg (by omega), if_neg h₁, if_neg (by omega)]

theorem mapRange_congr {f g : Nat → Option UInt64} {n : Nat} (h : f n = g n) (first k pa : Nat)
    (perm : UInt64) : mapRange f first k pa perm n = mapRange g first k pa perm n := by
  simp only [mapRange, h]

section Map

variable {m m₁ m' : Phys} {pt va a pa s : Nat} {perm : UInt64} {lvl : Nat → Option Nat}

theorem Tree.walkFrom_two_alloc (hT : Tree m pt lvl) (hf : FreeOk m)
    (h : walkFrom a true 2 pt m = (some s, m₁)) :
    ∃ lvl₁, Tree m₁ pt lvl₁ ∧ FreeOk m₁ ∧ pathSlot m₁ pt a = some s ∧
      (∃ t, lvl₁ t = some 0 ∧ s = t + 8 * PX 0 a) ∧ (∀ n, pageMap m₁ pt n = pageMap m pt n) ∧
      m.free.length ≤ m₁.free.length + 2 := by
  obtain ⟨lvl₁, hL, hw, hF⟩ := hT.walkFrom_alloc hf hT.root h
  refine ⟨lvl₁, hL.tree, hL.freeOk, by simpa [walkFrom_false_two] using hw,
    hL.tree.walkFrom_slot (hL.tree.root) hw, hL.pageMap_eq hT.root, ?_⟩
  · have : missingFrom a 2 pt m ≤ 2 := missingFrom_le 2 pt m
    rw [hF.free, List.length_drop]
    omega

theorem mapLoop_of_lt {k : Nat} (ha : a < MAXVA) :
    mapLoop pt perm a pa k m =
      match walkFrom a true 2 pt m with
      | (none, m₁) => .ok (false, m₁)
      | (some s, m₁) =>
        if m₁.word s &&& PTE_V ≠ 0 then .error "mappages: remap"
        else
          match k with
          | 0 => .ok (true, m₁.setWord s (PA2PTE pa ||| perm ||| PTE_V))
          | k + 1 => mapLoop pt perm (a + PGSIZE) (pa + PGSIZE) k (m₁.setWord s (PA2PTE pa ||| perm ||| PTE_V)) := by
  rw [mapLoop, walk, if_neg (Nat.not_le.mpr ha)]
  rcases walkFrom a true 2 pt m with ⟨_ | s, m₁⟩ <;> rfl

/-- What one pass of the `mappages` loop on a tree can do: return `-1` with
the free list empty (it held fewer than two pages), panic on a page that is
already mapped, or map an unmapped page and go on. -/
theorem Tree.mapLoop_cases (hT : Tree m pt lvl) (hf : FreeOk m) (perm : UInt64) (pa k : Nat) (ha : a < MAXVA) :
    (∃ m₁, mapLoop pt perm a pa k m = .ok (false, m₁) ∧ m₁.free = [] ∧ m.free.length < 2) ∨
    (pageMap m pt (a / PGSIZE) ≠ none ∧ mapLoop pt perm a pa k m = .error "mappages: remap") ∨
    (pageMap m pt (a / PGSIZE) = none ∧ ∃ lvl₂ m₂, Tree m₂ pt lvl₂ ∧ FreeOk m₂ ∧
      (∀ n, n * PGSIZE < MAXVA → pageMap m₂ pt n = mapRange (pageMap m pt) (a / PGSIZE) 0 pa perm n) ∧
      m.free.length ≤ m₂.free.length + 2 ∧
      mapLoop pt perm a pa k m =
        match k with
        | 0 => .ok (true, m₂)
        | k + 1 => mapLoop pt perm (a + PGSIZE) (pa + PGSIZE) k m₂) := by
  rw [mapLoop_of_lt ha]
  rcases hw : walkFrom a true 2 pt m with ⟨_ | s, m₁⟩
  · -- `walk` failed: `kalloc` found the free list empty
    have hnone : (walkFrom a true 2 pt m).2.free = [] := walkFrom_true_none (by rw [hw])
    refine .inl ⟨m₁, rfl, by simpa [hw] using hnone, ?_⟩
    by_contra hlen
    have hmiss : missingFrom a 2 pt m ≤ 2 := missingFrom_le 2 pt m
    obtain ⟨s, m', h'⟩ : ∃ s m', walkFrom a true 2 pt m = (some s, m') :=
      hT.walkFrom_alloc_some hf hT.root (by omega)
    rw [h'] at hw
    cases hw
  · obtain ⟨lvl₁, hT₁, hf₁, hs, ⟨t, ht0, rfl⟩, hmap, hlen⟩ := hT.walkFrom_two_alloc hf hw
    have hpm : pageMap m pt (a / PGSIZE) = slotPte m₁ (some (t + 8 * PX 0 a)) := by
      rw [← hmap, pageMap_div, hs]
    by_cases hv : m₁.word (t + 8 * PX 0 a) &&& PTE_V = 0
    · refine .inr (.inr ⟨by simp [hpm, slotPte, hv], lvl₁,
        m₁.setWord (t + 8 * PX 0 a) (PA2PTE pa ||| perm ||| PTE_V), hT₁.setWord_leaf ht0 (PX_lt 0 a) _,
        ⟨hf₁.1, hf₁.2, hf₁.3, hf₁.4⟩, fun n hn => ?_, hlen, by dsimp only; rw [if_neg (not_not.mpr hv)]⟩)
      rw [hT₁.pageMap_setWord_slot ha hs _ hn, hmap, mapRange]
      by_cases hna : n = a / PGSIZE
      · simp [hna, or_V_valid]
      · rw [if_neg hna, if_neg (by omega)]
    · exact .inr (.inl ⟨by simp [hpm, slotPte, hv], by simp [hv]⟩)

theorem succ_page (a : Nat) : (a + PGSIZE) / PGSIZE = a / PGSIZE + 1 :=
  Nat.add_div_right a (by decide)

/-- The loop panics only on a page of its range that was already mapped. -/
theorem Tree.mapLoop_remap (hT : Tree m pt lvl) (hf : FreeOk m) {k : Nat} {e : String}
    (ha : a % PGSIZE = 0) (hk : a + k * PGSIZE < MAXVA) (h : mapLoop pt perm a pa k m = .error e) :
    e = "mappages: remap" ∧ ∃ j ≤ k, pageMap m pt (a / PGSIZE + j) ≠ none := by
  induction k generalizing a pa m lvl with
  | zero =>
    rcases hT.mapLoop_cases hf (a := a) perm pa 0 (by omega)
      with ⟨m₁, h', -⟩ | ⟨hne, h'⟩ | ⟨-, lvl₂, m₂, -, -, -, -, h'⟩ <;> rw [h'] at h <;> cases h
    exact ⟨rfl, 0, le_rfl, hne⟩
  | succ k ih =>
    rcases hT.mapLoop_cases hf (a := a) perm pa (k + 1) (by rw [Nat.succ_mul] at hk; omega)
      with ⟨m₁, h', -⟩ | ⟨hne, h'⟩ | ⟨-, lvl₂, m₂, hT₂, hf₂, hmap, -, h'⟩ <;> rw [h'] at h
    · cases h
    · cases h
      exact ⟨rfl, 0, Nat.zero_le _, hne⟩
    · -- the panic came from a later page, which the first pass left alone
      have ha' : (a + PGSIZE) % PGSIZE = 0 := by simpa using ha
      obtain ⟨he, j, hj, hne⟩ := ih hT₂ hf₂ ha' (by rw [Nat.succ_mul] at hk; omega) h
      have hn : (a / PGSIZE + (j + 1)) * PGSIZE < MAXVA := by
        rw [Nat.add_mul, Nat.div_mul_cancel (Nat.dvd_of_mod_eq_zero ha)]
        have := Nat.mul_le_mul_right PGSIZE hj
        rw [Nat.succ_mul] at hk ⊢
        omega
      rw [succ_page a, Nat.add_assoc, Nat.add_comm 1 j, hmap _ hn, mapRange, if_neg (by omega)] at hne
      exact ⟨he, j + 1, by omega, hne⟩

/-- A loop that returns `0` found every page of its range unmapped and maps
them, one physical page after the other, keeping the tree. -/
theorem Tree.mapLoop_true (hT : Tree m pt lvl) (hf : FreeOk m) {k : Nat} (ha : a % PGSIZE = 0)
    (hk : a + k * PGSIZE < MAXVA) (h : mapLoop pt perm a pa k m = .ok (true, m')) :
    (∀ j ≤ k, pageMap m pt (a / PGSIZE + j) = none) ∧ ∃ lvl', Tree m' pt lvl' ∧ FreeOk m' ∧
      ∀ n, n * PGSIZE < MAXVA → pageMap m' pt n = mapRange (pageMap m pt) (a / PGSIZE) k pa perm n := by
  induction k generalizing a pa m lvl with
  | zero =>
    rcases hT.mapLoop_cases hf (a := a) perm pa 0 (by omega)
      with ⟨m₁, h', -⟩ | ⟨-, h'⟩ | ⟨hnone, lvl₂, m₂, hT₂, hf₂, hmap, -, h'⟩ <;> rw [h'] at h
    · cases h
    · cases h
    · cases h
      exact ⟨fun j hj => by rw [Nat.le_zero.mp hj]; exact hnone, lvl₂, hT₂, hf₂, hmap⟩
  | succ k ih =>
    rcases hT.mapLoop_cases hf (a := a) perm pa (k + 1) (by rw [Nat.succ_mul] at hk; omega)
      with ⟨m₁, h', -⟩ | ⟨-, h'⟩ | ⟨hnone, lvl₂, m₂, hT₂, hf₂, hmap, -, h'⟩ <;> rw [h'] at h
    · cases h
    · cases h
    · have ha' : (a + PGSIZE) % PGSIZE = 0 := by simpa using ha
      obtain ⟨hall, lvl', hT', hf', hmap'⟩ := ih hT₂ hf₂ ha' (by rw [Nat.succ_mul] at hk; omega) h
      rw [succ_page a] at hall hmap'
      -- the pages after the first are those the first pass left alone
      have hrest : ∀ j ≤ k, pageMap m₂ pt (a / PGSIZE + (j + 1)) = pageMap m pt (a / PGSIZE + (j + 1)) := by
        intro j hj
        have hn : (a / PGSIZE + (j + 1)) * PGSIZE < MAXVA := by
          rw [Nat.add_mul, Nat.div_mul_cancel (Nat.dvd_of_mod_eq_zero ha)]
          have := Nat.mul_le_mul_right PGSIZE hj
          rw [Nat.succ_mul] at hk ⊢
          omega
        rw [hmap _ hn, mapRange, if_neg (by omega)]
      refine ⟨fun j hj => ?_, lvl', hT', hf', fun n hn => ?_⟩
      · rcases j with _ | j
        · exact hnone
        · rw [← hrest j (by omega), Nat.add_comm j 1, ← Nat.add_assoc]
          exact hall j (by omega)
      · rw [hmap' n hn, mapRange_succ, mapRange_congr (hmap n hn)]

theorem Tree.mapLoop_false (hT : Tree m pt lvl) (hf : FreeOk m) {k : Nat} (ha : a % PGSIZE = 0)
    (hk : a + k * PGSIZE < MAXVA) (h : mapLoop pt perm a pa k m = .ok (false, m')) :
    m'.free = [] ∧ m.free.length < 2 * (k + 1) := by
  induction k generalizing a pa m lvl with
  | zero =>
    rcases hT.mapLoop_cases hf (a := a) perm pa 0 (by omega)
      with ⟨m₁, h', hfree, hlen⟩ | ⟨-, h'⟩ | ⟨-, lvl₂, m₂, -, -, -, -, h'⟩ <;> rw [h'] at h <;> cases h
    exact ⟨hfree, by omega⟩
  | succ k ih =>
    rcases hT.mapLoop_cases hf (a := a) perm pa (k + 1) (by rw [Nat.succ_mul] at hk; omega)
      with ⟨m₁, h', hfree, hlen⟩ | ⟨-, h'⟩ | ⟨-, lvl₂, m₂, hT₂, hf₂, -, hlen, h'⟩ <;> rw [h'] at h
    · cases h
      exact ⟨hfree, by omega⟩
    · cases h
    · have ha' : (a + PGSIZE) % PGSIZE = 0 := by simpa using ha
      obtain ⟨hfree, hlen'⟩ := ih hT₂ hf₂ ha' (by rw [Nat.succ_mul] at hk; omega) h
      exact ⟨hfree, by omega⟩

theorem mappages_eq {size : Nat} (hsize : 0 < size) :
    mappages m pt va size pa perm =
      mapLoop pt perm (va / PGSIZE * PGSIZE) pa ((va + size - 1) / PGSIZE - va / PGSIZE) m := by
  rw [mappages, if_neg hsize.ne']
  dsimp only
  rw [PGROUNDDOWN, PGROUNDDOWN, ← Nat.sub_mul, Nat.mul_div_cancel _ (by decide)]

theorem last_page {size : Nat} (hsize : 0 < size) :
    va / PGSIZE * PGSIZE + ((va + size - 1) / PGSIZE - va / PGSIZE) * PGSIZE = PGROUNDDOWN (va + size - 1) := by
  have hle : va / PGSIZE ≤ (va + size - 1) / PGSIZE := Nat.div_le_div_right (by omega)
  rw [PGROUNDDOWN, ← Nat.add_mul, Nat.add_sub_cancel' hle]

theorem Tree.mappages_error (hT : Tree m pt lvl) (hf : FreeOk m) {size : Nat} {e : String} (hsize : 0 < size)
    (hlast : PGROUNDDOWN (va + size - 1) < MAXVA) (h : mappages m pt va size pa perm = .error e) :
    e = "mappages: remap" ∧ ∃ n, va / PGSIZE ≤ n ∧ n ≤ (va + size - 1) / PGSIZE ∧ pageMap m pt n ≠ none := by
  rw [mappages_eq hsize] at h
  obtain ⟨he, j, hj, hne⟩ :=
    hT.mapLoop_remap hf (Nat.mul_mod_left _ _) (by rw [last_page hsize]; exact hlast) h
  rw [Nat.mul_div_cancel _ (by decide)] at hne
  have hle : va / PGSIZE ≤ (va + size - 1) / PGSIZE := Nat.div_le_div_right (by omega)
  exact ⟨he, _, Nat.le_add_right _ _, by omega, hne⟩

theorem Tree.mappages_false (hT : Tree m pt lvl) (hf : FreeOk m) {size : Nat} (hsize : 0 < size)
    (hlast : PGROUNDDOWN (va + size - 1) < MAXVA) (h : mappages m pt va size pa perm = .ok (false, m')) :
    m'.free = [] ∧ m.free.length < 2 * ((va + size - 1) / PGSIZE - va / PGSIZE + 1) := by
  rw [mappages_eq hsize] at h
  exact hT.mapLoop_false hf (Nat.mul_mod_left _ _) (by rw [last_page hsize]; exact hlast) h

theorem Tree.mappages_true (hT : Tree m pt lvl) (hf : FreeOk m) {size : Nat} (hsize : 0 < size)
    (hlast : PGROUNDDOWN (va + size - 1) < MAXVA) (h : mappages m pt va size pa perm = .ok (true, m')) :
    (∀ n, va / PGSIZE ≤ n → n ≤ (va + size - 1) / PGSIZE → pageMap m pt n = none) ∧
      ∃ lvl', Tree m' pt lvl' ∧ FreeOk m' ∧ ∀ n, n * PGSIZE < MAXVA →
        pageMap m' pt n = mapRange (pageMap m pt) (va / PGSIZE) ((va + size - 1) / PGSIZE - va / PGSIZE) pa perm n := by
  rw [mappages_eq hsize] at h
  obtain ⟨hall, lvl', hT', hf', hmap⟩ :=
    hT.mapLoop_true hf (Nat.mul_mod_left _ _) (by rw [last_page hsize]; exact hlast) h
  rw [Nat.mul_div_cancel _ (by decide)] at hall hmap
  refine ⟨fun n hn hn' => ?_, lvl', hT', hf', hmap⟩
  have := hall (n - va / PGSIZE) (by omega)
  rwa [Nat.add_sub_cancel' hn] at this

end Map

/-! ## `walkaddr` -/

theorem walkaddr_eq (m : Phys) (pt va : Nat) :
    walkaddr m pt va =
      if va < MAXVA then
        match pathSlot m pt va with
        | some a => if m.word a &&& PTE_V ≠ 0 ∧ m.word a &&& PTE_U ≠ 0 then PTE2PA (m.word a) else 0
        | none => 0
      else 0 := by
  by_cases hva : va < MAXVA
  · rw [if_pos hva, walkaddr, if_neg (Nat.not_le.mpr hva), walk_false_eq hva]
    cases pathSlot m pt va with
    | none => rfl
    | some a =>
      dsimp only
      by_cases hV : m.word a &&& PTE_V = 0
      · simp [hV]
      · by_cases hU : m.word a &&& PTE_U = 0 <;> simp [hV, hU]
  · rw [if_neg hva, walkaddr, if_pos (Nat.le_of_not_lt hva)]

/-! ## The page-map laws -/

/-- What `walk`, `walkaddr` and `mappages` do to the page tables under `pt`. -/
structure PageMapLaw (m : Phys) (pt : Nat) : Prop where
  /-- `walk` without allocation returns the slot that the three indices select. -/
  walk_slot : ∀ va, va < MAXVA → walk m pt va false = .ok (pathSlot m pt va, m)
  /-- Two addresses share a slot iff they lie in one page. -/
  slot_iff : ∀ va va' s, va < MAXVA → va' < MAXVA → pathSlot m pt va = some s →
    (pathSlot m pt va' = some s ↔ va / PGSIZE = va' / PGSIZE)
  /-- `walk` with allocation returns `0` only when `kalloc` failed. -/
  walk_none : ∀ va m', va < MAXVA → walk m pt va true = .ok (none, m') → m'.free = []
  /-- Otherwise it returns the slot of its address, having taken the missing
  page-table pages of the path from the free list, zeroed and linked them, and
  changed no other word and no translation. -/
  walk_some : ∀ va s m', va < MAXVA → walk m pt va true = .ok (some s, m') →
    pathSlot m' pt va = some s ∧ Fresh m m' (missingFrom va 2 pt m) (ptesFrom va 2 pt m') ∧
      (∃ lvl', Tree m' pt lvl') ∧ FreeOk m' ∧ ∀ n, pageMap m' pt n = pageMap m pt n
  /-- It succeeds whenever the free list holds the missing pages. -/
  walk_enough : ∀ va, va < MAXVA → missingFrom va 2 pt m ≤ m.free.length →
    ∃ s m', walk m pt va true = .ok (some s, m')
  /-- `walkaddr` reads the slot: the page of a valid user PTE, `0` otherwise. -/
  walkaddr : ∀ va, walkaddr m pt va =
    if va < MAXVA then
      match pathSlot m pt va with
      | some a => if m.word a &&& PTE_V ≠ 0 ∧ m.word a &&& PTE_U ≠ 0 then PTE2PA (m.word a) else 0
      | none => 0
    else 0
  /-- `mappages` panics only on remapping a page of its range. -/
  mappages_error : ∀ va size pa perm e, 0 < size → PGROUNDDOWN (va + size - 1) < MAXVA →
    mappages m pt va size pa perm = .error e →
    e = "mappages: remap" ∧ ∃ n, va / PGSIZE ≤ n ∧ n ≤ (va + size - 1) / PGSIZE ∧ pageMap m pt n ≠ none
  /-- It returns `-1` only when it emptied a free list shorter than two pages
  a page of the range. -/
  mappages_false : ∀ va size pa perm m', 0 < size → PGROUNDDOWN (va + size - 1) < MAXVA →
    mappages m pt va size pa perm = .ok (false, m') →
    m'.free = [] ∧ m.free.length < 2 * ((va + size - 1) / PGSIZE - va / PGSIZE + 1)
  /-- It returns `0` only when every page of the range was unmapped, and then
  maps exactly those pages to the physical pages from `pa` on. -/
  mappages_true : ∀ va size pa perm m', 0 < size → PGROUNDDOWN (va + size - 1) < MAXVA →
    mappages m pt va size pa perm = .ok (true, m') →
    (∀ n, va / PGSIZE ≤ n → n ≤ (va + size - 1) / PGSIZE → pageMap m pt n = none) ∧
      (∃ lvl', Tree m' pt lvl') ∧ FreeOk m' ∧ ∀ n, n * PGSIZE < MAXVA →
        pageMap m' pt n = mapRange (pageMap m pt) (va / PGSIZE) ((va + size - 1) / PGSIZE - va / PGSIZE) pa perm n
  /-- With two free pages a page of the range, it reaches its remap panic iff
  a page of the range is already mapped, and maps the range otherwise. -/
  mappages_remap_iff : ∀ va size pa perm, 0 < size → PGROUNDDOWN (va + size - 1) < MAXVA →
    2 * ((va + size - 1) / PGSIZE - va / PGSIZE + 1) ≤ m.free.length →
    (mappages m pt va size pa perm = .error "mappages: remap" ↔
      ∃ n, va / PGSIZE ≤ n ∧ n ≤ (va + size - 1) / PGSIZE ∧ pageMap m pt n ≠ none) ∧
    ((∀ n, va / PGSIZE ≤ n → n ≤ (va + size - 1) / PGSIZE → pageMap m pt n = none) →
      ∃ m', mappages m pt va size pa perm = .ok (true, m'))

section Law

variable {m : Phys} {pt : Nat} {lvl : Nat → Option Nat}

theorem walk_true_eq {va : Nat} {r : Option Nat} {m' : Phys} (hva : va < MAXVA)
    (h : walk m pt va true = .ok (r, m')) : walkFrom va true 2 pt m = (r, m') := by
  rw [walk, if_neg (Nat.not_le.mpr hva)] at h
  exact Except.ok.inj h

theorem page_map_law (hT : Tree m pt lvl) (hf : FreeOk m) : PageMapLaw m pt where
  walk_slot _ hva := walk_false_eq hva
  slot_iff va va' s hva hva' hs :=
    ⟨fun h' => hT.page_of_slot hva hva' hs h', fun hp => by rw [← pathSlot_page hp]; exact hs⟩
  walk_none va m' hva h := by
    have h₂ : (walkFrom va true 2 pt m).2.free = [] := walkFrom_true_none (by rw [walk_true_eq hva h])
    rwa [walk_true_eq hva h] at h₂
  walk_some va s m' hva h := by
    obtain ⟨lvl', hL, hw, hF⟩ := hT.walkFrom_alloc hf hT.root (walk_true_eq hva h)
    rw [walkFrom_false_two] at hw
    exact ⟨hw, hF, ⟨lvl', hL.tree⟩, hL.freeOk, hL.pageMap_eq hT.root⟩
  walk_enough va hva hn := by
    obtain ⟨s, m', h⟩ := hT.walkFrom_alloc_some hf hT.root hn
    exact ⟨s, m', by rw [walk, if_neg (Nat.not_le.mpr hva), h]⟩
  walkaddr va := walkaddr_eq m pt va
  mappages_error _ _ _ _ _ hsize hlast h := hT.mappages_error hf hsize hlast h
  mappages_false _ _ _ _ _ hsize hlast h := hT.mappages_false hf hsize hlast h
  mappages_true _ _ _ _ _ hsize hlast h := by
    obtain ⟨hall, lvl', hT', hf', hmap⟩ := hT.mappages_true hf hsize hlast h
    exact ⟨hall, ⟨lvl', hT'⟩, hf', hmap⟩
  mappages_remap_iff va size pa perm hsize hlast hlen := by
    -- the loop has three outcomes; enough free pages rule out `-1`
    have hnf : ∀ m', mappages m pt va size pa perm ≠ .ok (false, m') := fun m' h => by
      have := (hT.mappages_false hf hsize hlast h).2
      omega
    refine ⟨⟨fun h => (hT.mappages_error hf hsize hlast h).2, fun hex => ?_⟩, fun hall => ?_⟩
    · obtain ⟨n, hn, hn', hne⟩ := hex
      rcases hr : mappages m pt va size pa perm with e | ⟨_ | _, m'⟩
      · rw [(hT.mappages_error hf hsize hlast hr).1]
      · exact absurd hr (hnf m')
      · exact absurd ((hT.mappages_true hf hsize hlast hr).1 n hn hn') hne
    · rcases hr : mappages m pt va size pa perm with e | ⟨_ | _, m'⟩
      · obtain ⟨-, n, hn, hn', hne⟩ := hT.mappages_error hf hsize hlast hr
        exact absurd (hall n hn hn') hne
      · exact absurd hr (hnf m')
      · exact ⟨m', rfl⟩

/-! A tree of three page-table pages with one user page mapped, at virtual
page `512`, and an empty free list: `mappages` of pages `511` and `512` needs
a new level-0 page for page `511`, finds no free page and returns `-1`
without reaching page `512`, which is mapped. -/

/-- Root `4096`; its PTE `0` points to the level-1 page `8192`, whose PTE
`1` points to the level-0 page `12288`, whose PTE `0` maps page `16384`. -/
def oomPhys : Phys where
  word x :=
    if x = 4096 then PA2PTE 8192 ||| PTE_V
    else if x = 8200 then PA2PTE 12288 ||| PTE_V
    else if x = 12288 then PA2PTE 16384 ||| PTE_R ||| PTE_W ||| PTE_U ||| PTE_V
    else 0
  byte _ := 0
  free := []
  kend := 0

def oomLvl (t : Nat) : Option Nat :=
  if t = 4096 then some 2 else if t = 8192 then some 1 else if t = 12288 then some 0 else none

theorem oomLvl_succ {t l : Nat} (h : oomLvl t = some (l + 1)) : (t = 4096 ∧ l = 1) ∨ (t = 8192 ∧ l = 0) := by
  unfold oomLvl at h
  split_ifs at h with h₁ h₂ <;> simp_all

theorem oomPhys_valid {x : Nat} (h : oomPhys.word x &&& PTE_V ≠ 0) : x = 4096 ∨ x = 8200 ∨ x = 12288 := by
  simp only [oomPhys] at h
  split_ifs at h with h₁ h₂ h₃
  · exact .inl h₁
  · exact .inr (.inl h₂)
  · exact .inr (.inr h₃)
  · exact absurd h (by decide)

theorem oom_link {t l i : Nat} (hl : oomLvl t = some (l + 1)) (hi : i < 512)
    (hv : oomPhys.word (t + 8 * i) &&& PTE_V ≠ 0) :
    (t + 8 * i = 4096 ∧ l = 1) ∨ (t + 8 * i = 8200 ∧ l = 0) := by
  rcases oomLvl_succ hl with ⟨rfl, rfl⟩ | ⟨rfl, rfl⟩ <;> rcases oomPhys_valid hv with h | h | h <;> omega

theorem oomTree : Tree oomPhys 4096 oomLvl where
  root := rfl
  down t l i hl hi hv := by
    rcases oom_link hl hi hv with ⟨h, rfl⟩ | ⟨h, rfl⟩ <;> rw [h] <;> decide
  aligned t l hl := by
    unfold oomLvl at hl
    split_ifs at hl with h₁ h₂ h₃
    · rw [h₁]; decide
    · rw [h₂]; decide
    · rw [h₃]; decide
  off _ _ _ h := by cases h
  inj t t' l l' i i' hl hl' hi hi' hv hv' heq := by
    rcases oom_link hl hi hv with ⟨h, -⟩ | ⟨h, -⟩ <;> rcases oom_link hl' hi' hv' with ⟨h', -⟩ | ⟨h', -⟩ <;>
      rw [h, h'] at heq ⊢ <;> first | rfl | exact absurd heq (by decide)

theorem oomFreeOk : FreeOk oomPhys := ⟨List.nodup_nil, nofun, nofun, nofun⟩

/-- `mappages` may return `-1` although a page of its range is mapped: the
walk of an earlier page ran out of free pages first. -/
theorem mappages_oom_skips_remap :
    Tree oomPhys 4096 oomLvl ∧ FreeOk oomPhys ∧ pageMap oomPhys 4096 512 ≠ none ∧
      mappages oomPhys 4096 (2 ^ 21 - 4096) 8192 20480 PTE_W = .ok (false, oomPhys) :=
  ⟨oomTree, oomFreeOk, by decide, rfl⟩

theorem Tree.withFree (hT : Tree m pt lvl) {fs : List Nat} (hoff : ∀ t l, lvl t = some l → t ∉ fs) :
    Tree { m with free := fs } pt lvl :=
  ⟨⟨hT.root, hT.down, hT.aligned, hoff⟩, hT.inj⟩

/-- The tree of `oomPhys` with two free pages, enough for any one walk. -/
def twoFreePhys : Phys := { oomPhys with free := [20480, 24576] }

theorem page_map_law_twoFree :
    Tree twoFreePhys 4096 oomLvl ∧ FreeOk twoFreePhys ∧ PageMapLaw twoFreePhys 4096 := by
  have hT : Tree twoFreePhys 4096 oomLvl := oomTree.withFree fun t l hl => by
    unfold oomLvl at hl
    split_ifs at hl with h₁ h₂ h₃
    · rw [h₁]; decide
    · rw [h₂]; decide
    · rw [h₃]; decide
  have hf : FreeOk twoFreePhys := ⟨by decide, by decide, by decide, by decide⟩
  exact ⟨hT, hf, page_map_law hT hf⟩

end Law

end Xv6
