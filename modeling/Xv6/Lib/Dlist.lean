import Mathlib.Data.List.Nodup
import Mathlib.Data.Option.Basic
import Mathlib.Logic.Function.Iterate

/-!
# Circular doubly linked lists with a sentinel

A list threaded through `next` and `prev` pointers and closed by a sentinel
node, as C code builds it from a static header: the nodes are `Option β`,
`none` is the sentinel, and `Threaded next prev xs` says that the members `xs`
follow the sentinel in `next` order, linked both ways, and lead back to it.

`Links next prev l` is the local view: consecutive nodes of `l` are linked
both ways. An edit to the pointers keeps the links whose words it does not
touch (`Links.congr`), so each edit is proved at its seams only.

The edits are the two of a list kept in most-recently-used order:
`unlink` takes a node out (`b->next->prev = b->prev; b->prev->next =
b->next`) and `linkFront` puts one in right after the sentinel. `walk`
follows one of the two pointers from a node until it reaches the sentinel
or a member with a property; on a ring it is `List.find?` on the members,
forwards or backwards (`walk_next`, `walk_prev`).
-/

namespace Dlist

open Function

section Links

variable {α : Type*}

/-- Consecutive nodes of the list are linked both ways. -/
def Links (n p : α → α) : List α → Prop
  | x :: y :: rest => n x = y ∧ p y = x ∧ Links n p (y :: rest)
  | _ => True

@[simp] theorem links_nil (n p : α → α) : Links n p [] := trivial

@[simp] theorem links_single (n p : α → α) (x : α) : Links n p [x] := trivial

@[simp] theorem links_cons_cons {n p : α → α} {x y : α} {rest : List α} :
    Links n p (x :: y :: rest) ↔ n x = y ∧ p y = x ∧ Links n p (y :: rest) :=
  Iff.rfl

theorem links_append {n p : α → α} :
    ∀ (l₁ : List α) (x : α) (l₂ : List α),
      Links n p (l₁ ++ x :: l₂) ↔ Links n p (l₁ ++ [x]) ∧ Links n p (x :: l₂)
  | [], x, l₂ => by simp
  | [a], x, l₂ => by simp [and_assoc]
  | a :: b :: l₁, x, l₂ => by
    have ih := links_append (n := n) (p := p) (b :: l₁) x l₂
    simp only [List.cons_append, links_cons_cons] at ih ⊢
    rw [ih, and_assoc, and_assoc]

theorem Links.congr {n p n' p' : α → α} :
    ∀ {l : List α}, Links n p l → (∀ x ∈ l.dropLast, n' x = n x) → (∀ y ∈ l.tail, p' y = p y) →
      Links n' p' l
  | [], _, _, _ => trivial
  | [_], _, _, _ => trivial
  | x :: y :: rest, ⟨h1, h2, h3⟩, hn, hp => by
    refine ⟨(hn x (by simp)).trans h1, (hp y (by simp)).trans h2, h3.congr ?_ ?_⟩
    · intro a ha
      exact hn a (by rw [List.dropLast_cons_cons]; exact List.mem_cons_of_mem _ ha)
    · intro a ha
      exact hp a (List.mem_cons_of_mem _ ha)

theorem Links.of_cons {n p : α → α} {x : α} : ∀ {l : List α}, Links n p (x :: l) → Links n p l
  | [], _ => trivial
  | _ :: _, h => h.2.2

theorem Links.reverse {n p : α → α} : ∀ {l : List α}, Links n p l → Links p n l.reverse
  | [], _ => trivial
  | [_], _ => trivial
  | x :: y :: rest, ⟨h1, h2, h3⟩ => by
    have ih := h3.reverse
    rw [List.reverse_cons, List.reverse_cons, List.append_assoc]
    rw [List.reverse_cons] at ih
    rw [List.singleton_append, links_append]
    exact ⟨ih, h2, h1, trivial⟩

theorem Links.iterate_next {n p : α → α} :
    ∀ {x : α} {l : List α}, Links n p (x :: l) → ∀ i (hi : i < l.length), n^[i + 1] x = l[i]
  | _, [], _, i, hi => absurd hi (Nat.not_lt_zero i)
  | x, y :: rest, ⟨h1, _, h3⟩, i, hi => by
    cases i with
    | zero => simpa using h1
    | succ i =>
      rw [Function.iterate_succ_apply, h1]
      exact h3.iterate_next i (by simpa using hi)

theorem Links.prev_next {n p : α → α} :
    ∀ {l : List α}, Links n p l → ∀ x ∈ l.dropLast, p (n x) = x
  | [], _, _, hx => by simp at hx
  | [_], _, _, hx => by simp at hx
  | x :: y :: rest, ⟨h1, h2, h3⟩, a, ha => by
    rw [List.dropLast_cons_cons, List.mem_cons] at ha
    rcases ha with rfl | ha
    · rw [h1, h2]
    · exact h3.prev_next a ha

theorem Links.next_prev {n p : α → α} :
    ∀ {l : List α}, Links n p l → ∀ y ∈ l.tail, n (p y) = y
  | [], _, _, hy => by simp at hy
  | [_], _, _, hy => by simp at hy
  | x :: y :: rest, ⟨h1, h2, h3⟩, a, ha => by
    rw [List.tail_cons, List.mem_cons] at ha
    rcases ha with rfl | ha
    · rw [h2, h1]
    · exact h3.next_prev a ha

theorem links_link {n p n' p' : α → α} {A C : List α} {x y z : α}
    (h : Links n p (A ++ x :: z :: C)) (h1 : n' x = y) (h2 : p' y = x) (h3 : n' y = z)
    (h4 : p' z = y) (hn : ∀ a ∈ A ++ (z :: C).dropLast, n' a = n a)
    (hp : ∀ a ∈ (A ++ [x]).tail ++ C, p' a = p a) :
    Links n' p' (A ++ x :: y :: z :: C) := by
  rw [links_append] at h ⊢
  obtain ⟨hA, -, -, hC⟩ := h
  refine ⟨hA.congr ?_ ?_, h1, h2, h3, h4, hC.congr ?_ ?_⟩
  · intro a ha
    exact hn a (by simp at ha; simp [ha])
  · intro a ha
    exact hp a (by simp [ha])
  · intro a ha
    exact hn a (by simp [ha])
  · intro a ha
    exact hp a (by simp at ha ⊢; simp [ha])

section Unlink

variable [DecidableEq α]

theorem links_unlink {n p : α → α} {A C : List α} {x y z : α}
    (h : Links n p (A ++ x :: y :: z :: C))
    (hxA : x ∉ A) (hxC : x ∉ (z :: C).dropLast) (hzA : z ∉ (A ++ [x]).tail) (hzC : z ∉ C) :
    Links (update n x z) (update p z x) (A ++ x :: z :: C) := by
  rw [links_append] at h ⊢
  obtain ⟨hA, -, -, hC⟩ := h
  refine ⟨hA.congr ?_ ?_, by simp, by simp, hC.2.2.congr ?_ ?_⟩
  · intro a ha
    have : a ≠ x := by rintro rfl; simp at ha; exact hxA ha
    simp [this]
  · intro a ha
    have : a ≠ z := by rintro rfl; exact hzA ha
    simp [this]
  · intro a ha
    have : a ≠ x := by rintro rfl; exact hxC ha
    simp [this]
  · intro a ha
    have : a ≠ z := by rintro rfl; exact hzC ha
    simp [this]

end Unlink

end Links

/-! ## Rings through a sentinel -/

section Rings

variable {β : Type*}

/-- The ring through the sentinel `none` with members `xs`, in `next` order. -/
def Threaded (n p : Option β → Option β) (xs : List β) : Prop :=
  Links n p (none :: xs.map some ++ [none])

/-- Follow `link` from `x` for at most `k` nodes, up to the sentinel or the
first member with property `q`. -/
def walk (link : Option β → Option β) (q : β → Bool) : Nat → Option β → Option β
  | 0, _ => none
  | _ + 1, none => none
  | k + 1, some b => if q b then some b else walk link q k (link (some b))

theorem walk_of_links {n p : Option β → Option β} {q : β → Bool} :
    ∀ {xs : List β} {k : Nat}, Links n p (xs.map some ++ [none]) → xs.length ≤ k →
      walk n q k ((xs.map some ++ [none]).headD none) = xs.find? q
  | [], k, _, _ => by cases k <;> rfl
  | b :: xs, k + 1, h, hk => by
    have h' : Links n p (some b :: (xs.map some ++ [none])) := by simpa using h
    cases hy : xs.map some ++ [none] with
    | nil => simp at hy
    | cons y rest =>
      rw [hy] at h'
      obtain ⟨h1, -, h3⟩ := h'
      have ih : walk n q k ((xs.map some ++ [none]).headD none) = xs.find? q :=
        walk_of_links (by rw [hy]; exact h3) (by simpa using hk)
      rw [hy] at ih
      simp only [List.map_cons, List.cons_append, List.headD_cons, walk, List.find?_cons]
      cases q b
      · simpa [h1] using ih
      · rfl

theorem Threaded.reverse {n p : Option β → Option β} {xs : List β} (h : Threaded n p xs) :
    Threaded p n xs.reverse := by
  have := Links.reverse h
  unfold Threaded
  simpa [List.reverse_append, List.map_reverse] using this

theorem Threaded.walk_next {n p : Option β → Option β} {xs : List β} {k : Nat} (q : β → Bool)
    (h : Threaded n p xs) (hk : xs.length ≤ k) : walk n q k (n none) = xs.find? q := by
  have hl : Links n p (none :: (xs.map some ++ [none])) := by simpa [Threaded] using h
  have hn : n none = (xs.map some ++ [none]).headD none := by
    cases xs <;> exact hl.1
  rw [hn]
  exact walk_of_links hl.of_cons hk

theorem Threaded.walk_prev {n p : Option β → Option β} {xs : List β} {k : Nat} (q : β → Bool)
    (h : Threaded n p xs) (hk : xs.length ≤ k) : walk p q k (p none) = xs.reverse.find? q :=
  h.reverse.walk_next q (by simpa using hk)

theorem Threaded.iterate_next {n p : Option β → Option β} {xs : List β} (h : Threaded n p xs) :
    (∀ i (hi : i < xs.length), n^[i + 1] none = some xs[i]) ∧ n^[xs.length + 1] none = none := by
  have hl : Links n p (none :: (xs.map some ++ [none])) := by simpa [Threaded] using h
  refine ⟨fun i hi => ?_, ?_⟩
  · rw [hl.iterate_next i (by simp; omega), List.getElem_append_left (by simpa using hi),
      List.getElem_map]
  · rw [hl.iterate_next xs.length (by simp)]
    simp

theorem Threaded.inverse {n p : Option β → Option β} {xs : List β} (h : Threaded n p xs)
    {a : Option β} (ha : ∀ b, a = some b → b ∈ xs) : p (n a) = a ∧ n (p a) = a := by
  have hl : Links n p (none :: xs.map some ++ [none]) := h
  have hmem : a ∈ none :: xs.map some := by
    cases a with
    | none => simp
    | some b => simp [ha b rfl]
  refine ⟨hl.prev_next a (by rw [List.dropLast_concat]; exact hmem), hl.next_prev a ?_⟩
  rw [List.cons_append, List.tail_cons]
  cases a with
  | none => simp
  | some b => simp [ha b rfl]

variable [DecidableEq β]

/-- Unlink `b`: `b->next->prev = b->prev; b->prev->next = b->next`. The
second line reads `b->prev` after the first has run. -/
def unlink (n p : Option β → Option β) (b : β) : (Option β → Option β) × (Option β → Option β) :=
  let p' := update p (n (some b)) (p (some b))
  (update n (p' (some b)) (n (some b)), p')

/-- Link `b` in after the sentinel: `b->next = head.next; b->prev = &head;
head.next->prev = b; head.next = b`. -/
def linkFront (n p : Option β → Option β) (b : β) : (Option β → Option β) × (Option β → Option β) :=
  let n' := update n (some b) (n none)
  let p' := update p (some b) none
  (update n' none (some b), update p' (n' none) (some b))

/-! ## The ring under its edits -/

omit [DecidableEq β] in
theorem threaded_nil {n p : Option β → Option β} (hn : n none = none) (hp : p none = none) :
    Threaded n p [] :=
  ⟨hn, hp, trivial⟩

/-- **Unlinking a member** leaves the ring of the other members. -/
theorem threaded_unlink {n p : Option β → Option β} {pre post : List β} {b : β}
    (h : Threaded n p (pre ++ b :: post)) (hnd : (pre ++ b :: post).Nodup) :
    Threaded (unlink n p b).1 (unlink n p b).2 (pre ++ post) := by
  obtain ⟨A, x, hAx⟩ : ∃ A x, none :: pre.map some = A ++ [x] :=
    ⟨_, _, (List.dropLast_append_getLast (List.cons_ne_nil _ _)).symm⟩
  obtain ⟨z, C, hzC⟩ : ∃ z C, post.map some ++ [none] = z :: C := by cases post <;> simp
  have hl : Links n p (A ++ x :: some b :: z :: C) := by
    have e : A ++ x :: some b :: z :: C = none :: (pre ++ b :: post).map some ++ [none] := by
      rw [← hzC, show A ++ x :: some b :: (post.map some ++ [none]) =
        (A ++ [x]) ++ some b :: (post.map some ++ [none]) by simp, ← hAx]
      simp
    rw [e]; exact h
  -- the seams around `b`
  have hxb : n x = some b ∧ p (some b) = x := by
    rw [links_append] at hl; exact ⟨hl.2.1, hl.2.2.1⟩
  have hbz : n (some b) = z ∧ p z = some b := by
    rw [links_append] at hl; exact ⟨hl.2.2.2.1, hl.2.2.2.2.1⟩
  have hpre := (List.nodup_append.mp hnd).1
  have hdis := (List.nodup_append.mp hnd).2.2
  have hpost := (List.nodup_cons.mp (List.nodup_append.mp hnd).2.1)
  have hU : (A ++ [x]).Nodup := by
    rw [← hAx]; exact List.nodup_cons.mpr ⟨by simp, List.Nodup.map (Option.some_injective β) hpre⟩
  have hV : (z :: C).Nodup := by
    rw [← hzC]
    exact (List.Nodup.map (Option.some_injective β) hpost.2).append (List.nodup_singleton _) (by simp)
  have hxU : x ∈ none :: pre.map some := by rw [hAx]; simp
  have hzV : z ∈ post.map some ++ [none] := by rw [hzC]; simp
  have hzb : z ≠ some b := by
    rintro rfl; simp at hzV; exact hpost.1 hzV
  have hu : unlink n p b = (update n x z, update p z x) := by
    simp only [unlink, hbz.1, hxb.2, update_of_ne hzb.symm]
  rw [hu]
  have e : none :: (pre ++ post).map some ++ [none] = A ++ x :: z :: C := by
    rw [← hzC, show A ++ x :: (post.map some ++ [none]) = (A ++ [x]) ++ (post.map some ++ [none]) by
      simp, ← hAx]
    simp
  unfold Threaded
  rw [e]
  have hCd : (z :: C).dropLast = post.map some := by
    rw [← hzC, List.dropLast_concat]
  have hAt : (A ++ [x]).tail = pre.map some := by
    rw [← hAx, List.tail_cons]
  refine links_unlink hl ?_ ?_ ?_ ?_
  · intro hx
    exact (List.nodup_append.mp hU).2.2 x hx x (List.mem_singleton_self x) rfl
  · rw [hCd]
    intro hx
    simp only [List.mem_cons, List.mem_map] at hxU hx
    obtain ⟨c, hc, rfl⟩ := hx
    rcases hxU with h0 | ⟨c', hc', hcc⟩
    · cases h0
    · cases hcc
      exact hdis c hc' c (List.mem_cons_of_mem _ hc) rfl
  · rw [hAt]
    intro hz
    simp only [List.mem_append, List.mem_map, List.mem_singleton] at hzV hz
    obtain ⟨c, hc, rfl⟩ := hz
    rcases hzV with ⟨c', hc', hcc⟩ | h0
    · cases hcc
      exact hdis c hc c (List.mem_cons_of_mem _ hc') rfl
    · cases h0
  · exact (List.nodup_cons.mp hV).1

/-- **Linking a node in** right after the sentinel. -/
theorem threaded_linkFront {n p : Option β → Option β} {xs : List β} {b : β}
    (h : Threaded n p xs) (hnd : xs.Nodup) (hb : b ∉ xs) :
    Threaded (linkFront n p b).1 (linkFront n p b).2 (b :: xs) := by
  obtain ⟨z, C, hzC⟩ : ∃ z C, xs.map some ++ [none] = z :: C := by cases xs <;> simp
  have hl : Links n p ([] ++ none :: z :: C) := by
    unfold Threaded at h; rw [List.cons_append, hzC] at h; exact h
  have hnz : n none = z := hl.1
  have hzV : z ∈ xs.map some ++ [none] := by rw [hzC]; simp
  have hzb : z ≠ some b := by
    rintro rfl; simp at hzV; exact hb hzV
  have hV : (z :: C).Nodup := by
    rw [← hzC]
    exact (List.Nodup.map (Option.some_injective β) hnd).append (List.nodup_singleton _) (by simp)
  have hC : ∀ a ∈ C, a ≠ z ∧ a ≠ some b := by
    intro a ha
    refine ⟨fun e => (List.nodup_cons.mp hV).1 (e ▸ ha), ?_⟩
    rintro rfl
    have : some b ∈ xs.map some ++ [none] := by rw [hzC]; exact List.mem_cons_of_mem _ ha
    simp at this; exact hb this
  have hlf : linkFront n p b =
      (update (update n (some b) z) none (some b), update (update p (some b) none) z (some b)) := by
    simp [linkFront, hnz]
  rw [hlf]
  have e : none :: (b :: xs).map some ++ [none] = [] ++ none :: some b :: z :: C := by
    simp [← hzC]
  unfold Threaded
  rw [e]
  refine links_link hl (by simp) (by simp [hzb.symm]) (by simp) (by simp) ?_ ?_
  · intro a ha
    have hCd : (z :: C).dropLast = xs.map some := by rw [← hzC, List.dropLast_concat]
    rw [List.nil_append, hCd, List.mem_map] at ha
    obtain ⟨c, hc, rfl⟩ := ha
    have hcb : c ≠ b := by rintro rfl; exact hb hc
    simp [hcb]
  · intro a ha
    simp only [List.nil_append, List.tail_cons, List.nil_append] at ha
    simp [(hC a ha).1, (hC a ha).2]

end Rings

/-! ## `find?` on the members -/

section Find

variable {γ : Type*}

theorem find?_of_imp {p q : γ → Bool} {l : List γ} {c : γ} (h : l.find? p = some c) (hc : q c)
    (hqp : ∀ a ∈ l, q a → p a) : l.find? q = some c := by
  rw [List.find?_eq_some_iff_append] at h ⊢
  obtain ⟨-, as, bs, rfl, has⟩ := h
  refine ⟨hc, as, bs, rfl, fun a ha => ?_⟩
  have := has a ha
  cases hq : q a
  · rfl
  · simp [hqp a (by simp [ha]) hq] at this

theorem find?_erase_of_not [DecidableEq γ] {p : γ → Bool} {b : γ} (hb : p b = false) :
    ∀ l : List γ, (l.erase b).find? p = l.find? p
  | [] => rfl
  | a :: l => by
    by_cases hab : a = b
    · subst hab; simp [hb]
    · rw [List.erase_cons_tail (by simpa using hab), List.find?_cons, List.find?_cons,
        find?_erase_of_not hb l]

theorem find?_eq_some_of_unique {p : γ → Bool} {l : List γ} {b : γ} (hb : b ∈ l) (hp : p b)
    (hu : ∀ a ∈ l, p a → a = b) : l.find? p = some b := by
  cases h : l.find? p with
  | none => exact absurd hp (by simpa using List.find?_eq_none.mp h b hb)
  | some x => rw [hu x (List.mem_of_find?_eq_some h) (List.find?_some h)]

end Find

end Dlist
