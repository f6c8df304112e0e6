import Mathlib.Logic.Function.Basic
import Mathlib.Data.List.Basic

/-!
# Sequences of atomic writes

A store is a total map `κ → α` (a disk from block numbers to contents, a
memory from addresses to bytes). A device that makes each single write
atomic and carries writes out in the order they are issued leaves, after a
power cut, the store with some prefix of the issued writes applied:
`applyWrites (ws.take k) d`.

The lemmas here are the frame rule (a key no write touches keeps its value),
the last-writer rule (`applyWrites_congr`: the keys a list writes end the same
whatever they held before), and their consequence for a replayed prefix
(`applyWrites_take_then_all`): redoing a whole list over any of its prefixes
gives the same store as doing it once.
-/

namespace WriteList

variable {κ α : Type*} [DecidableEq κ]

/-- Apply the writes `ws` to `d`, oldest first. -/
def applyWrites : List (κ × α) → (κ → α) → κ → α
  | [], d => d
  | (k, v) :: ws, d => applyWrites ws (Function.update d k v)

@[simp] theorem applyWrites_nil (d : κ → α) : applyWrites [] d = d := rfl

@[simp] theorem applyWrites_cons (k : κ) (v : α) (ws : List (κ × α)) (d : κ → α) :
    applyWrites ((k, v) :: ws) d = applyWrites ws (Function.update d k v) := rfl

theorem applyWrites_append (ws vs : List (κ × α)) (d : κ → α) :
    applyWrites (ws ++ vs) d = applyWrites vs (applyWrites ws d) := by
  induction ws generalizing d with
  | nil => rfl
  | cons w ws ih => obtain ⟨k, v⟩ := w; simp [ih]

@[simp] theorem applyWrites_singleton (k : κ) (v : α) (d : κ → α) :
    applyWrites [(k, v)] d = Function.update d k v := rfl

/-- **Frame rule**: a key that no write names keeps its value. -/
theorem applyWrites_of_forall_ne {ws : List (κ × α)} {x : κ} (h : ∀ p ∈ ws, p.1 ≠ x)
    (d : κ → α) : applyWrites ws d x = d x := by
  induction ws generalizing d with
  | nil => rfl
  | cons w ws ih =>
    obtain ⟨k, v⟩ := w
    have hk : k ≠ x := h (k, v) List.mem_cons_self
    rw [applyWrites_cons, ih (fun p hp => h p (List.mem_cons_of_mem _ hp)),
      Function.update_of_ne (Ne.symm hk)]

/-- **Last-writer rule**: a key is the same after the writes on two stores
when some write names it or the stores already agree on it. -/
theorem applyWrites_congr {ws : List (κ × α)} {x : κ} {d e : κ → α}
    (h : (∃ p ∈ ws, p.1 = x) ∨ d x = e x) : applyWrites ws d x = applyWrites ws e x := by
  induction ws generalizing d e with
  | nil =>
    rcases h with ⟨p, hp, _⟩ | h
    · cases hp
    · exact h
  | cons w ws ih =>
    obtain ⟨k, v⟩ := w
    apply ih
    by_cases hk : k = x
    · subst hk; right; simp
    · rcases h with ⟨p, hp, hpx⟩ | h
      · rcases List.mem_cons.1 hp with rfl | hp
        · exact absurd hpx hk
        · exact .inl ⟨p, hp, hpx⟩
      · right; simp [Function.update_of_ne (Ne.symm hk), h]

theorem applyWrites_eq_of_agree {ws : List (κ × α)} {d e : κ → α}
    (h : ∀ x, (∀ p ∈ ws, p.1 ≠ x) → d x = e x) : applyWrites ws d = applyWrites ws e := by
  funext x
  apply applyWrites_congr
  by_cases hx : ∃ p ∈ ws, p.1 = x
  · exact .inl hx
  · exact .inr (h x fun p hp hpx => hx ⟨p, hp, hpx⟩)

theorem applyWrites_take_then_all (ws : List (κ × α)) (k : Nat) (d : κ → α) :
    applyWrites ws (applyWrites (ws.take k) d) = applyWrites ws d := by
  apply applyWrites_eq_of_agree
  intro x hx
  exact applyWrites_of_forall_ne (fun p hp => hx p (List.mem_of_mem_take hp)) d

theorem applyWrites_map_self {ks : List κ} {f : κ → α} {x : κ} (hx : x ∈ ks) (d : κ → α) :
    applyWrites (ks.map fun k => (k, f k)) d x = f x := by
  induction ks generalizing d with
  | nil => cases hx
  | cons k ks ih =>
    simp only [List.map_cons, applyWrites_cons]
    by_cases hin : x ∈ ks
    · exact ih hin _
    · have hkx : k = x := by
        rcases List.mem_cons.1 hx with h | h
        · exact h.symm
        · exact absurd h hin
      subst hkx
      have hne : ∀ p ∈ ks.map (fun k => (k, f k)), p.1 ≠ k := by
        intro p hp hpk
        obtain ⟨a, ha, rfl⟩ := List.mem_map.1 hp
        exact hin (hpk ▸ ha)
      rw [applyWrites_of_forall_ne hne]
      simp

end WriteList
