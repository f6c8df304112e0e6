import Mathlib.Algebra.BigOperators.Group.Finset.Basic
import Mathlib.Algebra.Order.BigOperators.Group.Finset
import Mathlib.Data.Fintype.BigOperators

/-!
# Tallies over a finite table

A count that a table keeps for its entries, such as a reference count, is
compared with a sum over the table: one term per entry. A step that changes
one entry changes the sum by the new term less the old one. The lemmas state
that without subtraction, so that `omega` can use them in `ℕ`, and count the
entries that satisfy a predicate (`tally`).
-/

namespace Tally

open Finset

variable {ι M : Type*} [Fintype ι]

section Sum

variable [AddCommMonoid M]

theorem sum_add_eq_of_eq_off [DecidableEq ι] {g g' : ι → M} (a : ι) (h : ∀ b, b ≠ a → g' b = g b) :
    ∑ b, g' b + g a = ∑ b, g b + g' a := by
  rw [← Finset.add_sum_erase _ g' (mem_univ a), ← Finset.add_sum_erase _ g (mem_univ a),
    Finset.sum_congr rfl fun b hb => h b (Finset.ne_of_mem_erase hb)]
  rw [add_comm (g' a), add_assoc, add_comm _ (g a), ← add_assoc, add_comm (g a)]

end Sum

/-- The number of entries that satisfy `P`. -/
def tally (P : ι → Prop) [DecidablePred P] : ℕ := ∑ b, if P b then 1 else 0

theorem tally_add_eq_of_iff_off [DecidableEq ι] {P Q : ι → Prop} [DecidablePred P]
    [DecidablePred Q] (a : ι) (h : ∀ b, b ≠ a → (Q b ↔ P b)) :
    tally Q + (if P a then 1 else 0) = tally P + (if Q a then 1 else 0) := by
  unfold tally
  apply sum_add_eq_of_eq_off a
  intro b hb
  simp only [h b hb]

theorem tally_congr {P Q : ι → Prop} [DecidablePred P] [DecidablePred Q] (h : ∀ b, Q b ↔ P b) :
    tally Q = tally P :=
  Finset.sum_congr rfl fun b _ => by simp only [h b]

theorem one_le_tally {P : ι → Prop} [DecidablePred P] {a : ι} (h : P a) : 1 ≤ tally P := by
  calc 1 = (if P a then 1 else 0) := by simp [h]
    _ ≤ tally P := Finset.single_le_sum (f := fun b => if P b then 1 else 0)
          (fun _ _ => Nat.zero_le _) (mem_univ a)

theorem not_of_tally_eq_zero {P : ι → Prop} [DecidablePred P] (h : tally P = 0) (a : ι) : ¬P a :=
  fun ha => by have := one_le_tally ha; omega

theorem tally_eq_zero {P : ι → Prop} [DecidablePred P] (h : ∀ a, ¬P a) : tally P = 0 := by
  simp [tally, h]

theorem tally_prod {κ : Type*} [Fintype κ] {P : ι → κ → Prop} [∀ a, DecidablePred (P a)] :
    tally (fun x : ι × κ => P x.1 x.2) = ∑ a, tally (P a) := by
  unfold tally
  exact Fintype.sum_prod_type' fun a b => if P a b then 1 else 0

theorem le_sum (g : ι → ℕ) (a : ι) : g a ≤ ∑ b, g b :=
  Finset.single_le_sum (fun _ _ => Nat.zero_le _) (mem_univ a)

end Tally
