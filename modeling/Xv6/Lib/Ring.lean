import Mathlib

/-!
# Rings indexed by wrapping counters

A ring of `N` cells read through free-running `UInt32` counters: the counter
`x` names the cell `x % N`, and counters only ever move by one. When `N`
divides `2^32` the wrap of the counter agrees with the wrap of the ring, so
the `k` cells from `x` on (`view`) behave as a list: advancing `x` pops the
front, and writing the cell `k` places after `x` extends the list by one.
`dist x y` is how far `y` is ahead of `x`, in counter arithmetic.
-/

namespace Xv6.Ring

variable {α : Type} {N : Nat}

/-- The cell that counter `x` names. -/
def cell (N : Nat) (x : UInt32) : Nat := x.toNat % N

/-- The `k` cells from counter `x` on. -/
def view (N : Nat) (buf : Nat → α) (x : UInt32) : Nat → List α
  | 0 => []
  | k + 1 => buf (cell N x) :: view N buf (x + 1) k

/-- How far `y` is ahead of `x`. -/
def dist (x y : UInt32) : Nat := (y - x).toNat

@[simp]
theorem length_view (buf : Nat → α) (x : UInt32) (k : Nat) : (view N buf x k).length = k := by
  induction k generalizing x with
  | zero => rfl
  | succ k ih => simp [view, ih]

theorem cell_succ (hN : N ∣ 2 ^ 32) (x : UInt32) : cell N (x + 1) = (x.toNat + 1) % N := by
  simp only [cell, UInt32.toNat_add, UInt32.toNat_one]
  exact Nat.mod_mod_of_dvd _ hN

theorem succ_add_mod (hN : N ∣ 2 ^ 32) (x : UInt32) (k : Nat) :
    ((x + 1).toNat + k) % N = (x.toNat + (k + 1)) % N := by
  have h : (x + 1).toNat % N = (x.toNat + 1) % N := cell_succ hN x
  rw [Nat.add_mod, h, ← Nat.add_mod]
  congr 1
  omega

theorem view_succ (hN : N ∣ 2 ^ 32) (buf : Nat → α) (x : UInt32) (k : Nat) :
    view N buf x (k + 1) = view N buf x k ++ [buf ((x.toNat + k) % N)] := by
  induction k generalizing x with
  | zero => simp [view, cell]
  | succ k ih =>
    rw [view, ih, view, List.cons_append, succ_add_mod hN]

theorem view_update_of_ne (buf : Nat → α) (x : UInt32) (k j : Nat) (v : α)
    (hj : ∀ i < k, (x.toNat + i) % N ≠ j) (hN : N ∣ 2 ^ 32) :
    view N (Function.update buf j v) x k = view N buf x k := by
  induction k generalizing x with
  | zero => rfl
  | succ k ih =>
    have h0 : cell N x ≠ j := by simpa [cell] using hj 0 (by omega)
    have hrest : ∀ i < k, ((x + 1).toNat + i) % N ≠ j := by
      intro i hi
      rw [succ_add_mod hN]
      exact hj (i + 1) (by omega)
    simp only [view, Function.update_of_ne h0, ih (x + 1) hrest]

theorem add_mod_ne {i k : Nat} (x : Nat) (hi : i < k) (hk : k < N) : (x + i) % N ≠ (x + k) % N := by
  intro h
  have := Nat.ModEq.add_left_cancel' x h
  rw [Nat.ModEq, Nat.mod_eq_of_lt (by omega), Nat.mod_eq_of_lt hk] at this
  omega

theorem view_update_succ (hN : N ∣ 2 ^ 32) (buf : Nat → α) (x : UInt32) (k : Nat) (v : α)
    (hk : k < N) :
    view N (Function.update buf ((x.toNat + k) % N) v) x (k + 1) = view N buf x k ++ [v] := by
  have hne : ∀ i < k, (x.toNat + i) % N ≠ (x.toNat + k) % N := fun i hi => add_mod_ne _ hi hk
  rw [view_succ hN, view_update_of_ne buf x k _ v hne hN, Function.update_self]

theorem dropLast_view (hN : N ∣ 2 ^ 32) (buf : Nat → α) (x : UInt32) (k : Nat) :
    (view N buf x k).dropLast = view N buf x (k - 1) := by
  cases k with
  | zero => rfl
  | succ k => rw [view_succ hN, List.dropLast_concat, Nat.add_sub_cancel]

theorem view_add (buf : Nat → α) (x : UInt32) (a b : Nat) :
    view N buf x (a + b) = view N buf x a ++ view N buf (x + UInt32.ofNat a) b := by
  induction a generalizing x with
  | zero => simp [view]
  | succ a ih =>
    have hx : x + 1 + UInt32.ofNat a = x + UInt32.ofNat (a + 1) := by
      rw [UInt32.ofNat_add]
      ac_rfl
    rw [Nat.add_right_comm, view, ih, view, hx, List.cons_append]

theorem dist_self (x : UInt32) : dist x x = 0 := by simp [dist]

theorem dist_eq_zero {x y : UInt32} : dist x y = 0 ↔ x = y := by
  have hx := x.toNat_lt
  have hy := y.toNat_lt
  rw [dist, UInt32.toNat_sub, ← UInt32.toNat_inj]
  omega

theorem dist_succ_left {x y : UInt32} (h : x ≠ y) : dist (x + 1) y = dist x y - 1 := by
  have hne := UInt32.toNat_inj.not.mpr h
  have hx := x.toNat_lt
  have hy := y.toNat_lt
  simp only [dist, UInt32.toNat_sub, UInt32.toNat_add, UInt32.toNat_one]
  omega

theorem dist_succ_right {x y : UInt32} (h : dist x y + 1 < 2 ^ 32) :
    dist x (y + 1) = dist x y + 1 := by
  have hx := x.toNat_lt
  have hy := y.toNat_lt
  simp only [dist, UInt32.toNat_sub, UInt32.toNat_add, UInt32.toNat_one] at h ⊢
  omega

theorem dist_pred_right {x y : UInt32} (h : x ≠ y) : dist x (y - 1) = dist x y - 1 := by
  have hne := UInt32.toNat_inj.not.mpr h
  have hx := x.toNat_lt
  have hy := y.toNat_lt
  simp only [dist, UInt32.toNat_sub, UInt32.toNat_one]
  omega

theorem dist_add {x y z : UInt32} (h : dist x y ≤ dist x z) : dist x y + dist y z = dist x z := by
  have hx := x.toNat_lt
  have hy := y.toNat_lt
  have hz := z.toNat_lt
  simp only [dist, UInt32.toNat_sub] at h ⊢
  omega

theorem toNat_add_dist (x y : UInt32) : (x.toNat + dist x y) % 2 ^ 32 = y.toNat := by
  have hx := x.toNat_lt
  have hy := y.toNat_lt
  simp only [dist, UInt32.toNat_sub]
  omega

theorem view_split (buf : Nat → α) {x y z : UInt32} (h : dist x y ≤ dist x z) :
    view N buf x (dist x z) = view N buf x (dist x y) ++ view N buf y (dist y z) := by
  have hy : x + UInt32.ofNat (dist x y) = y := by simp [dist]
  rw [← dist_add h, view_add, hy]

theorem cell_eq_of_dist (hN : N ∣ 2 ^ 32) (x y : UInt32) : (x.toNat + dist x y) % N = cell N y := by
  rw [cell, ← toNat_add_dist x y, Nat.mod_mod_of_dvd _ hN]

end Xv6.Ring
