import Xv6.Lib.Ring

/-!
# Windows of a ring, by counts

A ring of `N` cells that a producer writes and a consumer reads through
counts that only grow: count `x` names the cell `x % N`. The `k` cells from
count `x` on (`window`) are the entries between the two counts, oldest first.
While fewer than `N` entries wait, writing the cell of count `x + k` appends
to the window and reading the cell of count `x` pops its front, so the ring is
a queue. A machine counter that wraps at `M` names the same cell as its count
when `N` divides `M` (`wrap_mod`).
-/

namespace Xv6.Window

variable {α : Type} {N : Nat}

/-- The `k` cells from count `x` on. -/
def window (N : Nat) (buf : Nat → α) (x k : Nat) : List α :=
  (List.range k).map fun j => buf ((x + j) % N)

@[simp]
theorem length_window (buf : Nat → α) (x k : Nat) : (window N buf x k).length = k := by
  simp [window]

@[simp]
theorem window_zero (buf : Nat → α) (x : Nat) : window N buf x 0 = [] := rfl

theorem window_succ (buf : Nat → α) (x k : Nat) :
    window N buf x (k + 1) = window N buf x k ++ [buf ((x + k) % N)] := by
  simp [window, List.range_succ]

theorem window_succ_left (buf : Nat → α) (x k : Nat) :
    window N buf x (k + 1) = buf (x % N) :: window N buf (x + 1) k := by
  simp only [window, List.range_succ_eq_map, List.map_cons, List.map_map, Nat.add_zero]
  congr 1
  refine List.map_congr_left fun j _ => ?_
  simp only [Function.comp, Nat.add_assoc, Nat.add_comm 1 j]

theorem window_update_of_ne (buf : Nat → α) (x k i : Nat) (v : α) (h : ∀ j < k, (x + j) % N ≠ i) :
    window N (Function.update buf i v) x k = window N buf x k := by
  refine List.map_congr_left fun j hj => ?_
  exact Function.update_of_ne (h j (List.mem_range.mp hj)) _ _

theorem window_push (buf : Nat → α) (x k : Nat) (v : α) (hk : k < N) :
    window N (Function.update buf ((x + k) % N) v) x (k + 1) = window N buf x k ++ [v] := by
  rw [window_succ, Function.update_self,
    window_update_of_ne buf x k _ v fun j hj => Ring.add_mod_ne x hj hk]

theorem wrap_mod {M : Nat} (hN : N ∣ M) (x : Nat) : x % M % N = x % N :=
  Nat.mod_mod_of_dvd x hN

end Xv6.Window
