import Xv6.Vm

/-!
# `memmove` and `memcpy` (`kernel/string.c`, `user/ulib.c`)

Both copy `n` bytes within one flat memory, a total map from addresses to
bytes. They differ in the test that picks the direction: the kernel's copies
backwards exactly when the source starts below the destination and overlaps
it, the user one copies forwards when the source is above the destination
and backwards in every other case. The user count is an `int`, so a count
`≤ 0` copies nothing, and the user `memcpy` hands its `uint` count to that
`int`.

The two loops are recursions on the bytes left, touching the bytes in the
order the C loops do. `moved` is what a copy is for: the destination holds
what the source held before, and nothing else changes. A forward copy is
`moved` when the destination does not start above the source or lies wholly
below it (`copyFwd_eq_moved`), a backward copy in the mirror case
(`copyBack_eq_moved`); each `memmove` picks a loop whose condition its test
implies. `Phys.writeBytes` of bytes read from the same memory, the form the
page-table model gives the kernel's copies, is such a move
(`writeBytes_readBytes`).
-/

namespace Xv6

/-! ## The loops -/

/-- `while(n-- > 0) *d++ = *s++;`: the lowest byte first. -/
def copyFwd : (Nat → UInt8) → Nat → Nat → Nat → (Nat → UInt8)
  | m, _, _, 0 => m
  | m, d, s, n + 1 => copyFwd (Function.update m d (m s)) (d + 1) (s + 1) n

/-- `d += n; s += n; while(n-- > 0) *--d = *--s;`: the highest byte first. -/
def copyBack : (Nat → UInt8) → Nat → Nat → Nat → (Nat → UInt8)
  | m, _, _, 0 => m
  | m, d, s, n + 1 => copyBack (Function.update m (d + n) (m (s + n))) d s n

/-! ## What a copy is for -/

/-- The memory after `n` bytes at `src` are moved to `dst`: each destination
byte is the byte the source held before, every other byte is unchanged. -/
def moved (m : Nat → UInt8) (dst src n : Nat) : Nat → UInt8 :=
  fun a => if dst ≤ a ∧ a < dst + n then m (src + (a - dst)) else m a

/-- A correct copy of `n` bytes from `src` to `dst`: `m'` holds at `dst`
what `m` holds at `src`, and every other byte as it was. -/
def Moves (m m' : Nat → UInt8) (dst src n : Nat) : Prop :=
  (∀ i, i < n → m' (dst + i) = m (src + i)) ∧ ∀ a, a < dst ∨ dst + n ≤ a → m' a = m a

theorem moves_moved (m : Nat → UInt8) (dst src n : Nat) : Moves m (moved m dst src n) dst src n := by
  constructor
  · intro i hi
    simp [moved, hi]
  · intro a ha
    have : ¬(dst ≤ a ∧ a < dst + n) := by omega
    simp [moved, this]

@[simp] theorem moved_zero (m : Nat → UInt8) (dst src : Nat) : moved m dst src 0 = m := by
  funext a
  simp [moved]

theorem moved_succ_low {m : Nat → UInt8} {d s n : Nat} (h : d ≤ s ∨ s + n < d) :
    moved (Function.update m d (m s)) (d + 1) (s + 1) n = moved m d s (n + 1) := by
  funext a
  by_cases ha : a = d
  · subst ha
    simp [moved]
  by_cases hin : d + 1 ≤ a ∧ a < d + 1 + n
  · -- the source byte read is not the one already overwritten
    have hs : s + 1 + (a - (d + 1)) ≠ d := by omega
    have hin' : d ≤ a ∧ a < d + (n + 1) := by omega
    rw [moved, moved, if_pos hin, if_pos hin', Function.update_of_ne hs]
    congr 1
    omega
  · have hout : ¬(d ≤ a ∧ a < d + (n + 1)) := by omega
    rw [moved, moved, if_neg hin, if_neg hout, Function.update_of_ne ha]

theorem moved_succ_high {m : Nat → UInt8} {d s n : Nat} (h : s ≤ d ∨ d + n < s) :
    moved (Function.update m (d + n) (m (s + n))) d s n = moved m d s (n + 1) := by
  funext a
  by_cases ha : a = d + n
  · subst ha
    simp [moved]
  by_cases hin : d ≤ a ∧ a < d + n
  · have hs : s + (a - d) ≠ d + n := by omega
    have hin' : d ≤ a ∧ a < d + (n + 1) := by omega
    rw [moved, moved, if_pos hin, if_pos hin', Function.update_of_ne hs]
  · have hout : ¬(d ≤ a ∧ a < d + (n + 1)) := by omega
    rw [moved, moved, if_neg hin, if_neg hout, Function.update_of_ne ha]

/-! ## The loops meet the spec -/

theorem copyFwd_eq_moved {m : Nat → UInt8} {d s n : Nat} (h : d ≤ s ∨ s + n ≤ d) :
    copyFwd m d s n = moved m d s n := by
  induction n generalizing m d s with
  | zero => simp [copyFwd]
  | succ n ih =>
    rw [copyFwd, ih (by omega)]
    exact moved_succ_low (by omega)

theorem copyBack_eq_moved {m : Nat → UInt8} {d s n : Nat} (h : s ≤ d ∨ d + n ≤ s) :
    copyBack m d s n = moved m d s n := by
  induction n generalizing m with
  | zero => simp [copyBack]
  | succ n ih =>
    rw [copyBack, ih (by omega)]
    exact moved_succ_high (by omega)

/-- A forward copy one byte up over its own source repeats the first byte:
the overlap the kernel's test sends backwards. -/
example : copyFwd (fun a => if a = 0 then 1 else if a = 1 then 2 else 0) 1 0 2 2 = 1 := by
  decide

theorem writeBytes_readBytes (m : Phys) (dst src n : Nat) :
    (m.writeBytes dst (m.readBytes src n)).byte = moved m.byte dst src n := by
  funext a
  by_cases h : dst ≤ a ∧ a < dst + n
  · have hi : a - dst < n := by omega
    simp [Phys.writeBytes, Phys.readBytes, moved, h, hi]
  · simp [Phys.writeBytes, Phys.readBytes, moved, h]

/-! ## The kernel's `memmove` and `memcpy` -/

/-- `memmove(dst, src, n)` of `kernel/string.c`. -/
def memmove (m : Nat → UInt8) (dst src : Nat) (n : UInt32) : Nat → UInt8 :=
  if n = 0 then m
  else if src < dst ∧ src + n.toNat > dst then copyBack m dst src n.toNat
  else copyFwd m dst src n.toNat

/-- `memcpy(dst, src, n)` of `kernel/string.c`. -/
def memcpy (m : Nat → UInt8) (dst src : Nat) (n : UInt32) : Nat → UInt8 := memmove m dst src n

theorem memmove_eq_moved (m : Nat → UInt8) (dst src : Nat) (n : UInt32) :
    memmove m dst src n = moved m dst src n.toNat := by
  unfold memmove
  split_ifs with h0 hback
  · simp [h0]
  · exact copyBack_eq_moved (by omega)
  · exact copyFwd_eq_moved (by omega)

/-! ## The user `memmove` and `memcpy` -/

namespace Ulib

/-- `memmove(vdst, vsrc, n)` of `user/ulib.c`. -/
def memmove (m : Nat → UInt8) (vdst vsrc : Nat) (n : Int32) : Nat → UInt8 :=
  if vsrc > vdst then copyFwd m vdst vsrc n.toInt.toNat
  else copyBack m vdst vsrc n.toInt.toNat

/-- `memcpy(dst, src, n)` of `user/ulib.c`: the `uint` count becomes
`memmove`'s `int`. -/
def memcpy (m : Nat → UInt8) (dst src : Nat) (n : UInt32) : Nat → UInt8 :=
  memmove m dst src n.toInt32

theorem memmove_eq_moved (m : Nat → UInt8) (vdst vsrc : Nat) (n : Int32) :
    memmove m vdst vsrc n = moved m vdst vsrc n.toInt.toNat := by
  unfold memmove
  split_ifs with h
  · exact copyFwd_eq_moved (by omega)
  · exact copyBack_eq_moved (by omega)

end Ulib

/-- `memmove` and `memcpy` move their bytes for every overlap, in the kernel
and in user space, where a count `≤ 0` moves nothing. -/
theorem memmove_correct (m : Nat → UInt8) (dst src : Nat) (n : UInt32) (k : Int32) (u : UInt32) :
    Moves m (memmove m dst src n) dst src n.toNat ∧ memcpy m dst src n = memmove m dst src n ∧
      Moves m (Ulib.memmove m dst src k) dst src k.toInt.toNat ∧
      Ulib.memcpy m dst src u = Ulib.memmove m dst src u.toInt32 := by
  refine ⟨?_, rfl, ?_, rfl⟩
  · rw [memmove_eq_moved]
    exact moves_moved m dst src n.toNat
  · rw [Ulib.memmove_eq_moved]
    exact moves_moved m dst src k.toInt.toNat

end Xv6
