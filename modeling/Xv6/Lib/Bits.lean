import Mathlib.Tactic

/-!
# Bit fields of machine words

A word that packs a number above bit `k` and a field below it, as a page
table entry packs a page number above its flag bits, is read and built with
masks, shifts and `|||`. Over `Nat` these are division, remainder and
addition, which `omega` decides; the lemmas below make that translation once,
for `UInt64` words.
-/

namespace Bits

theorem and_two_pow_ne_zero (x b : Nat) : x &&& 2 ^ b ≠ 0 ↔ x / 2 ^ b % 2 = 1 := by
  constructor
  · intro h
    by_contra hc
    apply h
    apply Nat.eq_of_testBit_eq
    intro i
    rw [Nat.testBit_and, Nat.testBit_two_pow, Nat.zero_testBit]
    by_cases hi : b = i
    · subst hi
      simp only [Nat.testBit_eq_decide_div_mod_eq, decide_true, Bool.and_true, decide_eq_false_iff_not]
      exact hc
    · simp [hi]
  · intro h heq
    have hb : (x &&& 2 ^ b).testBit b = true := by
      rw [Nat.testBit_and, Nat.testBit_two_pow_self, Bool.and_true, Nat.testBit_eq_decide_div_mod_eq]
      simpa using h
    rw [heq, Nat.zero_testBit] at hb
    cases hb

theorem or_eq_add {x f k : Nat} (hx : x % 2 ^ k = 0) (hf : f < 2 ^ k) : x ||| f = x + f := by
  obtain ⟨q, rfl⟩ : ∃ q, x = q * 2 ^ k := ⟨x / 2 ^ k, by rw [Nat.div_mul_cancel (Nat.dvd_of_mod_eq_zero hx)]⟩
  rw [show q * 2 ^ k = q <<< k by simp [Nat.shiftLeft_eq], Nat.shiftLeft_add_eq_or_of_lt hf]

theorem toNat_and_mask (x : UInt64) (k : Nat) (hk : k ≤ 64) :
    (x &&& (2 ^ k - 1 : Nat).toUInt64).toNat = x.toNat % 2 ^ k := by
  have : (2 ^ k - 1) % 2 ^ 64 = 2 ^ k - 1 := Nat.mod_eq_of_lt (by
    have := Nat.pow_le_pow_right (show 0 < 2 by decide) hk
    have := Nat.one_le_two_pow (n := k)
    omega)
  rw [UInt64.toNat_and, Nat.toUInt64_eq, UInt64.toNat_ofNat', this, Nat.and_two_pow_sub_one_eq_mod]

theorem toNat_shiftRight (x : UInt64) (k : Nat) (hk : k < 64) :
    (x >>> k.toUInt64).toNat = x.toNat / 2 ^ k := by
  rw [UInt64.toNat_shiftRight, Nat.shiftRight_eq_div_pow, Nat.toUInt64_eq, UInt64.toNat_ofNat',
    Nat.mod_eq_of_lt (by omega : k < 2 ^ 64), Nat.mod_eq_of_lt hk]

theorem toNat_shiftLeft (x : UInt64) (k : Nat) (hk : k < 64) :
    (x <<< k.toUInt64).toNat = x.toNat * 2 ^ k % 2 ^ 64 := by
  rw [UInt64.toNat_shiftLeft, Nat.shiftLeft_eq, Nat.toUInt64_eq, UInt64.toNat_ofNat',
    Nat.mod_eq_of_lt (by omega : k < 2 ^ 64), Nat.mod_eq_of_lt hk]

theorem toNat_or_eq_add {x f : UInt64} {k : Nat} (hx : x.toNat % 2 ^ k = 0) (hf : f.toNat < 2 ^ k) :
    (x ||| f).toNat = x.toNat + f.toNat := by
  rw [UInt64.toNat_or, or_eq_add hx hf]

end Bits
