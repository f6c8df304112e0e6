import Mathlib.Tactic

/-!
# Little-endian numbers in byte maps

A byte map `Nat → UInt8` is any byte-addressed store: physical memory, or the
bytes of one buffer. `readLE f a n` is the unsigned number whose `n` bytes sit
at `a`, least significant first; `writeLE f a n v` stores the low `n` bytes of
`v` there and leaves every other address alone. A C cast of a byte buffer to a
struct of fixed-width integers reads and writes its fields this way on a
little-endian machine.

The lemmas: a write reads back modulo `256 ^ n` (`readLE_writeLE_self`), and
a read only looks at its own bytes (`readLE_congr`).
-/

namespace LittleEndian

/-- The `n`-byte little-endian number at address `a`. -/
def readLE (f : Nat → UInt8) (a : Nat) : Nat → Nat
  | 0 => 0
  | n + 1 => (f a).toNat + 256 * readLE f (a + 1) n

/-- Store the low `n` bytes of `v` at address `a`, least significant first. -/
def writeLE (f : Nat → UInt8) (a n v : Nat) : Nat → UInt8 :=
  fun i => if a ≤ i ∧ i < a + n then UInt8.ofNat (v / 256 ^ (i - a)) else f i

@[simp] theorem readLE_zero (f : Nat → UInt8) (a : Nat) : readLE f a 0 = 0 := rfl

theorem readLE_succ (f : Nat → UInt8) (a n : Nat) :
    readLE f a (n + 1) = (f a).toNat + 256 * readLE f (a + 1) n := rfl

theorem readLE_congr {f g : Nat → UInt8} {a n : Nat} (h : ∀ j, j < n → f (a + j) = g (a + j)) :
    readLE f a n = readLE g a n := by
  induction n generalizing a with
  | zero => rfl
  | succ n ih =>
    have h0 : f a = g a := h 0 (by omega)
    rw [readLE_succ, readLE_succ, h0,
      ih fun j hj => by simpa [Nat.add_assoc, Nat.add_comm 1 j] using h (j + 1) (by omega)]

theorem writeLE_of_lt {f : Nat → UInt8} {a n v i : Nat} (h : i < a) : writeLE f a n v i = f i := by
  simp only [writeLE]; rw [if_neg (by omega)]

theorem writeLE_of_le {f : Nat → UInt8} {a n v i : Nat} (h : a + n ≤ i) :
    writeLE f a n v i = f i := by
  simp only [writeLE]; rw [if_neg (by omega)]

theorem writeLE_of_mem {f : Nat → UInt8} {a n v i : Nat} (h1 : a ≤ i) (h2 : i < a + n) :
    writeLE f a n v i = UInt8.ofNat (v / 256 ^ (i - a)) := by
  simp only [writeLE]; rw [if_pos ⟨h1, h2⟩]

theorem readLE_writeLE_self (f : Nat → UInt8) (a n v : Nat) :
    readLE (writeLE f a n v) a n = v % 256 ^ n := by
  induction n generalizing a v with
  | zero => simp [Nat.mod_one]
  | succ n ih =>
    have hhead : writeLE f a (n + 1) v a = UInt8.ofNat v := by
      rw [writeLE_of_mem (le_refl a) (by omega)]; simp
    -- the tail of the stored bytes is the stored `v / 256`
    have htail : readLE (writeLE f a (n + 1) v) (a + 1) n =
        readLE (writeLE f (a + 1) n (v / 256)) (a + 1) n := by
      apply readLE_congr
      intro j hj
      rw [writeLE_of_mem (by omega) (by omega), writeLE_of_mem (by omega) (by omega),
        show a + 1 + j - a = j + 1 by omega, show a + 1 + j - (a + 1) = j by omega,
        pow_succ', Nat.div_div_eq_div_mul]
    rw [readLE_succ, hhead, htail, ih, pow_succ', Nat.mod_mul]
    simp [UInt8.toNat_ofNat']

theorem readLE_writeLE_self_of_lt {f : Nat → UInt8} {a n v : Nat} (hv : v < 256 ^ n) :
    readLE (writeLE f a n v) a n = v := by
  rw [readLE_writeLE_self, Nat.mod_eq_of_lt hv]

end LittleEndian
