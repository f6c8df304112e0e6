import Mathlib

/-!
# User `printf` (`user/printf.c`)

`vprintf(fd, fmt, ap)` walks the format with a two-state machine and writes
one byte at a time with `putc`; the model is the list of bytes written, in
order. The variadic arguments are the 64-bit slots of the RISC-V calling
convention, taken in order: `va_arg(ap, int)` and `va_arg(ap, uint)` keep a
slot's low 32 bits, `va_arg(ap, uint64)` and `va_arg(ap, char*)` the whole
slot, and a `char *` is an address into the memory `mem`, read up to its
NUL.

`walk` is the state machine with the conversions as a parameter, so the
code (`conversion`) and what each conversion should print (`intended`, with
`Nat.digits` for numbers) run through the same walk, and `vprintf` is
compared with the intended output one conversion at a time.

`printint` fills `buf` lowest digit first and prints it backwards; its
`do`-`while` loop is a recursion whose 32 passes cover any 32-bit `x`. `%l`
hands its `uint64` to `printint`'s `int` parameter, which keeps the low 32
bits, so `vprintf` prints `x mod 2^32` there (`vprintf_eq_walk`).
-/

namespace Xv6.Printf

/-- `static char digits[] = "0123456789ABCDEF"`. -/
def digits : List UInt8 := [48, 49, 50, 51, 52, 53, 54, 55, 56, 57, 65, 66, 67, 68, 69, 70]

/-- `"(null)"`. -/
def null : List UInt8 := [40, 110, 117, 108, 108, 41]

/-! ## The code -/

/-- The `do`-`while` loop of `printint`: `buf[i++] = digits[x % base]` until
`(x /= base) == 0`, for at most `k` passes. -/
def fillDigits (base : UInt32) : Nat → UInt32 → List UInt8
  | 0, _ => []
  | k + 1, x =>
    digits.getD (x % base).toNat 0 :: if x / base ≠ 0 then fillDigits base k (x / base) else []

/-- `printint(fd, xx, base, sgn)`: the bytes it writes. -/
def printint (xx : Int32) (base : UInt32) (sgn : Bool) : List UInt8 :=
  let neg := sgn && decide (xx < 0)
  let x : UInt32 := if neg then (-xx).toUInt32 else xx.toUInt32
  -- `buf` holds the digits and then the sign; `while(--i >= 0)` prints it from its end
  (fillDigits base 32 x ++ if neg then [45] else []).reverse

/-- `printptr(fd, x)`: `0x`, then `digits[x >> 60]` sixteen times with `x <<= 4`. -/
def printptr (x : UInt64) : List UInt8 :=
  48 :: 120 :: (List.range 16).map fun i => digits.getD ((x <<< (4 * i).toUInt64) >>> 60).toNat 0

/-- `while(*s != 0) putc(fd, *s++)` from address `s`, for at most `k` bytes. -/
def strFrom (mem : Nat → UInt8) : Nat → Nat → List UInt8
  | 0, _ => []
  | k + 1, s => if mem s = 0 then [] else mem s :: strFrom mem k (s + 1)

/-- The branch of `vprintf` for `%c`: the bytes written and the arguments left. -/
def conversion (mem : Nat → UInt8) (c : UInt8) (ap : List UInt64) : List UInt8 × List UInt64 :=
  let a := ap.headD 0
  if c = 100 then (printint a.toUInt32.toInt32 10 true, ap.tail)
  -- `va_arg(ap, uint64)` passed to `printint`'s `int xx`
  else if c = 108 then (printint a.toUInt32.toInt32 10 false, ap.tail)
  else if c = 120 then (printint a.toUInt32.toInt32 16 false, ap.tail)
  else if c = 112 then (printptr a, ap.tail)
  -- a string ends before the top of the 64-bit address space
  else if c = 115 then (if a = 0 then null else strFrom mem (2 ^ 64) a.toNat, ap.tail)
  else if c = 99 then ([a.toUInt8], ap.tail)
  else if c = 37 then ([37], ap)
  else ([37, c], ap)

/-- The loop of `vprintf` over the format bytes in `state` `0` (`false`) or
`'%'` (`true`), with `conv c ap` the branch for `%c`. -/
def walk (conv : UInt8 → List UInt64 → List UInt8 × List UInt64) :
    Bool → List UInt8 → List UInt64 → List UInt8
  | _, [], _ => []
  | false, c :: fmt, ap => if c = 37 then walk conv true fmt ap else c :: walk conv false fmt ap
  | true, c :: fmt, ap => (conv c ap).1 ++ walk conv false fmt (conv c ap).2

/-- `vprintf(fd, fmt, ap)`: the bytes written for the format `fmt` (its bytes
before the NUL). -/
def vprintf (mem : Nat → UInt8) (fmt : List UInt8) (ap : List UInt64) : List UInt8 :=
  walk (conversion mem) false fmt ap

/-! ## What each conversion should print -/

/-- `n` in base `b`, most significant digit first; `"0"` for `0`. -/
def spell (b n : Nat) : List UInt8 :=
  if n = 0 then [digits.getD 0 0] else ((Nat.digits b n).map fun d => digits.getD d 0).reverse

/-- The signed decimal of `v`. -/
def signedDecimal (v : Int) : List UInt8 := (if v < 0 then [45] else []) ++ spell 10 v.natAbs

/-- The 16 hex digits of `x`, leading zeros included. -/
def hex16 (x : Nat) : List UInt8 := (List.range 16).map fun i => digits.getD (x / 16 ^ (15 - i) % 16) 0

/-- What conversion `%c` is meant to print, with `%l` printing `long a`. -/
def intended (mem : Nat → UInt8) (long : UInt64 → List UInt8) (c : UInt8) (ap : List UInt64) :
    List UInt8 × List UInt64 :=
  let a := ap.headD 0
  if c = 100 then (signedDecimal a.toUInt32.toInt32.toInt, ap.tail)
  else if c = 108 then (long a, ap.tail)
  else if c = 120 then (spell 16 a.toUInt32.toNat, ap.tail)
  else if c = 112 then (48 :: 120 :: hex16 a.toNat, ap.tail)
  else if c = 115 then (if a = 0 then null else strFrom mem (2 ^ 64) a.toNat, ap.tail)
  else if c = 99 then ([a.toUInt8], ap.tail)
  else if c = 37 then ([37], ap)
  else ([37, c], ap)

/-- What `vprintf` is meant to write: `%l` is the decimal of all 64 bits. -/
def format (mem : Nat → UInt8) (fmt : List UInt8) (ap : List UInt64) : List UInt8 :=
  walk (intended mem fun a => spell 10 a.toNat) false fmt ap

/-! ## `printint` and `printptr` -/

theorem fillDigits_eq_digits {base : UInt32} (hb : 1 < base.toNat) {k : Nat} :
    ∀ {x : UInt32}, 0 < x.toNat → x.toNat < base.toNat ^ k →
      fillDigits base k x = (Nat.digits base.toNat x.toNat).map fun d => digits.getD d 0 := by
  induction k with
  | zero => intro x hx hk; simp at hk; omega
  | succ k ih =>
    intro x hx hk
    rw [fillDigits, Nat.digits_def' hb hx, List.map_cons, UInt32.toNat_mod]
    congr 1
    have hdiv : (x / base).toNat = x.toNat / base.toNat := UInt32.toNat_div x base
    by_cases h0 : x.toNat / base.toNat = 0
    · have : x / base = 0 := UInt32.toNat_inj.mp (by rw [hdiv, h0]; rfl)
      simp [this, h0]
    · have hne : x / base ≠ 0 := fun h => h0 (by rw [← hdiv, h]; rfl)
      rw [if_pos hne, ih (by omega) (by rw [hdiv, Nat.div_lt_iff_lt_mul (by omega), ← pow_succ]; exact hk), hdiv]

theorem reverse_fillDigits {base : UInt32} (hb : 1 < base.toNat) (x : UInt32) :
    (fillDigits base 32 x).reverse = spell base.toNat x.toNat := by
  by_cases hx : x.toNat = 0
  · have : x = 0 := UInt32.toNat_inj.mp hx
    subst this
    simp [fillDigits, spell]
  · have hlt : x.toNat < base.toNat ^ 32 :=
      lt_of_lt_of_le x.toNat_lt (Nat.pow_le_pow_left hb 32)
    rw [fillDigits_eq_digits hb (by omega) hlt, spell, if_neg hx]

theorem printint_eq (xx : Int32) {base : UInt32} (sgn : Bool) (hb : 1 < base.toNat) :
    printint xx base sgn = (if sgn ∧ xx < 0 then [45] else []) ++
      spell base.toNat (if sgn ∧ xx < 0 then (-xx).toUInt32 else xx.toUInt32).toNat := by
  unfold printint
  by_cases h : sgn ∧ xx < 0
  · simp [h, reverse_fillDigits hb]
  · have : (sgn && decide (xx < 0)) = false := by simpa using h
    simp [this, h, reverse_fillDigits hb]

theorem toNat_toUInt32_neg {x : Int32} (h : x < 0) : (-x).toUInt32.toNat = x.toInt.natAbs := by
  rw [Int32.toUInt32_neg, UInt32.toNat_neg]
  have hint : x.toInt = x.toBitVec.toInt := rfl
  have hnat : x.toUInt32.toNat = x.toBitVec.toNat := rfl
  have hcond := BitVec.toInt_eq_toNat_cond x.toBitVec
  have hlt := x.toBitVec.isLt
  rw [Int32.lt_iff_toInt_lt, Int32.toInt_zero] at h
  rw [hnat]
  split_ifs at hcond <;> simp only [UInt32.size] <;> omega

theorem toNat_toUInt32_of_nonneg {x : Int32} (h : 0 ≤ x) : x.toUInt32.toNat = x.toInt.natAbs := by
  have hint : x.toInt = x.toBitVec.toInt := rfl
  have hnat : x.toUInt32.toNat = x.toBitVec.toNat := rfl
  have hcond := BitVec.toInt_eq_toNat_cond x.toBitVec
  have hlt := x.toBitVec.isLt
  rw [Int32.le_iff_toInt_le, Int32.toInt_zero] at h
  rw [hnat]
  split_ifs at hcond <;> omega

theorem printint_signed (v : Int32) : printint v 10 true = signedDecimal v.toInt := by
  rw [printint_eq v true (by decide), signedDecimal]
  by_cases h : v < 0
  · have h' : v.toInt < 0 := by simpa [Int32.lt_iff_toInt_lt] using h
    have hc : true ∧ v < 0 := ⟨rfl, h⟩
    rw [if_pos hc, if_pos hc, if_pos h', toNat_toUInt32_neg h]
    rfl
  · have h' : ¬v.toInt < 0 := by simpa [Int32.lt_iff_toInt_lt] using h
    have hc : ¬(true ∧ v < 0) := fun hc => h hc.2
    rw [if_neg hc, if_neg hc, if_neg h', toNat_toUInt32_of_nonneg (Int32.not_lt.mp h)]
    rfl

theorem printint_unsigned (v : Int32) {base : UInt32} (hb : 1 < base.toNat) :
    printint v base false = spell base.toNat v.toUInt32.toNat := by
  simp [printint_eq v false hb]

theorem nibble_eq (a : UInt64) {i : Nat} (hi : i < 16) :
    ((a <<< (4 * i).toUInt64) >>> 60).toNat = a.toNat / 16 ^ (15 - i) % 16 := by
  have hj : (4 * i).toUInt64.toNat % 64 = 4 * i := by
    rw [Nat.toUInt64_eq, UInt64.toNat_ofNat']; omega
  rw [UInt64.toNat_shiftRight, UInt64.toNat_shiftLeft, hj, Nat.shiftLeft_eq, Nat.shiftRight_eq_div_pow]
  -- the shift left drops the top `4 * i` bits, the shift right keeps four of the rest
  have e64 : 2 ^ 64 = 2 ^ (64 - 4 * i) * 2 ^ (4 * i) := by rw [← pow_add]; congr 1; omega
  have e60 : 2 ^ (UInt64.toNat 60 % 64) = 2 ^ (60 - 4 * i) * 2 ^ (4 * i) := by
    rw [← pow_add, show UInt64.toNat 60 = 60 from rfl]; congr 1; omega
  have e16 : 16 ^ (15 - i) = 2 ^ (60 - 4 * i) := by
    rw [show 16 = 2 ^ 4 by rfl, ← pow_mul]; congr 1; omega
  have e64' : 2 ^ (64 - 4 * i) = 2 ^ (60 - 4 * i) * 16 := by
    rw [show (16 : Nat) = 2 ^ 4 by rfl, ← pow_add]; congr 1; omega
  rw [e64, Nat.mul_mod_mul_right, e60, Nat.mul_div_mul_right _ _ (by positivity), e16,
    ← Nat.mod_mul_right_div_self, e64']

theorem printptr_eq (x : UInt64) : printptr x = 48 :: 120 :: hex16 x.toNat := by
  simp only [printptr, hex16, List.cons.injEq, true_and]
  apply List.map_congr_left
  intro i hi
  rw [nibble_eq x (List.mem_range.mp hi)]

/-! ## `vprintf` -/

theorem conversion_eq (mem : Nat → UInt8) (c : UInt8) (ap : List UInt64) :
    conversion mem c ap = intended mem (fun a => spell 10 (a.toNat % 2 ^ 32)) c ap := by
  have h10 : 1 < (10 : UInt32).toNat := by decide
  have h16 : 1 < (16 : UInt32).toNat := by decide
  unfold conversion intended
  split_ifs <;>
    simp [printint_signed, printint_unsigned _ h10, printint_unsigned _ h16, printptr_eq,
      UInt64.toNat_toUInt32]

theorem walk_congr {conv conv' : UInt8 → List UInt64 → List UInt8 × List UInt64}
    (h : ∀ c ap, conv c ap = conv' c ap) (st : Bool) (fmt : List UInt8) (ap : List UInt64) :
    walk conv st fmt ap = walk conv' st fmt ap := by
  induction fmt generalizing st ap with
  | nil => cases st <;> rfl
  | cons c fmt ih => cases st <;> simp [walk, ih, h]

theorem vprintf_eq_walk (mem : Nat → UInt8) (fmt : List UInt8) (ap : List UInt64) :
    vprintf mem fmt ap = walk (intended mem fun a => spell 10 (a.toNat % 2 ^ 32)) false fmt ap :=
  walk_congr (conversion_eq mem) false fmt ap

/-- `%d` of `INT_MIN`. -/
example : vprintf (fun _ => 0) [37, 100] [0xFFFFFFFF80000000] =
    [45, 50, 49, 52, 55, 52, 56, 51, 54, 52, 56] := by
  decide

/-! ## Spelled numbers read back -/

/-- The digit a byte of `digits` stands for. -/
def undigit (c : UInt8) : Nat := digits.idxOf c

theorem undigit_digits : ∀ d, d < 16 → undigit (digits.getD d 0) = d := by decide

theorem ofDigits_spell {b : Nat} (hb : 1 < b) (hb16 : b ≤ 16) (n : Nat) :
    Nat.ofDigits b ((spell b n).reverse.map undigit) = n := by
  unfold spell
  split_ifs with hn
  · rw [List.reverse_singleton, List.map_singleton, undigit_digits 0 (by omega)]
    simp [hn]
  · rw [List.reverse_reverse, List.map_map]
    conv_rhs => rw [← Nat.ofDigits_digits b n]
    congr 1
    refine (List.map_congr_left fun d hd => ?_).trans (List.map_id _)
    exact undigit_digits d (lt_of_lt_of_le (Nat.digits_lt_base hb hd) hb16)

theorem spell_inj {b m n : Nat} (hb : 1 < b) (hb16 : b ≤ 16) (h : spell b m = spell b n) : m = n := by
  rw [← ofDigits_spell hb hb16 m, h, ofDigits_spell hb hb16 n]

/-- `%s` prints the C string at its address: the bytes up to the NUL. -/
theorem strFrom_cstring {mem : Nat → UInt8} {bs : List UInt8} :
    ∀ {p k : Nat}, (∀ i, (hi : i < bs.length) → mem (p + i) = bs[i] ∧ bs[i] ≠ 0) →
      mem (p + bs.length) = 0 → bs.length < k → strFrom mem k p = bs := by
  induction bs with
  | nil =>
    intro p k _ hz hk
    obtain ⟨k, rfl⟩ : ∃ j, k = j + 1 := ⟨k - 1, by simp at hk; omega⟩
    simp only [List.length_nil, Nat.add_zero] at hz
    simp [strFrom, hz]
  | cons b bs ih =>
    intro p k hb hz hk
    obtain ⟨k, rfl⟩ : ∃ j, k = j + 1 := ⟨k - 1, by simp at hk; omega⟩
    have h0 := hb 0 (by simp)
    simp only [Nat.add_zero, List.getElem_cons_zero] at h0
    rw [strFrom, if_neg (by rw [h0.1]; exact h0.2), h0.1]
    congr 1
    refine ih (fun i hi => ?_) ?_ (by simp at hk; omega)
    · have := hb (i + 1) (by simp; omega)
      simpa [Nat.add_assoc, Nat.add_comm 1 i] using this
    · simpa [Nat.add_assoc, Nat.add_comm 1] using hz

/-! ## `%l` -/

/-- `%l` prints its `uint64` modulo `2^32`: for every argument at or above
`2^32` that is not the argument's decimal. -/
theorem vprintf_long_wraps (mem : Nat → UInt8) (a : UInt64) (h : 2 ^ 32 ≤ a.toNat) :
    vprintf mem [37, 108] [a] = spell 10 (a.toNat % 2 ^ 32) ∧
      vprintf mem [37, 108] [a] ≠ format mem [37, 108] [a] := by
  have hout : vprintf mem [37, 108] [a] = spell 10 (a.toNat % 2 ^ 32) := by
    simp [vprintf_eq_walk, walk, intended]
  refine ⟨hout, fun he => ?_⟩
  have hsame : spell 10 (a.toNat % 2 ^ 32) = spell 10 a.toNat := by
    simpa [hout, format, walk, intended] using he
  have := spell_inj (by norm_num) (by norm_num) hsame
  omega

theorem vprintf_long_two_pow :
    2 ^ 32 ≤ (4294967296 : UInt64).toNat ∧
      (vprintf (fun _ => 0) [37, 108] [4294967296] = spell 10 ((4294967296 : UInt64).toNat % 2 ^ 32) ∧
        vprintf (fun _ => 0) [37, 108] [4294967296] ≠ format (fun _ => 0) [37, 108] [4294967296]) :=
  ⟨by decide, vprintf_long_wraps _ _ (by decide)⟩

end Xv6.Printf
