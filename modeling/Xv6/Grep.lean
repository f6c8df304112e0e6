import Mathlib

/-!
# `grep` (`user/grep.c`)

The matcher of Kernighan and Pike, on C strings as byte lists without their
`NUL`. `matchstar(c, re, text)` calls `matchhere(re, ·)` only, on suffixes of
`text`, so it takes that function as an argument: `matchhere` recurses on the
pattern and `matchstar` on the text, and both terminate.

The language of a pattern is read off it the way `matchhere` reads it
(`atoms`): a byte followed by `*` repeats, a final `$` anchors at the end, and
every other byte is one literal byte or, for `.`, any byte.
-/

namespace Xv6.Grep

/-- `matchstar(c, re, text)`, where `here` is `matchhere(re, ·)`. -/
def matchstar (c : UInt8) (here : List UInt8 → Bool) : List UInt8 → Bool
  | [] => here []
  | t :: text => here (t :: text) || ((t == c || c == 46) && matchstar c here text)

/-- `matchhere(re, text)`: `re` matches a prefix of `text`. -/
def matchhere : List UInt8 → List UInt8 → Bool
  | [], _ => true
  | c :: 42 :: re, text => matchstar c (matchhere re) text
  | [36], text => text.isEmpty
  | c :: re, t :: text => (c == 46 || c == t) && matchhere re text
  | _ :: _, [] => false

/-- The loop of `match` over the start offsets, the empty suffix included. -/
def matchLoop (re : List UInt8) : List UInt8 → Bool
  | [] => matchhere re []
  | t :: text => matchhere re (t :: text) || matchLoop re text

/-- `match(re, text)`. -/
def «match» : List UInt8 → List UInt8 → Bool
  | 94 :: re, text => matchhere re text
  | re, text => matchLoop re text

/-! ## The language of a pattern -/

/-- One pattern byte: a literal, or `.` for any byte; `star` when it repeats. -/
structure Atom where
  c : UInt8
  star : Bool
  deriving DecidableEq, Repr

/-- The byte `b` is one occurrence of `a`. -/
def Atom.accepts (a : Atom) (b : UInt8) : Prop := a.c = 46 ∨ a.c = b

instance (a : Atom) : DecidablePred a.accepts := fun _ => inferInstanceAs (Decidable (_ ∨ _))

/-- The atoms of a pattern after its `^`, and whether it ends in the anchor `$`. -/
def atoms : List UInt8 → List Atom × Bool
  | [] => ([], false)
  | c :: 42 :: re => (⟨c, true⟩ :: (atoms re).1, (atoms re).2)
  | [36] => ([], true)
  | c :: re => (⟨c, false⟩ :: (atoms re).1, (atoms re).2)

/-- The strings that the atoms match one after the other. -/
def Lang : List Atom → List UInt8 → Prop
  | [], w => w = []
  | a :: as, w =>
    if a.star then ∃ u v, w = u ++ v ∧ (∀ b ∈ u, a.accepts b) ∧ Lang as v
    else ∃ b v, w = b :: v ∧ a.accepts b ∧ Lang as v

/-- A pattern: anchored at the start, its atoms, anchored at the end. -/
structure Pattern where
  start : Bool
  atoms : List Atom
  stop : Bool

/-- How `match` reads a pattern: a leading `^`, then `atoms`. -/
def parse : List UInt8 → Pattern
  | 94 :: re => ⟨true, (atoms re).1, (atoms re).2⟩
  | re => ⟨false, (atoms re).1, (atoms re).2⟩

/-- Some substring of `text` is in the language of `p`, at offset `0` when
`p` is anchored at the start and ending at the end when anchored there. -/
def Matches (p : Pattern) (text : List UInt8) : Prop :=
  ∃ i j, i ≤ j ∧ j ≤ text.length ∧ (p.start → i = 0) ∧ (p.stop → j = text.length) ∧
    Lang p.atoms ((text.drop i).take (j - i))

/-! ## `match` decides the language -/

/-- `matchstar` tries every number of occurrences of `c`. -/
theorem matchstar_eq_true (c : UInt8) (here : List UInt8 → Bool) (text : List UInt8) :
    matchstar c here text = true ↔
      ∃ u v, text = u ++ v ∧ (∀ b ∈ u, (⟨c, true⟩ : Atom).accepts b) ∧ here v = true := by
  induction text with
  | nil => simp [matchstar]
  | cons t text ih =>
    simp only [matchstar, Bool.or_eq_true, Bool.and_eq_true, beq_iff_eq, ih]
    constructor
    · rintro (hh | ⟨ht, u, v, rfl, hu, hv⟩)
      · exact ⟨[], t :: text, rfl, by simp, hh⟩
      · refine ⟨t :: u, v, rfl, ?_, hv⟩
        simp only [List.mem_cons, forall_eq_or_imp]
        exact ⟨by rcases ht with ht | ht <;> simp [Atom.accepts, ht], hu⟩
    · rintro ⟨_ | ⟨b, u⟩, v, huv, hu, hv⟩
      · rw [List.nil_append] at huv
        subst huv
        exact .inl hv
      · simp only [List.cons_append, List.cons.injEq] at huv
        obtain ⟨rfl, rfl⟩ := huv
        simp only [List.mem_cons, forall_eq_or_imp, Atom.accepts] at hu
        refine .inr ⟨by rcases hu.1 with h | h <;> simp [h], u, v, rfl, hu.2, hv⟩

@[simp] theorem lang_nil (w : List UInt8) : Lang [] w ↔ w = [] := Iff.rfl

theorem lang_star {a : Atom} {as : List Atom} {w : List UInt8} (ha : a.star = true) :
    Lang (a :: as) w ↔ ∃ u v, w = u ++ v ∧ (∀ b ∈ u, a.accepts b) ∧ Lang as v := by
  simp [Lang, ha]

theorem lang_one {a : Atom} {as : List Atom} {w : List UInt8} (ha : a.star = false) :
    Lang (a :: as) w ↔ ∃ b v, w = b :: v ∧ a.accepts b ∧ Lang as v := by
  simp [Lang, ha]

/-- A prefix of `text` is in the language of `re`, all of `text` when `re`
ends in the anchor `$`. -/
def Here (re text : List UInt8) : Prop :=
  ∃ u v, text = u ++ v ∧ Lang (atoms re).1 u ∧ ((atoms re).2 = true → v = [])

theorem matchhere_star {c : UInt8} {re : List UInt8} (ih : ∀ text, matchhere re text = true ↔ Here re text)
    (text : List UInt8) : matchhere (c :: 42 :: re) text = true ↔ Here (c :: 42 :: re) text := by
  rw [matchhere, matchstar_eq_true]
  simp only [Here, atoms, lang_star (show (⟨c, true⟩ : Atom).star = true from rfl)]
  constructor
  · rintro ⟨u, v, rfl, hu, hv⟩
    obtain ⟨w, x, rfl, hw, hx⟩ := (ih v).mp hv
    exact ⟨u ++ w, x, by simp, ⟨u, w, rfl, hu, hw⟩, hx⟩
  · rintro ⟨_, x, rfl, ⟨u, w, rfl, hu, hw⟩, hx⟩
    exact ⟨u, w ++ x, by simp, hu, (ih _).mpr ⟨w, x, rfl, hw, hx⟩⟩

theorem matchhere_one {c : UInt8} {re : List UInt8} (h42 : ∀ r, re = 42 :: r → False)
    (h36 : c = 36 → re = [] → False) (ih : ∀ text, matchhere re text = true ↔ Here re text)
    (text : List UInt8) : matchhere (c :: re) text = true ↔ Here (c :: re) text := by
  simp only [Here, atoms.eq_4 c re h42 h36, lang_one (show (⟨c, false⟩ : Atom).star = false from rfl)]
  cases text with
  | nil =>
    rw [matchhere.eq_5 c re h42 h36, Bool.false_eq_true, false_iff]
    rintro ⟨_, _, h, ⟨b, u, rfl, -⟩, -⟩
    simp at h
  | cons t text =>
    rw [matchhere.eq_4 c re t text h42 h36, Bool.and_eq_true, Bool.or_eq_true, beq_iff_eq, beq_iff_eq, ih]
    constructor
    · rintro ⟨ht, w, x, rfl, hw, hx⟩
      exact ⟨t :: w, x, rfl, ⟨t, w, rfl, ht, hw⟩, hx⟩
    · rintro ⟨_, x, h, ⟨b, w, rfl, hb, hw⟩, hx⟩
      simp only [List.cons_append, List.cons.injEq] at h
      obtain ⟨rfl, rfl⟩ := h
      exact ⟨hb, w, x, rfl, hw, hx⟩

/-- `matchhere` decides whether a prefix of `text` is in the language of the
pattern, the whole text when the pattern ends in `$`. -/
theorem matchhere_eq_true : ∀ re text : List UInt8, matchhere re text = true ↔ Here re text
  | [], text => by
    simp only [matchhere, Here, atoms, lang_nil, true_iff]
    exact ⟨[], text, rfl, rfl, fun h => absurd h Bool.false_ne_true⟩
  | [c], text => by
    by_cases hc : c = 36
    · subst hc
      simp only [matchhere, Here, atoms, lang_nil, List.isEmpty_iff, forall_const]
      constructor
      · rintro rfl
        exact ⟨[], [], rfl, rfl, rfl⟩
      · rintro ⟨_, _, rfl, rfl, rfl⟩
        rfl
    · exact matchhere_one (by simp) (fun h _ => hc h) (matchhere_eq_true []) text
  | c :: r@hr:(d :: re), text => by
    by_cases hd : d = 42
    · subst hd hr
      exact matchhere_star (matchhere_eq_true re) text
    · show matchhere (c :: d :: re) text = true ↔ Here (c :: d :: re) text
      have ih := matchhere_eq_true r
      rw [hr] at ih
      exact matchhere_one (by simpa using hd) (by simp) ih text

theorem matchLoop_eq_true (re text : List UInt8) :
    matchLoop re text = true ↔ ∃ i ≤ text.length, matchhere re (text.drop i) = true := by
  induction text with
  | nil => simp [matchLoop]
  | cons t text ih =>
    rw [matchLoop, Bool.or_eq_true, ih]
    constructor
    · rintro (h | ⟨i, hi, h⟩)
      · exact ⟨0, Nat.zero_le _, h⟩
      · exact ⟨i + 1, by simpa using hi, h⟩
    · rintro ⟨_ | i, hi, h⟩
      · exact .inl h
      · exact .inr ⟨i, by simpa using hi, h⟩

theorem here_drop_iff (re text : List UInt8) {i : Nat} (hi : i ≤ text.length) :
    Here re (text.drop i) ↔ ∃ j, i ≤ j ∧ j ≤ text.length ∧ ((atoms re).2 = true → j = text.length) ∧
      Lang (atoms re).1 ((text.drop i).take (j - i)) := by
  constructor
  · rintro ⟨u, v, h, hu, hv⟩
    have hlen : text.length - i = u.length + v.length := by
      rw [← List.length_drop, h, List.length_append]
    refine ⟨i + u.length, by omega, by omega, fun hs => ?_, ?_⟩
    · have := hv hs
      subst this
      simp at hlen
      omega
    · rw [h, Nat.add_sub_cancel_left, List.take_left]
      exact hu
  · rintro ⟨j, hij, hj, hs, hl⟩
    refine ⟨(text.drop i).take (j - i), (text.drop i).drop (j - i), (List.take_append_drop _ _).symm, hl,
      fun h => ?_⟩
    rw [hs h, List.drop_drop]
    simp [show i + (text.length - i) = text.length by omega]

/-- `match(re, text)` decides whether some substring of `text` is in the
language of the pattern, at the start and at the end where it is anchored. -/
theorem match_eq_true (re text : List UInt8) : «match» re text = true ↔ Matches (parse re) text := by
  by_cases h94 : ∃ r, re = 94 :: r
  · obtain ⟨re, rfl⟩ := h94
    rw [«match», parse, matchhere_eq_true, ← List.drop_zero (l := text), here_drop_iff re text (Nat.zero_le _)]
    simp only [Matches, List.drop_zero, forall_const]
    constructor
    · rintro ⟨j, -, hj, hs, hl⟩
      exact ⟨0, j, Nat.zero_le _, hj, rfl, hs, hl⟩
    · rintro ⟨i, j, -, hj, hi, hs, hl⟩
      obtain rfl := hi
      exact ⟨j, Nat.zero_le _, hj, hs, hl⟩
  · have h94' : ∀ r, re = 94 :: r → False := fun r h => h94 ⟨r, h⟩
    rw [«match».eq_2 re text h94', parse.eq_2 re h94', matchLoop_eq_true]
    simp only [Matches, Bool.false_eq_true, false_implies, true_and]
    constructor
    · rintro ⟨i, hi, h⟩
      obtain ⟨j, hij, hj, hs, hl⟩ := (here_drop_iff re text hi).mp ((matchhere_eq_true re _).mp h)
      exact ⟨i, j, hij, hj, hs, hl⟩
    · rintro ⟨i, j, hij, hj, hs, hl⟩
      exact ⟨i, by omega, (matchhere_eq_true re _).mpr ((here_drop_iff re text (by omega)).mpr ⟨j, hij, hj, hs, hl⟩)⟩

example : «match» [94, 97, 42, 98, 36] [97, 97, 98] = true := by decide

/-! ## `grep` -/

/-- `sizeof(buf)`. -/
def bufSize : Nat := 1024

/-- `strchr(s, c)` of `ulib.c`: the offset of the first `c` before the `NUL`. -/
def strchr (s : List UInt8) (c : UInt8) : Option Nat :=
  match s with
  | [] => none
  | b :: s => if b = 0 then none else if b = c then some 0 else (strchr s c).map (· + 1)

/-- The loop of `grep` over the lines in `buf` from `p`, at most `n` passes:
what it writes, and the bytes left from `p` to `buf + m`. -/
def lineLoop (pattern : List UInt8) : Nat → List UInt8 → List UInt8 × List UInt8
  | 0, p => ([], p)
  | n + 1, p =>
    match strchr p 10 with
    | none => ([], p)
    | some i =>
      let r := lineLoop pattern n (p.drop (i + 1))
      ((if «match» pattern (p.take i) then p.take i ++ [10] else []) ++ r.1, r.2)

/-- `read(fd, buf + m, k)` on the bytes `inp` still to come: how many it
returns. Each entry `j` of `ks` bounds one call by `j + 1`; after them each
call returns all it may. -/
def readLen (k : Nat) (inp : List UInt8) (ks : List Nat) : Nat × List Nat :=
  match ks with
  | [] => (min k inp.length, [])
  | j :: ks => (min (min (j + 1) k) inp.length, ks)

/-- The outer loop of `grep`, with `buf` holding the bytes of a partial line,
at most `n` more `read`s: what it writes. -/
def grepLoop (pattern : List UInt8) : Nat → List UInt8 → List UInt8 → List Nat → List UInt8
  | 0, _, _, _ => []
  | n + 1, buf, inp, ks =>
    let r := readLen (bufSize - buf.length - 1) inp ks
    if r.1 = 0 then []
    else
      let b := buf ++ inp.take r.1
      let l := lineLoop pattern b.length b
      l.1 ++ grepLoop pattern n l.2 (inp.drop r.1) r.2

/-- `grep(pattern, fd)` on the input `inp`, with `read` sizes chosen by `ks`:
what it writes to fd 1. Each `read` takes at least one byte. -/
def grep (pattern inp : List UInt8) (ks : List Nat) : List UInt8 :=
  grepLoop pattern (inp.length + 1) [] inp ks

/-- The lines of `s` that a `'\n'` ends, without it. -/
def lines (s : List UInt8) : List (List UInt8) := (s.splitOn 10).dropLast

/-- What `grep` is to write: each line that matches, with its `'\n'`. -/
def grepSpec (pattern s : List UInt8) : List UInt8 :=
  ((lines s).filter fun l => «match» pattern l).flatMap (· ++ [10])

theorem lines_of_not_mem {s : List UInt8} (h : (10 : UInt8) ∉ s) : lines s = [] := by
  rw [lines, List.splitOn_eq_singleton h, List.dropLast_singleton]

theorem lines_append_cons {xs : List UInt8} (h : (10 : UInt8) ∉ xs) (ys : List UInt8) :
    lines (xs ++ 10 :: ys) = xs :: lines ys := by
  rw [lines, List.splitOn_append_cons_self_of_not_mem h, List.dropLast_cons_of_ne_nil (List.splitOn_ne_nil _ _),
    lines]

theorem strchr_eq_some {s : List UInt8} {c : UInt8} {i : Nat} (h0 : ∀ b ∈ s, b ≠ 0)
    (h : strchr s c = some i) : s = s.take i ++ c :: s.drop (i + 1) ∧ c ∉ s.take i := by
  induction s generalizing i with
  | nil => simp [strchr] at h
  | cons b s ih =>
    have hb : b ≠ 0 := h0 b (List.mem_cons_self ..)
    rw [strchr, if_neg hb] at h
    split at h
    · next hbc =>
      obtain rfl := Option.some.inj h
      simp [hbc]
    · next hbc =>
      obtain ⟨j, hj, rfl⟩ := Option.map_eq_some_iff.mp h
      obtain ⟨e, hn⟩ := ih (fun x hx => h0 x (List.mem_cons_of_mem _ hx)) hj
      refine ⟨by simp only [List.take_succ_cons, List.drop_succ_cons, List.cons_append, ← e], ?_⟩
      simp only [List.take_succ_cons, List.mem_cons, not_or]
      exact ⟨Ne.symm hbc, hn⟩

theorem strchr_eq_none {s : List UInt8} {c : UInt8} (h0 : ∀ b ∈ s, b ≠ 0) (h : strchr s c = none) : c ∉ s := by
  induction s with
  | nil => simp
  | cons b s ih =>
    have hb : b ≠ 0 := h0 b (List.mem_cons_self ..)
    rw [strchr, if_neg hb] at h
    split at h
    · cases h
    · next hbc =>
      simp only [List.mem_cons, not_or]
      exact ⟨Ne.symm hbc, ih (fun x hx => h0 x (List.mem_cons_of_mem _ hx)) (Option.map_eq_none_iff.mp h)⟩

/-- The line loop writes the matching lines it finds and leaves the partial
last one: the lines of `p` followed by anything are the lines it took, then
those of what it left followed by the same. -/
theorem lineLoop_spec (pattern : List UInt8) : ∀ (n : Nat) (p : List UInt8), p.length ≤ n → (∀ b ∈ p, b ≠ 0) →
    ∃ ls, (∀ r, lines (p ++ r) = ls ++ lines ((lineLoop pattern n p).2 ++ r)) ∧
      (lineLoop pattern n p).1 = (ls.filter fun l => «match» pattern l).flatMap (· ++ [10]) ∧
      (10 : UInt8) ∉ (lineLoop pattern n p).2 ∧ (lineLoop pattern n p).2 <:+ p
  | 0, p, hn, _ => by
    obtain rfl := List.eq_nil_of_length_eq_zero (Nat.le_zero.mp hn)
    exact ⟨[], fun r => rfl, rfl, List.not_mem_nil, List.suffix_refl _⟩
  | n + 1, p, hn, h0 => by
    rw [lineLoop]
    split
    · next hs =>
      exact ⟨[], fun r => rfl, rfl, strchr_eq_none h0 hs, List.suffix_refl _⟩
    · next i hs =>
      obtain ⟨e, hx⟩ := strchr_eq_some h0 hs
      have hys : (p.drop (i + 1)).length ≤ n := by simp; omega
      obtain ⟨ls, hl, ho, hL, hsuf⟩ := lineLoop_spec pattern n (p.drop (i + 1)) hys
        (fun b hb => h0 b (List.mem_of_mem_drop hb))
      refine ⟨p.take i :: ls, fun r => ?_, ?_, hL, hsuf.trans (List.drop_suffix _ _)⟩
      · have e' : p ++ r = p.take i ++ 10 :: (p.drop (i + 1) ++ r) := by
          conv_lhs => rw [e]
          simp
        dsimp only
        rw [e', lines_append_cons hx, hl, List.cons_append]
      · dsimp only
        rw [ho, List.filter_cons]
        split <;> simp

theorem readLen_le (k : Nat) (inp : List UInt8) (ks : List Nat) : (readLen k inp ks).1 ≤ inp.length := by
  cases ks <;> simp [readLen]

theorem readLen_eq_zero {k : Nat} {inp : List UInt8} {ks : List Nat} (h : (readLen k inp ks).1 = 0) :
    k = 0 ∨ inp = [] := by
  have : k = 0 ∨ inp.length = 0 := by
    cases ks <;> simp only [readLen] at h <;> omega
  rcases this with h | h
  · exact .inl h
  · exact .inr (List.eq_nil_of_length_eq_zero h)

theorem not_mem_of_full {buf inp : List UInt8} (hb : (10 : UInt8) ∉ buf) (h0 : ∀ b ∈ inp, b ≠ 0)
    (hl : ∀ l ∈ lines (buf ++ inp), l.length + 1 ≤ bufSize - 1) (hk : bufSize - buf.length - 1 = 0) :
    (10 : UInt8) ∉ buf ++ inp := by
  intro h
  have hi : (10 : UInt8) ∈ inp := (List.mem_append.mp h).resolve_left hb
  obtain ⟨i, hs⟩ := Option.ne_none_iff_exists'.mp fun hs => strchr_eq_none h0 hs hi
  obtain ⟨e, hx⟩ := strchr_eq_some h0 hs
  have hx' : (10 : UInt8) ∉ buf ++ inp.take i := by simp [hb, hx]
  have e2 : buf ++ inp = (buf ++ inp.take i) ++ 10 :: inp.drop (i + 1) := by
    conv_lhs => rw [e]
    simp
  have hline := hl (buf ++ inp.take i) (by rw [e2, lines_append_cons hx']; exact List.mem_cons_self ..)
  simp only [List.length_append, bufSize] at hline hk
  omega

/-- `grep`'s outer loop writes what the lines of the rest of the input call
for, whatever sizes `read` returns. -/
theorem grepLoop_spec (pattern : List UInt8) : ∀ (n : Nat) (buf inp : List UInt8) (ks : List Nat),
    inp.length < n → (10 : UInt8) ∉ buf → (∀ b ∈ buf ++ inp, b ≠ 0) →
    (∀ l ∈ lines (buf ++ inp), l.length + 1 ≤ bufSize - 1) →
    grepLoop pattern n buf inp ks = grepSpec pattern (buf ++ inp)
  | 0, _, _, _, hn, _, _, _ => absurd hn (Nat.not_lt_zero _)
  | n + 1, buf, inp, ks, hn, hb, h0, hl => by
    have hle := readLen_le (bufSize - buf.length - 1) inp ks
    have hz : (readLen (bufSize - buf.length - 1) inp ks).1 = 0 → _ := readLen_eq_zero
    rw [grepLoop]
    generalize readLen (bufSize - buf.length - 1) inp ks = r at hle hz ⊢
    dsimp only
    split
    · next hr =>
      -- `read` returned nothing: the input is over, or `buf` is full
      have hno : (10 : UInt8) ∉ buf ++ inp := by
        rcases hz hr with hk | rfl
        · exact not_mem_of_full hb (fun b hb' => h0 b (List.mem_append_right _ hb')) hl hk
        · simpa using hb
      rw [grepSpec, lines_of_not_mem hno]
      rfl
    · next hr =>
      have e : buf ++ inp = (buf ++ inp.take r.1) ++ inp.drop r.1 := by simp
      obtain ⟨ls, hlines, hout, hL, hsuf⟩ := lineLoop_spec pattern _ (buf ++ inp.take r.1) le_rfl
        (fun b hb' => h0 b (by rw [e]; exact List.mem_append_left _ hb'))
      have hl2 := hlines (inp.drop r.1)
      rw [← e] at hl2
      rw [hout, grepLoop_spec pattern n _ (inp.drop r.1) r.2 (by simp; omega) hL ?_ ?_, grepSpec, grepSpec, hl2,
        List.filter_append, List.flatMap_append]
      · intro b hb'
        rcases List.mem_append.mp hb' with hb' | hb'
        · exact h0 b (by rw [e]; exact List.mem_append_left _ (hsuf.subset hb'))
        · exact h0 b (List.mem_append_right _ (List.mem_of_mem_drop hb'))
      · intro l hl'
        exact hl l (by rw [hl2]; exact List.mem_append_right _ hl')

theorem grep_eq_spec (pattern s : List UInt8) (ks : List Nat) (h0 : ∀ b ∈ s, b ≠ 0)
    (hl : ∀ l ∈ lines s, l.length + 1 ≤ bufSize - 1) : grep pattern s ks = grepSpec pattern s :=
  grepLoop_spec pattern _ [] s ks (Nat.lt_succ_self _) List.not_mem_nil h0 hl

/-- Three lines read one byte at a time. -/
def threeLines : List UInt8 := [97, 98, 10, 99, 10, 97, 10]

theorem grep_eq_spec_threeLines :
    (∀ b ∈ threeLines, b ≠ 0) ∧ (∀ l ∈ lines threeLines, l.length + 1 ≤ bufSize - 1) ∧
      grep [97] threeLines [0, 0, 0, 0, 0, 0, 0] = grepSpec [97] threeLines :=
  ⟨by decide +kernel, by decide +kernel, grep_eq_spec [97] threeLines _ (by decide +kernel) (by decide +kernel)⟩

end Xv6.Grep
