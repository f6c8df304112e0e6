import Mathlib

/-!
# The shell's tokens

`gettoken` and `peek` of `sh.c` read the command line through a cursor that
runs up to `es`, the end of the line. The cursor is the list of bytes from it
to `es`; the pointer it stands for is the index `es - n` when `n` bytes are
left, and `*s` at the end reads the line's NUL (`headD 0`).

`Lex` is what the grammar reads the line as: whitespace between tokens, a
word is a maximal run of bytes outside `whitespace` and `symbols`, and `>>`
is one token. `gettoken_lex` and `peek_lex` say that `gettoken` returns the
next token of `Lex` with a word's positions and leaves the cursor on the
rest, and that `peek` sees that token's first byte; the parser is related
to the grammar through these two lemmas only.
-/

namespace Xv6.Sh

/-- A byte of the line as C writes it, `'c'`. -/
def ch (c : Char) : UInt8 := c.toUInt8

/-- `char whitespace[] = " \t\r\n\v";` -/
def whitespace : List UInt8 := [ch ' ', 9, 13, 10, 11]

/-- `char symbols[] = "<|>&;()";` -/
def symbols : List UInt8 := [ch '<', ch '|', ch '>', ch '&', ch ';', ch '(', ch ')']

/-- `strchr(s, c) != 0`: `c` is a byte of `s`, or `0`, which matches the
terminator. -/
def strchr (s : List UInt8) (c : UInt8) : Bool := c == 0 || s.contains c

/-- `while(s < es && strchr(whitespace, *s)) s++;` -/
def skipWs (s : List UInt8) : List UInt8 := s.dropWhile (strchr whitespace)

/-- `while(s < es && !strchr(whitespace, *s) && !strchr(symbols, *s)) s++;` -/
def skipWord (s : List UInt8) : List UInt8 :=
  s.dropWhile fun c => !strchr whitespace c && !strchr symbols c

/-- What `gettoken` hands back: the token's code, `*q`, `*eq`, and `*ps`
after the token. -/
structure Got where
  ret : UInt8
  q : Nat
  eq : Nat
  ps : List UInt8

/-- `gettoken(ps, es, &q, &eq)` -/
def gettoken (es : Nat) (ps : List UInt8) : Got :=
  let s := skipWs ps
  let (ret, t) : UInt8 × List UInt8 :=
    match s with
    | [] => (0, [])
    | c :: t =>
      if c = 0 then (0, s)
      else if c ∈ [ch '|', ch '(', ch ')', ch ';', ch '&', ch '<'] then (c, t)
      else if c = ch '>' then
        if t.headD 0 = ch '>' then (ch '+', t.tail) else (c, t)
      else (ch 'a', skipWord s)
  ⟨ret, es - s.length, es - t.length, skipWs t⟩

/-- `peek(ps, es, toks)`: whether the byte after the whitespace is one of
`toks`, and `*ps` moved to it. -/
def peek (ps toks : List UInt8) : Bool × List UInt8 :=
  let s := skipWs ps
  (s.headD 0 != 0 && strchr toks (s.headD 0), s)

/-! ## The tokens of the grammar -/

/-- A token; a word keeps the positions of its first byte and of the byte
after it. -/
inductive Tok
  | word (q eq : Nat)
  | lt | gt | app | pipe | amp | semi | lp | rp
  deriving DecidableEq, Repr

/-- The code `gettoken` returns for a token. -/
def Tok.code : Tok → UInt8
  | .word .. => ch 'a'
  | .lt => ch '<'
  | .gt => ch '>'
  | .app => ch '+'
  | .pipe => ch '|'
  | .amp => ch '&'
  | .semi => ch ';'
  | .lp => ch '('
  | .rp => ch ')'

/-- The first byte of a symbol token. -/
def Tok.lead? : Tok → Option UInt8
  | .word .. => none
  | .app => some (ch '>')
  | t => some t.code

/-- The one-byte symbol tokens, `>` apart. -/
def symTok (c : UInt8) : Option Tok :=
  [Tok.lt, .pipe, .amp, .semi, .lp, .rp].find? (·.code = c)

/-- A byte that can stand in a word. -/
def WordByte (c : UInt8) : Prop := c ≠ 0 ∧ c ∉ whitespace ∧ c ∉ symbols

instance : DecidablePred WordByte := fun _ => inferInstanceAs (Decidable (_ ∧ _ ∧ _))

/-- The line read as tokens: whitespace between them, a word as long as it
can be, `>>` before `>`. Words are placed by `es`, the length of the line. -/
inductive Lex (es : Nat) : List UInt8 → List Tok → Prop
  | nil : Lex es [] []
  | ws {c : UInt8} {cs : List UInt8} {ts : List Tok} :
      c ∈ whitespace → Lex es cs ts → Lex es (c :: cs) ts
  | sym {c : UInt8} {t : Tok} {cs : List UInt8} {ts : List Tok} :
      symTok c = some t → Lex es cs ts → Lex es (c :: cs) (t :: ts)
  | gt {cs : List UInt8} {ts : List Tok} :
      cs.headD 0 ≠ ch '>' → Lex es cs ts → Lex es (ch '>' :: cs) (.gt :: ts)
  | app {cs : List UInt8} {ts : List Tok} : Lex es cs ts → Lex es (ch '>' :: ch '>' :: cs) (.app :: ts)
  | word {w cs : List UInt8} {ts : List Tok} :
      w ≠ [] → (∀ c ∈ w, WordByte c) → (∀ c ∈ cs.head?, ¬ WordByte c) → Lex es cs ts →
      Lex es (w ++ cs) (.word (es - (w ++ cs).length) (es - cs.length) :: ts)

/-- Whether `peek` with `toks` sees the first token of `ts`. -/
def nextIn (ts : List Tok) (toks : List UInt8) : Bool :=
  match ts.head?.bind Tok.lead? with
  | some c => toks.contains c
  | none => false

/-! ## Whitespace and words -/

theorem strchr_whitespace (c : UInt8) : strchr whitespace c = true ↔ c = 0 ∨ c ∈ whitespace := by
  simp [strchr]

theorem wordByte_iff (c : UInt8) : (!strchr whitespace c && !strchr symbols c) = true ↔ WordByte c := by
  simp only [strchr, WordByte, Bool.and_eq_true, Bool.not_eq_true', Bool.or_eq_false_iff,
    beq_eq_false_iff_ne, List.contains_eq_mem, decide_eq_false_iff_not]
  tauto

theorem skipWs_cons_of_mem {c : UInt8} {cs : List UInt8} (h : c ∈ whitespace) :
    skipWs (c :: cs) = skipWs cs := by
  simp [skipWs, strchr_whitespace, h]

theorem skipWs_cons {c : UInt8} {cs : List UInt8} (h0 : c ≠ 0) (h : c ∉ whitespace) :
    skipWs (c :: cs) = c :: cs := by
  simp [skipWs, strchr_whitespace, h0, h]

theorem skipWs_skipWs (cs : List UInt8) : skipWs (skipWs cs) = skipWs cs := by
  unfold skipWs
  induction cs with
  | nil => rfl
  | cons c cs ih =>
    by_cases hc : strchr whitespace c = true
    · rwa [List.dropWhile_cons_of_pos hc]
    · rw [List.dropWhile_cons_of_neg hc, List.dropWhile_cons_of_neg hc]

theorem skipWs_suffix (cs : List UInt8) : skipWs cs <:+ cs := List.dropWhile_suffix _

theorem head_skipWs {cs : List UInt8} {c : UInt8} {t : List UInt8} (h : skipWs cs = c :: t) :
    c ≠ 0 ∧ c ∉ whitespace := by
  induction cs with
  | nil => cases h
  | cons d cs ih =>
    by_cases hd : strchr whitespace d = true
    · rw [skipWs, List.dropWhile_cons_of_pos hd] at h
      exact ih h
    · rw [skipWs, List.dropWhile_cons_of_neg hd] at h
      cases h
      simpa [strchr_whitespace, not_or] using hd

theorem skipWord_append {w cs : List UInt8} (hw : ∀ c ∈ w, WordByte c)
    (hcs : ∀ c ∈ cs.head?, ¬ WordByte c) : skipWord (w ++ cs) = cs := by
  rw [skipWord, List.dropWhile_append_of_pos fun c hc => (wordByte_iff c).mpr (hw c hc)]
  cases cs with
  | nil => rfl
  | cons c cs =>
    have : ¬ WordByte c := hcs c rfl
    rw [List.dropWhile_cons_of_neg (by rwa [wordByte_iff])]

/-! ## The lexing -/

theorem sym_byte {c : UInt8} (hc : c ∈ [ch '|', ch '(', ch ')', ch ';', ch '&', ch '<']) :
    c ≠ 0 ∧ c ∉ whitespace := by
  simp only [List.mem_cons, List.not_mem_nil, or_false] at hc
  rcases hc with rfl | rfl | rfl | rfl | rfl | rfl <;> decide

theorem symTok_eq_some {c : UInt8} {t : Tok} (h : symTok c = some t) :
    t.code = c ∧ c ∈ [ch '|', ch '(', ch ')', ch ';', ch '&', ch '<'] ∧ t.lead? = some c := by
  have ht := List.mem_of_find?_eq_some h
  have hc : t.code = c := by simpa using List.find?_some h
  subst hc
  simp only [List.mem_cons, List.not_mem_nil, or_false] at ht
  rcases ht with rfl | rfl | rfl | rfl | rfl | rfl <;> decide

theorem Lex.dropWs {es : Nat} {cs : List UInt8} {ts : List Tok} (h : Lex es cs ts) :
    Lex es (skipWs cs) ts := by
  induction h with
  | nil => exact .nil
  | ws hc _ ih => rwa [skipWs_cons_of_mem hc]
  | sym ht h' _ =>
    obtain ⟨-, hc, -⟩ := symTok_eq_some ht
    rw [skipWs_cons (sym_byte hc).1 (sym_byte hc).2]
    exact .sym ht h'
  | gt hn h' _ => rw [skipWs_cons (by decide) (by decide)]; exact .gt hn h'
  | app h' _ => rw [skipWs_cons (by decide) (by decide)]; exact .app h'
  | @word w cs' _ hw hwb hcs h' _ =>
    obtain ⟨c, w', rfl⟩ := List.exists_cons_of_ne_nil hw
    rw [List.cons_append, skipWs_cons (hwb c (by simp)).1 (hwb c (by simp)).2.1, ← List.cons_append]
    exact .word hw hwb hcs h'

theorem Lex.skipWs_eq_nil {es : Nat} {cs : List UInt8} (h : Lex es cs []) : skipWs cs = [] := by
  generalize hts : ([] : List Tok) = ts at h
  induction h with
  | nil => rfl
  | ws hc _ ih => rw [skipWs_cons_of_mem hc]; exact ih hts
  | sym | gt | app | word => cases hts

/-! ## `gettoken` and `peek` -/

section Gettoken

variable {es : Nat} {cs : List UInt8}

theorem gettoken_skipWs (es : Nat) (cs : List UInt8) : gettoken es (skipWs cs) = gettoken es cs := by
  simp only [gettoken, skipWs_skipWs]

theorem gettoken_end (h : skipWs cs = []) : gettoken es cs = ⟨0, es, es, []⟩ := by
  simp only [gettoken, h]
  rfl

theorem gettoken_sym {c : UInt8} (hc : c ∈ [ch '|', ch '(', ch ')', ch ';', ch '&', ch '<']) :
    gettoken es (c :: cs) = ⟨c, es - (c :: cs).length, es - cs.length, skipWs cs⟩ := by
  simp only [gettoken, skipWs_cons (sym_byte hc).1 (sym_byte hc).2, if_neg (sym_byte hc).1, if_pos hc]

theorem gettoken_gt (hn : cs.headD 0 ≠ ch '>') :
    gettoken es (ch '>' :: cs) = ⟨ch '>', es - (cs.length + 1), es - cs.length, skipWs cs⟩ := by
  simp only [gettoken, skipWs_cons (by decide : ch '>' ≠ 0) (by decide), if_neg hn,
    if_neg (by decide : ch '>' ≠ 0), if_neg (by decide : ch '>' ∉ [ch '|', ch '(', ch ')', ch ';', ch '&', ch '<']),
    List.length_cons]
  rfl

theorem gettoken_app :
    gettoken es (ch '>' :: ch '>' :: cs) = ⟨ch '+', es - (cs.length + 2), es - cs.length, skipWs cs⟩ := by
  simp only [gettoken, skipWs_cons (by decide : ch '>' ≠ 0) (by decide), List.headD_cons, List.tail_cons,
    if_neg (by decide : ch '>' ≠ 0), if_neg (by decide : ch '>' ∉ [ch '|', ch '(', ch ')', ch ';', ch '&', ch '<']),
    List.length_cons]
  rfl

theorem gettoken_word {w : List UInt8} (hw : w ≠ []) (hwb : ∀ c ∈ w, WordByte c)
    (hcs : ∀ c ∈ cs.head?, ¬ WordByte c) :
    gettoken es (w ++ cs) = ⟨ch 'a', es - (w ++ cs).length, es - cs.length, skipWs cs⟩ := by
  obtain ⟨c, w', rfl⟩ := List.exists_cons_of_ne_nil hw
  obtain ⟨h0, hws, hsym⟩ := hwb c (by simp)
  have hsix : c ∉ [ch '|', ch '(', ch ')', ch ';', ch '&', ch '<'] := fun h => hsym (by
    simp only [List.mem_cons, List.not_mem_nil, or_false] at h
    rcases h with rfl | rfl | rfl | rfl | rfl | rfl <;> decide)
  have hgt : c ≠ ch '>' := fun h => hsym (h ▸ by decide)
  simp only [gettoken, List.cons_append, skipWs_cons h0 hws, if_neg h0, if_neg hsix, if_neg hgt]
  rw [← List.cons_append, skipWord_append hwb hcs]

/-- On a line whose next token is `t`, `gettoken` returns `t`'s code and,
for a word, its positions, and leaves the cursor on the tokens after `t`. -/
theorem gettoken_lex {t : Tok} {ts : List Tok} (h : Lex es cs (t :: ts)) :
    (gettoken es cs).ret = t.code ∧ Lex es (gettoken es cs).ps ts ∧
      ∀ q eq, t = .word q eq → (gettoken es cs).q = q ∧ (gettoken es cs).eq = eq := by
  rw [← gettoken_skipWs]
  have hhead : ∀ c ∈ (skipWs cs).head?, c ∉ whitespace := by
    intro c hc
    obtain ⟨t', ht'⟩ : ∃ t', skipWs cs = c :: t' := by
      cases hs : skipWs cs with
      | nil => rw [hs] at hc; cases hc
      | cons d t' => rw [hs] at hc; cases hc; exact ⟨t', rfl⟩
    exact (head_skipWs ht').2
  have hs := h.dropWs
  generalize skipWs cs = s at hs hhead
  -- the rule that read the first token says what `gettoken` does
  cases hs with
  | ws hc _ => exact absurd hc (hhead _ rfl)
  | sym ht hrest =>
    obtain ⟨hcode, hc, hlead⟩ := symTok_eq_some ht
    rw [gettoken_sym hc]
    refine ⟨hcode.symm, hrest.dropWs, ?_⟩
    rintro q eq rfl
    cases hlead
  | gt hn hrest =>
    rw [gettoken_gt hn]
    exact ⟨rfl, hrest.dropWs, fun _ _ h => by cases h⟩
  | app hrest =>
    rw [gettoken_app]
    exact ⟨rfl, hrest.dropWs, fun _ _ h => by cases h⟩
  | word hw hwb hcs hrest =>
    rw [gettoken_word hw hwb hcs]
    refine ⟨rfl, hrest.dropWs, ?_⟩
    intro q eq h
    cases h
    exact ⟨rfl, rfl⟩

/-- A token moves the cursor forward. -/
theorem gettoken_length_lt (h : skipWs cs ≠ []) : (gettoken es cs).ps.length < cs.length := by
  obtain ⟨c, t, hs⟩ := List.exists_cons_of_ne_nil h
  obtain ⟨h0, hws⟩ := head_skipWs hs
  have hlen : (c :: t).length ≤ cs.length := by rw [← hs]; exact (skipWs_suffix cs).length_le
  have hrest : ∀ r : List UInt8, r.length ≤ t.length → (skipWs r).length < cs.length := fun r hr =>
    lt_of_le_of_lt (skipWs_suffix r).length_le (by simp at hlen; omega)
  simp only [gettoken, hs, if_neg h0]
  split_ifs with hsix hgt hgt2
  · exact hrest t le_rfl
  · exact hrest _ (by simp)
  · exact hrest t le_rfl
  · -- a word byte: `skipWord` drops at least `c`
    have hw : (!strchr whitespace c && !strchr symbols c) = true := by
      rw [wordByte_iff]
      refine ⟨h0, hws, fun hc => ?_⟩
      simp only [symbols, List.mem_cons, List.not_mem_nil, or_false] at hc
      rcases hc with rfl | rfl | rfl | rfl | rfl | rfl | rfl <;> simp_all
    refine hrest _ ?_
    dsimp only
    rw [skipWord, List.dropWhile_cons_of_pos (p := fun c => !strchr whitespace c && !strchr symbols c) hw]
    exact (List.dropWhile_suffix _).length_le

theorem peek_byte {c : UInt8} (h0 : c ≠ 0) (toks : List UInt8) :
    (c != 0 && strchr toks c) = toks.contains c := by
  simp [strchr, bne, beq_eq_false_iff_ne.mpr h0]

/-- `peek` sees the first byte of the next token; with `toks` made of
symbols, a word is never seen. -/
theorem peek_lex {ts : List Tok} (h : Lex es cs ts) {toks : List UInt8} (htoks : ∀ c ∈ toks, c ∈ symbols) :
    peek cs toks = (nextIn ts toks, skipWs cs) := by
  simp only [peek, Prod.mk.injEq, and_true]
  have hs := h.dropWs
  cases ts with
  | nil => rw [h.skipWs_eq_nil]; rfl
  | cons t ts =>
    have hhead : ∀ c ∈ (skipWs cs).head?, c ∉ whitespace := fun c hc => by
      cases hs' : skipWs cs with
      | nil => rw [hs'] at hc; cases hc
      | cons d t' => rw [hs'] at hc; cases hc; exact (head_skipWs hs').2
    generalize skipWs cs = s at hs hhead
    cases hs with
    | ws hc _ => exact absurd hc (hhead _ rfl)
    | sym ht _ =>
      obtain ⟨-, hc, hlead⟩ := symTok_eq_some ht
      simp only [List.headD_cons, peek_byte (sym_byte hc).1, nextIn, List.head?_cons, Option.bind_some, hlead]
    | gt _ _ => simp only [List.headD_cons, peek_byte (by decide : ch '>' ≠ 0)]; rfl
    | app _ => simp only [List.headD_cons, peek_byte (by decide : ch '>' ≠ 0)]; rfl
    | @word w _ _ hw hwb _ _ =>
      obtain ⟨c, w', rfl⟩ := List.exists_cons_of_ne_nil hw
      obtain ⟨h0, -, hsym⟩ := hwb c (by simp)
      have hc : c ∉ toks := fun hc => hsym (htoks c hc)
      simp [nextIn, Tok.lead?, strchr, h0, hc]

end Gettoken

/-! ## One reading of a line -/

theorem Lex.nil_right {es : Nat} {ts : List Tok} (h : Lex es [] ts) : ts = [] := by
  generalize hcs : ([] : List UInt8) = cs at h
  cases h with
  | nil => rfl
  | ws => cases hcs
  | sym => cases hcs
  | gt => cases hcs
  | app => cases hcs
  | word hw => exact absurd (List.append_eq_nil_iff.mp hcs.symm).1 hw

theorem Tok.eq_of_code {t t' : Tok} (h : t.code = t'.code) (hw : ∀ q eq q' eq', t = .word q eq →
    t' = .word q' eq' → q = q' ∧ eq = eq') : t = t' := by
  cases t <;> cases t' <;> first
    | rfl
    | (simp only [Tok.code] at h; exact absurd h (by decide))
    | (obtain ⟨rfl, rfl⟩ := hw _ _ _ _ rfl rfl; rfl)

/-- A line is read as tokens one way only. -/
theorem Lex.unique {es : Nat} : ∀ {cs : List UInt8} {ts ts' : List Tok}, Lex es cs ts → Lex es cs ts' → ts = ts'
  | cs, [], [], _, _ => rfl
  | cs, [], _ :: _, h, h' => by
    have := h'.dropWs
    rw [h.skipWs_eq_nil] at this
    cases this.nil_right
  | cs, _ :: _, [], h, h' => by
    have := h.dropWs
    rw [h'.skipWs_eq_nil] at this
    cases this.nil_right
  | cs, t :: ts, t' :: ts', h, h' => by
    obtain ⟨hc, hl, hw⟩ := gettoken_lex h
    obtain ⟨hc', hl', hw'⟩ := gettoken_lex h'
    have hne : skipWs cs ≠ [] := fun h0 => by
      have := h.dropWs
      rw [h0] at this
      cases this.nil_right
    have := @gettoken_length_lt es cs hne
    have htt : t = t' := Tok.eq_of_code (hc.symm.trans hc') fun q eq q' eq' h1 h2 =>
      ⟨(hw q eq h1).1.symm.trans (hw' q' eq' h2).1, (hw q eq h1).2.symm.trans (hw' q' eq' h2).2⟩
    rw [htt, Lex.unique hl hl']
termination_by cs => cs.length

theorem Lex.of_dropWs {es : Nat} {cs : List UInt8} {ts : List Tok} (h0 : 0 ∉ cs) (h : Lex es (skipWs cs) ts) :
    Lex es cs ts := by
  induction cs with
  | nil => exact h
  | cons c cs ih =>
    have hc0 : c ≠ 0 := fun hc => h0 (hc ▸ List.mem_cons_self)
    by_cases hc : c ∈ whitespace
    · rw [skipWs_cons_of_mem hc] at h
      exact .ws hc (ih (fun h' => h0 (List.mem_cons_of_mem c h')) h)
    · rwa [skipWs_cons hc0 hc] at h

theorem symTok_of_mem {c : UInt8} (hc : c ∈ [ch '|', ch '(', ch ')', ch ';', ch '&', ch '<']) :
    ∃ t, symTok c = some t := by
  simp only [List.mem_cons, List.not_mem_nil, or_false] at hc
  rcases hc with rfl | rfl | rfl | rfl | rfl | rfl <;> exact ⟨_, rfl⟩

theorem word_split : ∀ cs : List UInt8,
    ∃ w r, cs = w ++ r ∧ (∀ b ∈ w, WordByte b) ∧ ∀ b ∈ r.head?, ¬ WordByte b
  | [] => ⟨[], [], rfl, by simp, by simp⟩
  | c :: cs => by
    by_cases hc : WordByte c
    · obtain ⟨w, r, rfl, hw, hr⟩ := word_split cs
      exact ⟨c :: w, r, rfl, by simpa [hc] using hw, hr⟩
    · exact ⟨[], c :: cs, rfl, by simp, by simpa using hc⟩

/-- Every line with no NUL reads as tokens. -/
theorem lex_exists (es : Nat) : ∀ cs : List UInt8, 0 ∉ cs → ∃ ts, Lex es cs ts
  | cs, h0 => by
    cases hs : skipWs cs with
    | nil => exact ⟨[], Lex.of_dropWs h0 (hs ▸ .nil)⟩
    | cons c t =>
      obtain ⟨hc0, hws⟩ := head_skipWs hs
      have hsuf : c :: t <:+ cs := hs ▸ skipWs_suffix cs
      have hlen : t.length < cs.length := by have := hsuf.length_le; simp at this; omega
      have ht0 : 0 ∉ t := fun h => h0 (hsuf.subset (List.mem_cons_of_mem c h))
      suffices ∃ ts, Lex es (c :: t) ts from
        this.imp fun ts h => Lex.of_dropWs h0 (hs ▸ h)
      by_cases hsix : c ∈ [ch '|', ch '(', ch ')', ch ';', ch '&', ch '<']
      · obtain ⟨tok, htok⟩ := symTok_of_mem hsix
        obtain ⟨ts, hts⟩ := lex_exists es t ht0
        exact ⟨_, .sym htok hts⟩
      by_cases hgt : c = ch '>'
      · subst hgt
        by_cases hn : t.headD 0 = ch '>'
        · -- `>>`
          obtain ⟨t', rfl⟩ : ∃ t', t = ch '>' :: t' := by
            cases t with
            | nil => cases hn
            | cons d t' => exact ⟨t', by simp_all⟩
          have : t'.length < cs.length := by simp at hlen; omega
          obtain ⟨ts, hts⟩ := lex_exists es t' (fun h => ht0 (List.mem_cons_of_mem _ h))
          exact ⟨_, .app hts⟩
        · obtain ⟨ts, hts⟩ := lex_exists es t ht0
          exact ⟨_, .gt hn hts⟩
      · -- a word: as many word bytes as there are
        have hwc : WordByte c := ⟨hc0, hws, fun hc => by
          simp only [symbols, List.mem_cons, List.not_mem_nil, or_false] at hc
          rcases hc with rfl | rfl | rfl | rfl | rfl | rfl | rfl <;> simp_all⟩
        obtain ⟨w, r, hwr, hwb, hr⟩ := word_split (c :: t)
        have hw : w ≠ [] := by
          rintro rfl
          exact hr c (by simp [List.nil_append] at hwr; simp [← hwr]) hwc
        have : r.length < cs.length := by
          have := congrArg List.length hwr
          have : 0 < w.length := List.length_pos_iff.mpr hw
          simp at *; omega
        have hr0 : 0 ∉ r := fun h => by
          have h' : 0 ∈ c :: t := hwr ▸ List.mem_append_right w h
          rcases List.mem_cons.mp h' with h' | h'
          · exact hc0 h'.symm
          · exact ht0 h'
        obtain ⟨ts, hts⟩ := lex_exists es r hr0
        rw [hwr]
        exact ⟨_, .word hw hwb hr hts⟩
termination_by cs => cs.length

end Xv6.Sh
