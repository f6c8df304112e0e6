import Xv6.Sh.Grammar

/-!
# `parsecmd` on a whole line

`parsecmd` returns exactly on the lines that the grammar derives with fewer
than `MAXARGS` words in each `execcmd`, and then with the line's one
derivation; it never runs out of fuel (`parsecmd_grammar`). Uniqueness comes
from the parser itself: run with room for every word, it returns each
derivation of the line (`Derives.unique`).

`nulterminate` writes a NUL at the end of every word the tree points to,
which may be the first byte of the next symbol, as in `a>b`; the parse has
read it already. No word's NUL lands inside another word, since a word's
end is not a word byte, so each word reads as a C string equal to itself
(`cstr_nulterminate`).
-/

namespace Xv6.Sh

/-! ## The words of a tree -/

/-- The words a tree points to: each `argv[i]` with `eargv[i]`, and each
redirection's `file` with `efile`. -/
def Cmd.words : Cmd → List (Nat × Nat)
  | .exec argv => argv
  | .redir cmd file efile _ _ => cmd.words ++ [(file, efile)]
  | .pipe left right => left.words ++ right.words
  | .list left right => left.words ++ right.words
  | .back cmd => cmd.words

@[simp] theorem words_wrap (c : Cmd) (rs : List Redir) :
    (wrap c rs).words = c.words ++ rs.map fun r => (r.file, r.efile) := by
  induction rs generalizing c with
  | nil => simp
  | cons r rs ih => rw [wrap_cons, ih]; simp [Cmd.words]

@[simp] theorem words_iterate_back (c : Cmd) (k : Nat) : (Cmd.back^[k] c).words = c.words := by
  induction k generalizing c with
  | zero => rfl
  | succ k ih => rw [Function.iterate_succ_apply, ih]; rfl

theorem Redirs.mem_words {rs : List Redir} {ts rest : List Tok} (h : Redirs rs ts rest) :
    ∀ r ∈ rs, Tok.word r.file r.efile ∈ ts := by
  induction h with
  | nil => simp
  | cons _ _ ih =>
    intro r hr
    rcases List.mem_cons.mp hr with rfl | hr
    · simp
    · exact List.mem_cons_of_mem _ (List.mem_cons_of_mem _ (ih r hr))

theorem Words.mem_words {args : List (Nat × Nat)} {rs : List Redir} {ts rest : List Tok}
    (h : Words args rs ts rest) :
    (∀ p ∈ args, Tok.word p.1 p.2 ∈ ts) ∧ ∀ r ∈ rs, Tok.word r.file r.efile ∈ ts := by
  induction h with
  | nil => simp
  | @cons q eq rs1 rs' args ts ts' rest hr hw ih =>
    -- the words after the first lie in `ts'`, a suffix of the tokens
    have hsub : ts' ⊆ Tok.word q eq :: ts := (hr.suffix.trans (List.suffix_cons _ _)).subset
    refine ⟨fun p hp => ?_, fun r hr' => ?_⟩
    · rcases List.mem_cons.mp hp with rfl | hp
      · simp
      · exact hsub (ih.1 p hp)
    · rcases List.mem_append.mp hr' with hr' | hr'
      · exact List.mem_cons_of_mem _ (hr.mem_words r hr')
      · exact hsub (ih.2 r hr')

/-- Every word a derivation's tree points to is a word token of the line. -/
theorem G.mem_words {nt : NT} {ts rest : List Tok} {c : Cmd} (h : G nt ts c rest) :
    ∀ p ∈ c.words, Tok.word p.1 p.2 ∈ ts := by
  induction h with
  | line k _ _ ih => simpa using ih
  | list k hp hts hl ih1 ih2 =>
    subst hts
    intro p hm
    simp only [Cmd.words, List.mem_append, words_iterate_back] at hm
    rcases hm with hm | hm
    · exact ih1 p hm
    · exact (((List.suffix_cons _ _).trans (List.suffix_append _ _)).trans hp.suffix).subset (ih2 p hm)
  | pipe _ ih => exact ih
  | pipes he _ ih1 ih2 =>
    intro p hm
    rcases List.mem_append.mp hm with hm | hm
    · exact ih1 p hm
    · exact ((List.suffix_cons _ _).trans he.suffix).subset (ih2 p hm)
  | block hl hrs ih =>
    intro p hm
    simp only [words_wrap, List.mem_append, List.mem_map] at hm
    rcases hm with hm | ⟨r, hr, rfl⟩
    · exact List.mem_cons_of_mem _ (ih p hm)
    · exact List.mem_cons_of_mem _ (((List.suffix_cons _ _).trans hl.suffix).subset (hrs.mem_words r hr))
  | exec hrs hws =>
    intro p hm
    simp only [words_wrap, Cmd.words, List.mem_append, List.mem_map] at hm
    rcases hm with hm | ⟨r, hr | hr, rfl⟩
    · exact hrs.suffix.subset (hws.mem_words.1 p hm)
    · exact hrs.mem_words r hr
    · exact hrs.suffix.subset (hws.mem_words.2 r hr)

/-! ## A parser with room for every word -/

theorem Cmd.ArgsBelow.mono {k k' : Nat} (hk : k ≤ k') : ∀ {c : Cmd}, c.ArgsBelow k → c.ArgsBelow k'
  | .exec _, h => lt_of_lt_of_le h hk
  | .redir c .., h => Cmd.ArgsBelow.mono hk (c := c) h
  | .pipe _ _, h => ⟨Cmd.ArgsBelow.mono hk h.1, Cmd.ArgsBelow.mono hk h.2⟩
  | .list _ _, h => ⟨Cmd.ArgsBelow.mono hk h.1, Cmd.ArgsBelow.mono hk h.2⟩
  | .back c, h => Cmd.ArgsBelow.mono hk (c := c) h

theorem Words.args_length_le {args : List (Nat × Nat)} {rs : List Redir} {ts rest : List Tok}
    (h : Words args rs ts rest) : args.length ≤ ts.length := by
  induction h with
  | nil => simp
  | cons hr _ ih => have := hr.length_le; simp only [List.length_cons]; omega

/-- An `execcmd` of a derivation has no more words than the line has tokens. -/
theorem G.argsBelow {nt : NT} {ts rest : List Tok} {c : Cmd} (h : G nt ts c rest) :
    c.ArgsBelow (ts.length + 1) := by
  induction h with
  | line k _ _ ih => simpa using ih
  | list k hp hts hl ih1 ih2 =>
    subst hts
    have := hp.length_le
    simp only [List.length_append, List.length_cons] at this
    exact ⟨by simpa using ih1, ih2.mono (by omega)⟩
  | pipe _ ih => exact ih
  | pipes he _ ih1 ih2 =>
    have := he.length_le
    simp only [List.length_cons] at this
    exact ⟨ih1, ih2.mono (by omega)⟩
  | block _ _ ih => simpa using ih.mono (by simp)
  | exec hrs hws =>
    have := hrs.length_le
    have := hws.args_length_le
    simp only [argsBelow_wrap, argsBelow_exec]
    omega

/-! ## The words of the line -/

/-- `s[q, eq)` is a word of the line `s`: a nonempty run of word bytes that
no word byte follows. -/
def WordAt (s : List UInt8) (q eq : Nat) : Prop :=
  ∃ w t, s.drop q = w ++ t ∧ eq = q + w.length ∧ w ≠ [] ∧ (∀ b ∈ w, WordByte b) ∧
    ∀ b ∈ t.head?, ¬ WordByte b

/-- Each word token of the line's reading is a word of the line at its
positions. The reading of a suffix `s.drop j` places its words in `s`. -/
theorem Lex.wordAt {s : List UInt8} {j : Nat} {ts : List Tok} (h : Lex s.length (s.drop j) ts) :
    ∀ q eq, Tok.word q eq ∈ ts → WordAt s q eq := by
  generalize hcs : s.drop j = cs at h
  induction h generalizing j with
  | nil => simp
  | ws _ _ ih => exact ih (j := j + 1) (by rw [← List.tail_drop, hcs]; rfl)
  | @sym c t cs ts ht _ ih =>
    intro q eq hm
    rcases List.mem_cons.mp hm with hm | hm
    · obtain ⟨-, -, hlead⟩ := symTok_eq_some ht
      subst hm
      cases hlead
    · exact ih (j := j + 1) (by rw [← List.tail_drop, hcs]; rfl) q eq hm
  | gt _ _ ih =>
    intro q eq hm
    rcases List.mem_cons.mp hm with hm | hm
    · cases hm
    · exact ih (j := j + 1) (by rw [← List.tail_drop, hcs]; rfl) q eq hm
  | app _ ih =>
    intro q eq hm
    rcases List.mem_cons.mp hm with hm | hm
    · cases hm
    · exact ih (j := j + 2) (by rw [← List.tail_drop, ← List.tail_drop, hcs]; rfl) q eq hm
  | @word w cs ts hw hwb hcs' _ ih =>
    -- the word starts at `j` and ends where `cs` starts
    have hlen : (s.drop j).length = (w ++ cs).length := by rw [hcs]
    have hpos : 0 < (w ++ cs).length := by simp [List.length_pos_iff.mpr hw]
    simp only [List.length_drop] at hlen
    have hq : s.length - (w ++ cs).length = j := by omega
    have hdrop : s.drop (j + w.length) = cs := by rw [← List.drop_drop, hcs, List.drop_left' rfl]
    have heq : s.length - cs.length = j + w.length := by
      rw [← hdrop, List.length_drop]
      simp only [List.length_append] at hlen hpos
      omega
    intro q eq hm
    rcases List.mem_cons.mp hm with hm | hm
    · rw [hq, heq] at hm
      cases hm
      exact ⟨w, cs, hcs, rfl, hw, hwb, hcs'⟩
    · exact ih hdrop q eq hm

section Word

variable {s : List UInt8} {q eq : Nat}

theorem WordAt.getElem? (h : WordAt s q eq) :
    ∃ w, (∀ j, j < eq - q → s[q + j]? = w[j]?) ∧ w.length = eq - q ∧ (∀ b ∈ w, WordByte b) ∧
      (s.drop q).take (eq - q) = w := by
  obtain ⟨w, t, hst, rfl, -, hwb, -⟩ := h
  refine ⟨w, fun j hj => ?_, by omega, hwb, ?_⟩
  · rw [← List.getElem?_drop, hst, List.getElem?_append_left (by omega)]
  · rw [hst, show q + w.length - q = w.length by omega, List.take_left' rfl]

theorem WordAt.end_not_word (h : WordAt s q eq) : ∀ b, s[eq]? = some b → ¬ WordByte b := by
  obtain ⟨w, t, hst, rfl, -, -, ht⟩ := h
  intro b hb
  rw [← List.getElem?_drop, hst, List.getElem?_append_right (by omega), Nat.sub_self,
    ← List.head?_eq_getElem?] at hb
  exact ht b hb

theorem WordAt.le_length (h : WordAt s q eq) : eq ≤ s.length := by
  obtain ⟨w, t, hst, rfl, hw, -, -⟩ := h
  have := congrArg List.length hst
  have := List.length_pos_iff.mpr hw
  simp only [List.length_drop, List.length_append] at *
  omega

theorem WordAt.lt (h : WordAt s q eq) : q < eq := by
  obtain ⟨w, t, -, rfl, hw, -, -⟩ := h
  have := List.length_pos_iff.mpr hw
  omega

end Word

/-! ## `nulterminate` -/

/-- `m'` is `m` with a NUL at each position of `E` that `m` has. -/
def Zeroed (E : List Nat) (m m' : List UInt8) : Prop :=
  ∀ i, m'[i]? = if i ∈ E then m[i]?.map (fun _ => 0) else m[i]?

section Zeroed

variable {E E' : List Nat} {m m' m'' : List UInt8}

theorem Zeroed.refl (m : List UInt8) : Zeroed [] m m := fun i => by simp

theorem Zeroed.trans (h : Zeroed E m m') (h' : Zeroed E' m' m'') : Zeroed (E ++ E') m m'' := by
  intro i
  rw [h' i, h i]
  by_cases hE : i ∈ E <;> by_cases hE' : i ∈ E' <;> simp [hE, hE', Option.map_map, Function.comp_def]

theorem Zeroed.set (h : Zeroed E m m') (e : Nat) : Zeroed (E ++ [e]) m (m'.set e 0) := by
  refine h.trans fun i => ?_
  rw [List.getElem?_set]
  by_cases he : e = i
  · subst he
    by_cases hl : e < m'.length <;> simp [hl]
  · simp [he, Ne.symm he]

theorem zeroed_foldl (h : Zeroed E m m') (argv : List (Nat × Nat)) :
    Zeroed (E ++ argv.map Prod.snd) m (argv.foldl (fun m a => m.set a.2 0) m') := by
  induction argv generalizing E m' with
  | nil => simpa using h
  | cons a argv ih =>
    rw [List.foldl_cons, List.map_cons, ← List.singleton_append, ← List.append_assoc]
    exact ih (h.set a.2)

theorem zeroed_nulterminate : ∀ (c : Cmd) (m : List UInt8),
    Zeroed (c.words.map Prod.snd) m (nulterminate c m)
  | .exec argv, m => by simpa [Cmd.words, nulterminate] using zeroed_foldl (Zeroed.refl m) argv
  | .redir cmd file efile mode fd, m => by
    simpa [Cmd.words, nulterminate] using (zeroed_nulterminate cmd m).set efile
  | .pipe left right, m => by
    simpa [Cmd.words, nulterminate] using (zeroed_nulterminate left m).trans (zeroed_nulterminate right _)
  | .list left right, m => by
    simpa [Cmd.words, nulterminate] using (zeroed_nulterminate left m).trans (zeroed_nulterminate right _)
  | .back cmd, m => zeroed_nulterminate cmd m

end Zeroed

/-- The NUL-terminated string at the start of `m`: the bytes before the
first NUL, or `none` if there is no NUL. -/
def cstr : List UInt8 → Option (List UInt8)
  | [] => none
  | b :: m => if b = 0 then some [] else (cstr m).map (b :: ·)

theorem cstr_append {w : List UInt8} (hw : ∀ b ∈ w, b ≠ 0) (t : List UInt8) :
    cstr (w ++ 0 :: t) = some w := by
  induction w with
  | nil => simp [cstr]
  | cons b w ih =>
    rw [List.cons_append, cstr, if_neg (hw b List.mem_cons_self),
      ih fun b' hb' => hw b' (List.mem_cons_of_mem b hb')]
    rfl

theorem drop_eq_append_zero {m w : List UInt8} {q : Nat} (hw : ∀ j < w.length, m[q + j]? = w[j]?)
    (h0 : m[q + w.length]? = some 0) : m.drop q = w ++ 0 :: m.drop (q + w.length + 1) := by
  apply List.ext_getElem?
  intro j
  rw [List.getElem?_drop]
  rcases lt_trichotomy j w.length with hj | rfl | hj
  · rw [List.getElem?_append_left hj, hw j hj]
  · rw [List.getElem?_append_right le_rfl, Nat.sub_self, List.getElem?_cons_zero, h0]
  · obtain ⟨d, rfl⟩ : ∃ d, j = w.length + d + 1 := ⟨j - w.length - 1, by omega⟩
    rw [List.getElem?_append_right (by omega), show w.length + d + 1 - w.length = d + 1 by omega,
      List.getElem?_cons_succ, List.getElem?_drop]
    congr 1
    omega

/-- A word of the line reads as a C string equal to it once a NUL stands at
its end and at no place inside it; `E` holds the ends of words only. -/
theorem cstr_of_zeroed {s m : List UInt8} {E : List Nat} (hz : Zeroed E (s ++ [0]) m)
    (hE : ∀ e ∈ E, ∃ q', WordAt s q' e) {q eq : Nat} (hw : WordAt s q eq) (heq : eq ∈ E) :
    cstr (m.drop q) = some ((s.drop q).take (eq - q)) := by
  obtain ⟨w, hbytes, hlen, hwb, hw'⟩ := hw.getElem?
  rw [hw']
  have hle := hw.le_length
  have hlt := hw.lt
  refine (congrArg cstr (drop_eq_append_zero (m := m) (w := w) (q := q) ?_ ?_)).trans
    (cstr_append (fun b hb => (hwb b hb).1) _)
  · -- inside the word nothing was written: every end of a word is a non-word byte
    intro j hj
    have hs := hbytes j (by omega)
    have hnot : q + j ∉ E := fun hj' => by
      obtain ⟨q', hq'⟩ := hE _ hj'
      rw [List.getElem?_eq_getElem (by omega : j < w.length)] at hs
      exact hq'.end_not_word _ hs (hwb _ (List.getElem_mem _))
    rw [hz, if_neg hnot, List.getElem?_append_left (show q + j < s.length by omega), hs]
  · -- its end was written
    have hi : q + w.length = eq := by omega
    have hlt' : eq < (s ++ [0]).length := by simp only [List.length_append, List.length_singleton]; omega
    rw [hi, hz, if_pos heq, List.getElem?_eq_getElem hlt']
    rfl

/-! ## `parsecmd` -/

section Parsecmd

variable {maxargs : Nat} {s : List UInt8}

/-- `parsecmd` ends, and what it returns is a derivation of the line with
room for its words, and the buffer after `nulterminate`. -/
theorem parsecmdWith_spec (hmax : 0 < maxargs) (h0 : 0 ∉ s) :
    Exc.Spec (· ≠ .fuel)
      (fun p => Derives s p.1 ∧ p.1.ArgsBelow maxargs ∧ p.2 = nulterminate p.1 (s ++ [0]))
      (parsecmdWith maxargs s) := by
  obtain ⟨ts, hl⟩ := lex_exists s.length s h0
  have hr := (parse_reads hmax (4 * s.length + 5)).1 hl (by have := hl.length_le; simp only [rank]; omega)
  rw [parsecmdWith]
  dsimp only
  refine Exc.Spec.bind hr ?_
  rintro ⟨c, r⟩ ⟨rest, ⟨hg, ha⟩, hl'⟩
  dsimp only
  rw [peek_lex hl' (by simp)]
  dsimp only
  split
  case isTrue => exact fun h => by cases h
  case isFalse hend =>
    -- nothing is left over: the derivation is of the whole line
    have hend : skipWs r = [] := not_not.mp hend
    have hrest : rest = [] := by
      have := hl'.dropWs
      rw [hend] at this
      exact this.nil_right
    subst hrest
    exact ⟨⟨ts, hl, hg⟩, ha, rfl⟩

theorem parsecmdWith_complete {c : Cmd} (h : Derives s c) (ha : c.ArgsBelow maxargs) :
    parsecmdWith maxargs s = .ok (c, nulterminate c (s ++ [0])) := by
  obtain ⟨ts, hl, hg⟩ := h
  obtain ⟨r, hr, hl'⟩ := hg.complete (fun _ h => by cases h) ha (n := 4 * s.length + 5) hl
    (by have := hl.length_le; simp only [rank]; omega)
  simp only [parseNT] at hr
  rw [parsecmdWith]
  dsimp only
  rw [hr, Exc.ok_bind]
  dsimp only
  rw [peek_lex hl' (by simp), hl'.skipWs_eq_nil]
  rfl

theorem Derives.unique {c c' : Cmd} (h : Derives s c) (h' : Derives s c') : c = c' := by
  obtain ⟨ts, hl, hg⟩ := h
  obtain ⟨ts', hl', hg'⟩ := h'
  obtain rfl := hl.unique hl'
  have e := (@parsecmdWith_complete (ts.length + 1) s c ⟨ts, hl, hg⟩ hg.argsBelow).symm.trans
    (@parsecmdWith_complete (ts.length + 1) s c' ⟨ts, hl', hg'⟩ hg'.argsBelow)
  simp only [Except.ok.injEq, Prod.mk.injEq] at e
  exact e.1

end Parsecmd

/-- What `parsecmd` does on a line `s`: it ends; it returns exactly on a
derivation of the grammar with fewer than `MAXARGS` words in every
`execcmd`, that derivation is the line's only one, and after `nulterminate`
every word the command points to is a C string equal to its token. -/
structure ParseLaw (s : List UInt8) : Prop where
  ends : parsecmd s ≠ .error .fuel
  exact : ∀ c m, parsecmd s = .ok (c, m) ↔
    Derives s c ∧ c.ArgsBelow MAXARGS ∧ m = nulterminate c (s ++ [0])
  unique : ∀ c c', Derives s c → Derives s c' → c = c'
  words : ∀ c m, parsecmd s = .ok (c, m) → ∀ p ∈ c.words,
    (∀ ts, Lex s.length s ts → Tok.word p.1 p.2 ∈ ts) ∧
      cstr (m.drop p.1) = some ((s.drop p.1).take (p.2 - p.1))

theorem parsecmd_law (s : List UInt8) (h0 : 0 ∉ s) : ParseLaw s := by
  have hspec := @parsecmdWith_spec MAXARGS s (by decide) h0
  refine ⟨hspec.ne_error (by simp), fun c m => ⟨hspec.of_eq_ok, ?_⟩, fun _ _ => Derives.unique, ?_⟩
  · rintro ⟨hd, ha, rfl⟩
    exact parsecmdWith_complete hd ha
  · intro c m h p hp
    obtain ⟨⟨ts, hl, hg⟩, -, hm⟩ : Derives s c ∧ c.ArgsBelow MAXARGS ∧ m = nulterminate c (s ++ [0]) :=
      hspec.of_eq_ok h
    subst hm
    have hwords := Lex.wordAt (j := 0) hl
    refine ⟨fun ts' hl' => hl.unique hl' ▸ hg.mem_words p hp,
      cstr_of_zeroed (zeroed_nulterminate c _) ?_ (hwords _ _ (hg.mem_words p hp)) (List.mem_map_of_mem hp)⟩
    -- every NUL written ends a word of the line
    intro e he
    obtain ⟨p', hp', rfl⟩ := List.mem_map.mp he
    exact ⟨p'.1, hwords _ _ (hg.mem_words p' hp')⟩

/-- The line `echo a>b`. -/
def echoLine : List UInt8 := [ch 'e', ch 'c', ch 'h', ch 'o', ch ' ', ch 'a', ch '>', ch 'b']

theorem parsecmd_law_echoLine : 0 ∉ echoLine ∧ ParseLaw echoLine :=
  have h0 : 0 ∉ echoLine := by decide
  ⟨h0, parsecmd_law echoLine h0⟩

end Xv6.Sh
