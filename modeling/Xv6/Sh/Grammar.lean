import Xv6.Sh.Parse
import Xv6.Lib.Exc

/-!
# The grammar the shell parses

The grammar that the recursion of `parseline`, `parsepipe`, `parseexec`,
`parseblock` and `parseredirs` reads, over the tokens of `Lex`:

    line  ::= pipe '&'* [';' line]
    pipe  ::= exec ['|' pipe]
    exec  ::= '(' line ')' redir* | redir* (WORD redir*)*
    redir ::= ('<' | '>' | '>>') WORD

`G nt ts c rest` says that a prefix of `ts` is an `nt` with tree `c`, and
`rest` is left after it. Each loop of the parser reads one repetition:
`ampLoop` the `'&'*`, `parseredirs` a `redir*` (`Redirs`), `wordLoop` the
`(WORD redir*)*` (`Words`).

At enough fuel each parse ends and what it returns is a derivation
(`parse_reads`), and on a derivation followed by what may follow it in a
line, it returns that derivation (`G.complete`). Each proof goes through
the cursor's tokens: the cursor `ps` reads as `ts` (`Lex es ps ts`), `peek`
sees the first of `ts` and `gettoken` steps past it.
-/

namespace Xv6.Sh

open Xv6.Ftable (O_RDONLY O_WRONLY O_CREATE O_TRUNC)

/-! ## The grammar -/

/-- The mode and fd of the redirection a token starts. -/
def redirOf : Tok → Option (Int32 × Int32)
  | .lt => some (O_RDONLY, 0)
  | .gt => some (O_WRONLY ||| O_CREATE ||| O_TRUNC, 1)
  | .app => some (O_WRONLY ||| O_CREATE, 1)
  | _ => none

/-- A redirection: the file's word, the mode and the fd. -/
structure Redir where
  file : Nat
  efile : Nat
  mode : Int32
  fd : Int32

/-- The redirections wrapped around `cmd`, the first innermost. -/
def wrap (cmd : Cmd) (rs : List Redir) : Cmd :=
  rs.foldl (fun c r => .redir c r.file r.efile r.mode r.fd) cmd

/-- `redir*` -/
inductive Redirs : List Redir → List Tok → List Tok → Prop
  | nil {ts : List Tok} : Redirs [] ts ts
  | cons {t : Tok} {q eq : Nat} {mode fd : Int32} {rs : List Redir} {ts rest : List Tok} :
      redirOf t = some (mode, fd) → Redirs rs ts rest →
      Redirs (⟨q, eq, mode, fd⟩ :: rs) (t :: .word q eq :: ts) rest

/-- `(WORD redir*)*`: the words, and all the redirections after them. -/
inductive Words : List (Nat × Nat) → List Redir → List Tok → List Tok → Prop
  | nil {ts : List Tok} : Words [] [] ts ts
  | cons {q eq : Nat} {rs rs' : List Redir} {args : List (Nat × Nat)} {ts ts' rest : List Tok} :
      Redirs rs ts ts' → Words args rs' ts' rest →
      Words ((q, eq) :: args) (rs ++ rs') (.word q eq :: ts) rest

/-- The nonterminals `line`, `pipe` and `exec`. -/
inductive NT
  | line
  | pipe
  | exec
  deriving DecidableEq

/-- `G nt ts c rest`: the tokens `ts` start with an `nt` whose tree is `c`,
and `rest` follows it. `;` and `|` nest to the right, each `&` wraps what
is to its left, and an `exec`'s redirections wrap it in the order read. -/
inductive G : NT → List Tok → Cmd → List Tok → Prop
  | line {ts ts' rest : List Tok} {c : Cmd} (k : Nat) :
      G .pipe ts c ts' → ts' = List.replicate k .amp ++ rest → G .line ts (Cmd.back^[k] c) rest
  | list {ts ts' ts'' rest : List Tok} {c l : Cmd} (k : Nat) :
      G .pipe ts c ts' → ts' = List.replicate k .amp ++ .semi :: ts'' → G .line ts'' l rest →
      G .line ts (.list (Cmd.back^[k] c) l) rest
  | pipe {ts rest : List Tok} {c : Cmd} : G .exec ts c rest → G .pipe ts c rest
  | pipes {ts ts' rest : List Tok} {c p : Cmd} :
      G .exec ts c (.pipe :: ts') → G .pipe ts' p rest → G .pipe ts (.pipe c p) rest
  | block {ts ts' rest : List Tok} {c : Cmd} {rs : List Redir} :
      G .line ts c (.rp :: ts') → Redirs rs ts' rest → G .exec (.lp :: ts) (wrap c rs) rest
  | exec {ts ts' rest : List Tok} {rs rs' : List Redir} {args : List (Nat × Nat)} :
      Redirs rs ts ts' → Words args rs' ts' rest → G .exec ts (wrap (.exec args) (rs ++ rs')) rest

/-- The tokens that may follow each nonterminal in a whole line, besides
its end. -/
def follow : NT → List Tok
  | .line => [.rp]
  | .pipe => [.rp, .amp, .semi]
  | .exec => [.rp, .amp, .semi, .pipe]

/-- `ts` ends the line or starts with a token that may follow `nt`. -/
def Follows (nt : NT) (ts : List Tok) : Prop := ∀ t ∈ ts.head?, t ∈ follow nt

/-- Every `execcmd` of the tree has fewer than `k` words. -/
def Cmd.ArgsBelow (k : Nat) : Cmd → Prop
  | .exec argv => argv.length < k
  | .redir cmd .. => cmd.ArgsBelow k
  | .pipe left right => left.ArgsBelow k ∧ right.ArgsBelow k
  | .list left right => left.ArgsBelow k ∧ right.ArgsBelow k
  | .back cmd => cmd.ArgsBelow k

/-- The line `s` reads as tokens that form a `line` with tree `c`. -/
def Derives (s : List UInt8) (c : Cmd) : Prop := ∃ ts, Lex s.length s ts ∧ G .line ts c []

/-! ## Trees -/

@[simp] theorem wrap_nil (c : Cmd) : wrap c [] = c := rfl

@[simp] theorem wrap_cons (c : Cmd) (r : Redir) (rs : List Redir) :
    wrap c (r :: rs) = wrap (.redir c r.file r.efile r.mode r.fd) rs := rfl

theorem wrap_append (c : Cmd) (rs rs' : List Redir) : wrap c (rs ++ rs') = wrap (wrap c rs) rs' :=
  List.foldl_append

theorem pushArg_wrap (c : Cmd) (rs : List Redir) (q eq : Nat) :
    (wrap c rs).pushArg q eq = wrap (c.pushArg q eq) rs := by
  induction rs generalizing c with
  | nil => rfl
  | cons r rs ih => rw [wrap_cons, ih]; rfl

@[simp] theorem argsBelow_exec {k : Nat} (argv : List (Nat × Nat)) :
    (Cmd.exec argv).ArgsBelow k ↔ argv.length < k := Iff.rfl

@[simp] theorem argsBelow_pipe {k : Nat} (left right : Cmd) :
    (Cmd.pipe left right).ArgsBelow k ↔ left.ArgsBelow k ∧ right.ArgsBelow k := Iff.rfl

@[simp] theorem argsBelow_list {k : Nat} (left right : Cmd) :
    (Cmd.list left right).ArgsBelow k ↔ left.ArgsBelow k ∧ right.ArgsBelow k := Iff.rfl

@[simp] theorem argsBelow_wrap {k : Nat} (c : Cmd) (rs : List Redir) :
    (wrap c rs).ArgsBelow k ↔ c.ArgsBelow k := by
  induction rs generalizing c with
  | nil => rfl
  | cons r rs ih => rw [wrap_cons, ih]; rfl

@[simp] theorem argsBelow_iterate_back {k : Nat} (c : Cmd) (j : Nat) :
    (Cmd.back^[j] c).ArgsBelow k ↔ c.ArgsBelow k := by
  induction j generalizing c with
  | zero => rfl
  | succ j ih => rw [Function.iterate_succ_apply, ih]; rfl

theorem redirSwitch_code {t : Tok} {mode fd : Int32} (h : redirOf t = some (mode, fd)) (cmd : Cmd)
    (q eq : Nat) : redirSwitch t.code cmd q eq = .redir cmd q eq mode fd := by
  cases t <;> simp only [redirOf, reduceCtorEq, Option.some.injEq, Prod.mk.injEq] at h <;>
    obtain ⟨rfl, rfl⟩ := h <;> rfl

/-! ## What `peek` sees -/

theorem nextIn_cons (t : Tok) (ts : List Tok) (toks : List UInt8) :
    nextIn (t :: ts) toks = (t.lead?.map toks.contains).getD false := by
  cases h : t.lead? <;> simp [nextIn, h]

theorem nextIn_nil (toks : List UInt8) : nextIn [] toks = false := rfl

theorem nextIn_code {u : Tok} (h0 : u ∈ [Tok.pipe, .amp, .semi, .lp, .rp]) (ts : List Tok) :
    nextIn ts [u.code] = true ↔ ts.head? = some u := by
  cases ts with
  | nil => simp [nextIn_nil]
  | cons t ts =>
    simp only [List.mem_cons, List.not_mem_nil, or_false] at h0
    rw [nextIn_cons, List.head?_cons, Option.some.injEq]
    rcases h0 with rfl | rfl | rfl | rfl | rfl <;> cases t
    all_goals first | decide | simp [Tok.lead?]

theorem nextIn_redir (t : Tok) (ts : List Tok) :
    nextIn (t :: ts) [ch '<', ch '>'] = (redirOf t).isSome := by
  rw [nextIn_cons]
  cases t with
  | word => rfl
  | _ => decide

theorem nextIn_stop (t : Tok) (ts : List Tok) :
    nextIn (t :: ts) [ch '|', ch ')', ch '&', ch ';'] = true ↔ t ∈ follow .exec := by
  rw [nextIn_cons]
  cases t with
  | word => simp [Tok.lead?, follow]
  | _ => decide

theorem eq_cons_of_nextIn {u : Tok} (h0 : u ∈ [Tok.pipe, .amp, .semi, .lp, .rp]) {ts : List Tok}
    (h : nextIn ts [u.code] = true) : ∃ ts', ts = u :: ts' :=
  List.head?_eq_some_iff.mp ((nextIn_code h0 ts).mp h)

theorem nextIn_code_false {u : Tok} (h0 : u ∈ [Tok.pipe, .amp, .semi, .lp, .rp]) {ts : List Tok}
    (h : ∀ t ∈ ts.head?, t ≠ u) : nextIn ts [u.code] = false := by
  rw [Bool.eq_false_iff]
  intro h'
  exact h u ((nextIn_code h0 ts).mp h') rfl

/-! ## The cursor's tokens -/

section Cursor

variable {es : Nat} {ps : List UInt8} {ts : List Tok}

theorem Lex.length_le (h : Lex es ps ts) : ts.length ≤ ps.length := by
  induction h with
  | nil => exact le_rfl
  | ws _ _ ih => simp only [List.length_cons]; omega
  | sym _ _ ih => simp only [List.length_cons]; omega
  | gt _ _ ih => simp only [List.length_cons]; omega
  | app _ ih => simp only [List.length_cons]; omega
  | word hw _ _ _ ih =>
    have : 0 < _ := List.length_pos_iff.mpr hw
    simp only [List.length_cons, List.length_append]; omega

theorem Lex.gettoken_nil (h : Lex es ps []) : gettoken es ps = ⟨0, es, es, []⟩ :=
  gettoken_end h.skipWs_eq_nil

theorem Lex.peek (h : Lex es ps ts) {toks : List UInt8} (htoks : ∀ c ∈ toks, c ∈ symbols) :
    peek ps toks = (nextIn ts toks, skipWs ps) :=
  peek_lex h htoks

theorem Lex.next {t : Tok} (h : Lex es ps (t :: ts)) : Lex es (gettoken es (skipWs ps)).ps ts := by
  rw [gettoken_skipWs]
  exact (gettoken_lex h).2.1

theorem Tok.code_ne_zero (t : Tok) : t.code ≠ 0 := by
  cases t with
  | word => exact (by decide : ch 'a' ≠ 0)
  | _ => decide

theorem Tok.code_eq_a {t : Tok} : t.code = ch 'a' ↔ ∃ q eq, t = .word q eq := by
  cases t with
  | word q eq => exact ⟨fun _ => ⟨q, eq, rfl⟩, fun _ => rfl⟩
  | _ => simp only [reduceCtorEq, exists_false, iff_false]; decide

theorem symbols_redir : ∀ c ∈ [ch '<', ch '>'], c ∈ symbols := by simp [symbols]
theorem symbols_amp : ∀ c ∈ [ch '&'], c ∈ symbols := by simp [symbols]
theorem symbols_stop : ∀ c ∈ [ch '|', ch ')', ch '&', ch ';'], c ∈ symbols := by simp [symbols]

end Cursor

/-! ## Parses that end

`Reads es P x`: the parse `x` panics, or returns `c` with the cursor on
tokens `rest` such that `P c rest` holds. It never runs out of fuel. -/

/-- The parse `x` panics or returns `c` with the cursor on `rest`, `P c rest`. -/
def Reads (es : Nat) (P : Cmd → List Tok → Prop) (x : Except Err (Cmd × List UInt8)) : Prop :=
  Exc.Spec (· ≠ .fuel) (fun p => ∃ rest, P p.1 rest ∧ Lex es p.2 rest) x

section Reads

variable {es : Nat} {P Q : Cmd → List Tok → Prop}

theorem Reads.ok {c : Cmd} {r : List UInt8} {rest : List Tok} (hp : P c rest) (hl : Lex es r rest) :
    Reads es P (.ok (c, r)) :=
  ⟨rest, hp, hl⟩

theorem Reads.panic (s : String) : Reads es P (.error (.panic s)) := nofun

theorem Reads.imp {x : Except Err (Cmd × List UInt8)} (h : Reads es P x)
    (hpq : ∀ c rest, P c rest → Q c rest) : Reads es Q x :=
  Exc.Spec.imp h fun _ ⟨rest, hp, hl⟩ => ⟨rest, hpq _ _ hp, hl⟩

theorem Reads.bind {x : Except Err (Cmd × List UInt8)} {f : Cmd × List UInt8 → Except Err (Cmd × List UInt8)}
    (hx : Reads es P x) (hf : ∀ c r rest, P c rest → Lex es r rest → Reads es Q (f (c, r))) :
    Reads es Q (x >>= f) :=
  Exc.Spec.bind hx fun ⟨c, r⟩ ⟨rest, hp, hl⟩ => hf c r rest hp hl

theorem Reads.of_eq_ok {x : Except Err (Cmd × List UInt8)} {c : Cmd} {r : List UInt8}
    (h : Reads es P x) (hx : x = .ok (c, r)) : ∃ rest, P c rest ∧ Lex es r rest := by
  subst hx
  exact h

end Reads

/-! ## The loops -/

theorem Redirs.suffix {rs : List Redir} {ts rest : List Tok} (h : Redirs rs ts rest) : rest <:+ ts := by
  induction h with
  | nil => exact List.suffix_refl _
  | cons _ _ ih => exact ih.trans ((List.suffix_cons _ _).trans (List.suffix_cons _ _))

theorem Words.suffix {args : List (Nat × Nat)} {rs : List Redir} {ts rest : List Tok}
    (h : Words args rs ts rest) : rest <:+ ts := by
  induction h with
  | nil => exact List.suffix_refl _
  | cons hr _ ih => exact ih.trans (hr.suffix.trans (List.suffix_cons _ _))

theorem Redirs.length_le {rs : List Redir} {ts rest : List Tok} (h : Redirs rs ts rest) :
    rest.length ≤ ts.length :=
  h.suffix.length_le

theorem Words.length_le {args : List (Nat × Nat)} {rs : List Redir} {ts rest : List Tok}
    (h : Words args rs ts rest) : rest.length ≤ ts.length :=
  h.suffix.length_le

section Loops

variable {es maxargs : Nat}

/-- `parseredirs` reads a `redir*` and wraps each redirection around the
command. -/
theorem parseredirs_reads : ∀ {n : Nat} {cmd : Cmd} {ps : List UInt8} {ts : List Tok},
    Lex es ps ts → ts.length < n →
      Reads es (fun c rest => ∃ rs, Redirs rs ts rest ∧ c = wrap cmd rs) (parseredirs es n cmd ps)
  | 0, _, _, _, _, hn => absurd hn (Nat.not_lt_zero _)
  | n + 1, cmd, ps, ts, h, hn => by
    rw [parseredirs, h.peek symbols_redir]
    dsimp only
    split
    case isFalse => exact .ok ⟨[], .nil, rfl⟩ h.dropWs
    case isTrue hmore =>
      -- a redirection token, then its file
      obtain ⟨t, ts, rfl⟩ := List.exists_cons_of_ne_nil (show ts ≠ [] by rintro rfl; cases hmore)
      rw [nextIn_redir, Option.isSome_iff_exists] at hmore
      obtain ⟨⟨mode, fd⟩, hmf⟩ := hmore
      obtain ⟨hcode, h1, -⟩ := gettoken_lex h.dropWs
      cases ts with
      | nil =>
        rw [h1.gettoken_nil]
        dsimp only
        rw [if_pos (by decide)]
        exact .panic _
      | cons t' ts =>
        obtain ⟨hcode', h2, hpos⟩ := gettoken_lex h1
        by_cases hw : ∃ q eq, t' = .word q eq
        · obtain ⟨q, eq, rfl⟩ := hw
          obtain ⟨hq, heq⟩ := hpos q eq rfl
          rw [if_neg (by rw [hcode']; exact not_not.mpr rfl), hcode, hq, heq, redirSwitch_code hmf]
          refine (parseredirs_reads h2 (by simp only [List.length_cons] at hn; omega)).imp ?_
          rintro c rest ⟨rs, hrs, rfl⟩
          exact ⟨_ :: rs, .cons hmf hrs, rfl⟩
        · rw [if_pos (by rw [hcode']; exact fun h => hw (Tok.code_eq_a.mp h))]
          exact .panic _

/-- On a `redir*` followed by no redirection, `parseredirs` returns it. -/
theorem Redirs.complete {rs : List Redir} {ts rest : List Tok} (hr : Redirs rs ts rest)
    (hstop : ∀ t ∈ rest.head?, redirOf t = none) :
    ∀ {n : Nat} {cmd : Cmd} {ps : List UInt8}, Lex es ps ts → ts.length < n →
      ∃ r, parseredirs es n cmd ps = .ok (wrap cmd rs, r) ∧ Lex es r rest := by
  induction hr with
  | @nil ts =>
    intro n cmd ps h hn
    obtain ⟨n, rfl⟩ : ∃ m, n = m + 1 := ⟨n - 1, by omega⟩
    refine ⟨skipWs ps, ?_, h.dropWs⟩
    rw [parseredirs, h.peek symbols_redir]
    cases ts with
    | nil => rfl
    | cons t ts =>
      have : nextIn (t :: ts) [ch '<', ch '>'] = false := by
        rw [nextIn_redir, hstop t rfl]
        rfl
      simp only [this, Bool.false_eq_true, ↓reduceIte]
      rfl
  | @cons t q eq mode fd rs ts rest hmf _ ih =>
    intro n cmd ps h hn
    obtain ⟨n, rfl⟩ : ∃ m, n = m + 1 := ⟨n - 1, by omega⟩
    obtain ⟨hcode, h1, -⟩ := gettoken_lex h.dropWs
    obtain ⟨hcode', h2, hpos⟩ := gettoken_lex h1
    obtain ⟨hq, heq⟩ := hpos q eq rfl
    obtain ⟨r, hr, hl⟩ := @ih hstop n (.redir cmd q eq mode fd) _ h2 (by simp only [List.length_cons] at hn; omega)
    refine ⟨r, ?_, hl⟩
    rw [parseredirs, h.peek symbols_redir]
    simp only [nextIn_redir, hmf, Option.isSome_some, ↓reduceIte]
    rw [if_neg (by rw [hcode']; exact not_not.mpr rfl), hcode, hq, heq, redirSwitch_code hmf, hr]
    rfl

theorem ampLoop_reads : ∀ {n : Nat} {cmd : Cmd} {ps : List UInt8} {ts : List Tok},
    Lex es ps ts → ts.length < n →
      Reads es (fun c rest => ∃ k, ts = List.replicate k .amp ++ rest ∧ c = Cmd.back^[k] cmd)
        (ampLoop es n cmd ps)
  | 0, _, _, _, _, hn => absurd hn (Nat.not_lt_zero _)
  | n + 1, cmd, ps, ts, h, hn => by
    rw [ampLoop, h.peek symbols_amp]
    dsimp only
    split
    case isFalse => exact .ok ⟨0, rfl, rfl⟩ h.dropWs
    case isTrue hamp =>
      obtain ⟨ts, rfl⟩ := eq_cons_of_nextIn (u := .amp) (by simp) hamp
      refine (ampLoop_reads h.next (by simp only [List.length_cons] at hn; omega)).imp ?_
      rintro c rest ⟨k, rfl, rfl⟩
      exact ⟨k + 1, rfl, (Function.iterate_succ_apply _ _ _).symm⟩

/-- On `k` `&`s followed by something else, `ampLoop` wraps the command `k`
times. -/
theorem ampLoop_amps (k : Nat) : ∀ {n : Nat} {cmd : Cmd} {ps : List UInt8} {rest : List Tok},
    Lex es ps (List.replicate k .amp ++ rest) → (∀ t ∈ rest.head?, t ≠ .amp) → k < n →
      ∃ r, ampLoop es n cmd ps = .ok (Cmd.back^[k] cmd, r) ∧ Lex es r rest := by
  induction k with
  | zero =>
    intro n cmd ps rest h hrest hn
    obtain ⟨n, rfl⟩ : ∃ m, n = m + 1 := ⟨n - 1, by omega⟩
    have hno : nextIn rest [ch '&'] = false := nextIn_code_false (u := .amp) (by simp) hrest
    refine ⟨skipWs ps, ?_, h.dropWs⟩
    rw [ampLoop, h.peek symbols_amp]
    simp only [List.replicate_zero, List.nil_append, hno]
    rfl
  | succ k ih =>
    intro n cmd ps rest h hrest hn
    obtain ⟨n, rfl⟩ : ∃ m, n = m + 1 := ⟨n - 1, by omega⟩
    obtain ⟨r, hr, hl⟩ := @ih n (.back cmd) _ rest h.next hrest (by omega)
    refine ⟨r, ?_, hl⟩
    have hyes : nextIn (List.replicate (k + 1) Tok.amp ++ rest) [ch '&'] = true := rfl
    rw [ampLoop, h.peek symbols_amp]
    dsimp only
    rw [if_pos hyes, hr, Function.iterate_succ_apply]

theorem Follows.redirOf_none {ts : List Tok} (hf : Follows .exec ts) : ∀ t ∈ ts.head?, redirOf t = none := by
  intro t ht
  have := hf t ht
  simp only [follow, List.mem_cons, List.not_mem_nil, or_false] at this
  rcases this with rfl | rfl | rfl | rfl <;> rfl

theorem Words.head_redirOf {args : List (Nat × Nat)} {rs : List Redir} {ts rest : List Tok}
    (hw : Words args rs ts rest) (hf : Follows .exec rest) : ∀ t ∈ ts.head?, redirOf t = none := by
  cases hw with
  | nil => exact hf.redirOf_none
  | cons => intro t ht; cases ht; rfl

/-- `wordLoop` reads `(WORD redir*)*`, each word into the `execcmd` and each
redirection around the command. -/
theorem wordLoop_reads : ∀ {n : Nat} {args : List (Nat × Nat)} {rs : List Redir} {ps : List UInt8}
    {ts : List Tok}, Lex es ps ts → ts.length < n → args.length < maxargs →
      Reads es (fun c rest => ∃ args' rs', Words args' rs' ts rest ∧
          c = wrap (.exec (args ++ args')) (rs ++ rs') ∧ (args ++ args').length < maxargs)
        (wordLoop es maxargs n (wrap (.exec args) rs) args.length ps)
  | 0, _, _, _, _, _, hn, _ => absurd hn (Nat.not_lt_zero _)
  | n + 1, args, rs, ps, ts, h, hn, hargs => by
    have hnil : ∃ args' rs', Words args' rs' ts ts ∧
        wrap (.exec args) rs = wrap (.exec (args ++ args')) (rs ++ rs') ∧ (args ++ args').length < maxargs :=
      ⟨[], [], .nil, by simp, by simpa⟩
    rw [wordLoop, h.peek symbols_stop]
    dsimp only
    split
    case isTrue => exact .ok hnil h.dropWs
    case isFalse =>
      cases ts with
      | nil =>
        -- `gettoken` returns 0 at the end of the line
        rw [h.dropWs.gettoken_nil]
        exact .ok hnil .nil
      | cons t ts =>
        obtain ⟨hcode, h1, hpos⟩ := gettoken_lex h.dropWs
        rw [if_neg (by rw [hcode]; exact t.code_ne_zero)]
        by_cases hw : ∃ q eq, t = .word q eq
        · obtain ⟨q, eq, rfl⟩ := hw
          obtain ⟨hq, heq⟩ := hpos q eq rfl
          rw [if_neg (by rw [hcode]; exact not_not.mpr rfl), hq, heq, pushArg_wrap]
          split
          case isTrue => exact .panic _
          case isFalse hlt =>
            refine (parseredirs_reads h1 (by simp only [List.length_cons] at hn; omega)).bind ?_
            rintro c r rest1 ⟨rs1, hrs1, rfl⟩ hl1
            have hlen : (args ++ [(q, eq)]).length = args.length + 1 := by simp
            have hc : wrap (wrap ((Cmd.exec args).pushArg q eq) rs) rs1 =
                wrap (.exec (args ++ [(q, eq)])) (rs ++ rs1) := by rw [wrap_append]; rfl
            rw [hc, ← hlen]
            have := hrs1.length_le
            refine (@wordLoop_reads n (args ++ [(q, eq)]) (rs ++ rs1) r rest1 hl1
              (by simp only [List.length_cons] at hn; omega) (by omega)).imp ?_
            rintro c rest ⟨args', rs', hw', rfl, hmax⟩
            refine ⟨(q, eq) :: args', rs1 ++ rs', .cons hrs1 hw', by simp, by simpa using hmax⟩
        · rw [if_pos (by rw [hcode]; exact fun h => hw (Tok.code_eq_a.mp h))]
          exact .panic _

/-- On `(WORD redir*)*` followed by what may follow an `exec`, with room
for its words, `wordLoop` returns it. -/
theorem Words.complete {args : List (Nat × Nat)} {rs : List Redir} {ts rest : List Tok}
    (hw : Words args rs ts rest) (hf : Follows .exec rest) :
    ∀ {n : Nat} {args0 : List (Nat × Nat)} {rs0 : List Redir} {ps : List UInt8},
      Lex es ps ts → ts.length < n → (args0 ++ args).length < maxargs →
      ∃ r, wordLoop es maxargs n (wrap (.exec args0) rs0) args0.length ps =
        .ok (wrap (.exec (args0 ++ args)) (rs0 ++ rs), r) ∧ Lex es r rest := by
  induction hw with
  | @nil ts =>
    intro n args0 rs0 ps h hn _
    obtain ⟨n, rfl⟩ : ∃ m, n = m + 1 := ⟨n - 1, by omega⟩
    rw [wordLoop, h.peek symbols_stop]
    simp only [List.append_nil]
    cases ts with
    | nil =>
      -- the end of the line: `gettoken` returns 0
      refine ⟨[], ?_, .nil⟩
      rw [nextIn_nil]
      rw [h.dropWs.gettoken_nil]
      rfl
    | cons t ts =>
      refine ⟨skipWs ps, ?_, h.dropWs⟩
      rw [(nextIn_stop t ts).mpr (hf t rfl)]
      rfl
  | @cons q eq rs1 rs' args ts ts' rest hrs1 hw' ih =>
    intro n args0 rs0 ps h hn hmax
    obtain ⟨n, rfl⟩ : ∃ m, n = m + 1 := ⟨n - 1, by omega⟩
    obtain ⟨hcode, h1, hpos⟩ := gettoken_lex h.dropWs
    obtain ⟨hq, heq⟩ := hpos q eq rfl
    have hlen1 := hrs1.length_le
    simp only [List.length_cons, List.length_append] at hn hmax
    -- the redirections after the word, then the rest of the words
    obtain ⟨r1, hr1, hl1⟩ := @Redirs.complete es rs1 ts ts' hrs1 (hw'.head_redirOf hf) n
      (wrap (.exec (args0 ++ [(q, eq)])) rs0) _ h1 (by omega)
    obtain ⟨r, hr, hl⟩ := @ih hf n (args0 ++ [(q, eq)]) (rs0 ++ rs1) r1 hl1 (by omega)
      (by simp only [List.length_append, List.length_singleton]; omega)
    refine ⟨r, ?_, hl⟩
    have hlen : (args0 ++ [(q, eq)]).length = args0.length + 1 := by simp
    rw [wrap_append, hlen] at hr
    simp only [List.append_assoc, List.singleton_append] at hr
    rw [wordLoop, h.peek symbols_stop]
    simp only [nextIn_cons, Tok.lead?, Option.map_none, Option.getD_none, Bool.false_eq_true, ↓reduceIte]
    rw [hcode, if_neg (Tok.code_ne_zero _)]
    simp only [Tok.code, ne_eq, not_true_eq_false, ↓reduceIte]
    rw [hq, heq, pushArg_wrap, if_neg (by omega)]
    simp only [Cmd.pushArg]
    rw [hr1, Exc.ok_bind]
    exact hr

end Loops

/-! ## Soundness: what the parser returns is a derivation -/

theorem G.suffix {nt : NT} {ts rest : List Tok} {c : Cmd} (h : G nt ts c rest) : rest <:+ ts := by
  induction h with
  | line k _ hts ih => subst hts; exact (List.suffix_append _ _).trans ih
  | list k _ hts _ ih1 ih2 =>
    subst hts
    exact ih2.trans ((List.suffix_cons _ _).trans ((List.suffix_append _ _).trans ih1))
  | pipe _ ih => exact ih
  | pipes _ _ ih1 ih2 => exact ih2.trans ((List.suffix_cons _ _).trans ih1)
  | block _ hrs ih => exact hrs.suffix.trans ((List.suffix_cons _ _).trans (ih.trans (List.suffix_cons _ _)))
  | exec hrs hws => exact hws.suffix.trans hrs.suffix

theorem G.length_le {nt : NT} {ts rest : List Tok} {c : Cmd} (h : G nt ts c rest) :
    rest.length ≤ ts.length :=
  h.suffix.length_le

/-- The parser of each nonterminal. -/
def parseNT (es maxargs : Nat) : NT → Nat → List UInt8 → Except Err (Cmd × List UInt8)
  | .line => parseline es maxargs
  | .pipe => parsepipe es maxargs
  | .exec => parseexec es maxargs

/-- The fuel a parse of each nonterminal takes besides four for each token. -/
def rank : NT → Nat
  | .line => 5
  | .pipe => 4
  | .exec => 3

/-- A derivation whose `execcmd`s have fewer than `maxargs` words. -/
def Parsed (maxargs : Nat) (nt : NT) (ts : List Tok) (c : Cmd) (rest : List Tok) : Prop :=
  G nt ts c rest ∧ c.ArgsBelow maxargs

/-- At fuel `n`, the parse of `nt` ends, with a derivation if it returns,
from every cursor the fuel covers. -/
def ReadsAt (es maxargs : Nat) (nt : NT) (n : Nat) : Prop :=
  ∀ {ps : List UInt8} {ts : List Tok}, Lex es ps ts → 4 * ts.length + rank nt ≤ n →
    Reads es (Parsed maxargs nt ts) (parseNT es maxargs nt n ps)

/-- `ReadsAt` for `parseblock`, which parses an `exec` that starts with `(`. -/
def BlockReadsAt (es maxargs n : Nat) : Prop :=
  ∀ {ps : List UInt8} {ts : List Tok}, Lex es ps ts → 4 * ts.length + 2 ≤ n →
    Reads es (Parsed maxargs .exec ts) (parseblock es maxargs n ps)

section Sound

variable {es maxargs n : Nat}

theorem symbols_semi : ∀ c ∈ [ch ';'], c ∈ symbols := by simp [symbols]
theorem symbols_pipe : ∀ c ∈ [ch '|'], c ∈ symbols := by simp [symbols]
theorem symbols_lp : ∀ c ∈ [ch '('], c ∈ symbols := by simp [symbols]
theorem symbols_rp : ∀ c ∈ [ch ')'], c ∈ symbols := by simp [symbols]

theorem parseline_reads (hpipe : ReadsAt es maxargs .pipe n) (hline : ReadsAt es maxargs .line n) :
    ReadsAt es maxargs .line (n + 1) := by
  intro ps ts h hn
  simp only [rank] at hn
  show Reads es _ (parseline es maxargs (n + 1) ps)
  rw [parseline]
  refine (hpipe h (by simp only [rank]; omega)).bind ?_
  rintro c1 r1 ts1 ⟨hg1, ha1⟩ hl1
  have hlen1 := hg1.length_le
  refine (ampLoop_reads hl1 (by omega)).bind ?_
  rintro c2 r2 ts2 ⟨k, rfl, rfl⟩ hl2
  dsimp only
  rw [hl2.peek symbols_semi]
  dsimp only
  split
  case isFalse => exact .ok ⟨.line k hg1 rfl, by simpa using ha1⟩ hl2.dropWs
  case isTrue hsemi =>
    -- `;` and the line after it
    obtain ⟨ts3, rfl⟩ := eq_cons_of_nextIn (u := .semi) (by simp) hsemi
    simp only [List.length_append, List.length_cons] at hlen1
    refine (hline hl2.next (by simp only [rank]; omega)).bind ?_
    rintro c3 r3 ts4 ⟨hg3, ha3⟩ hl3
    exact .ok ⟨.list k hg1 rfl hg3, by simpa using ha1, ha3⟩ hl3

theorem parsepipe_reads (hexec : ReadsAt es maxargs .exec n) (hpipe : ReadsAt es maxargs .pipe n) :
    ReadsAt es maxargs .pipe (n + 1) := by
  intro ps ts h hn
  simp only [rank] at hn
  show Reads es _ (parsepipe es maxargs (n + 1) ps)
  rw [parsepipe]
  refine (hexec h (by simp only [rank]; omega)).bind ?_
  rintro c1 r1 ts1 ⟨hg1, ha1⟩ hl1
  have hlen1 := hg1.length_le
  dsimp only
  rw [hl1.peek symbols_pipe]
  dsimp only
  split
  case isFalse => exact .ok ⟨.pipe hg1, ha1⟩ hl1.dropWs
  case isTrue hbar =>
    -- `|` and the pipe after it
    obtain ⟨ts2, rfl⟩ := eq_cons_of_nextIn (u := .pipe) (by simp) hbar
    simp only [List.length_cons] at hlen1
    refine (hpipe hl1.next (by simp only [rank]; omega)).bind ?_
    rintro c2 r2 ts3 ⟨hg2, ha2⟩ hl2
    exact .ok ⟨.pipes hg1 hg2, ha1, ha2⟩ hl2

theorem parseblock_reads (hline : ReadsAt es maxargs .line n) : BlockReadsAt es maxargs (n + 1) := by
  intro ps ts h hn
  rw [parseblock, h.peek symbols_lp]
  dsimp only
  split
  case isTrue => exact .panic _
  case isFalse hlp =>
    have hlp : nextIn ts [ch '('] = true := by simpa using hlp
    obtain ⟨ts1, rfl⟩ := eq_cons_of_nextIn (u := .lp) (by simp) hlp
    simp only [List.length_cons] at hn
    refine (hline h.next (by simp only [rank]; omega)).bind ?_
    rintro c1 r1 ts2 ⟨hg1, ha1⟩ hl1
    have hlen1 := hg1.length_le
    rw [hl1.peek symbols_rp]
    dsimp only
    split
    case isTrue => exact .panic _
    case isFalse hrp =>
      -- `)` and the redirections after the block
      have hrp : nextIn ts2 [ch ')'] = true := by simpa using hrp
      obtain ⟨ts3, rfl⟩ := eq_cons_of_nextIn (u := .rp) (by simp) hrp
      simp only [List.length_cons] at hlen1
      refine (parseredirs_reads hl1.next (by omega)).imp ?_
      rintro c rest ⟨rs, hrs, rfl⟩
      exact ⟨.block hg1 hrs, by simpa using ha1⟩

theorem parseexec_reads (hmax : 0 < maxargs) (hblock : BlockReadsAt es maxargs n) :
    ReadsAt es maxargs .exec (n + 1) := by
  intro ps ts h hn
  simp only [rank] at hn
  show Reads es _ (parseexec es maxargs (n + 1) ps)
  rw [parseexec, h.peek symbols_lp]
  dsimp only
  split
  case isTrue => exact hblock h.dropWs (by omega)
  case isFalse =>
    refine (parseredirs_reads h.dropWs (by omega)).bind ?_
    rintro c1 r1 ts1 ⟨rs, hrs, rfl⟩ hl1
    have := hrs.length_le
    refine (@wordLoop_reads es maxargs n [] rs r1 ts1 hl1 (by omega) hmax).imp ?_
    rintro c rest ⟨args, rs', hws, rfl, hlt⟩
    exact ⟨.exec hrs hws, by simpa using hlt⟩

theorem parse_reads (hmax : 0 < maxargs) : ∀ n : Nat,
    ReadsAt es maxargs .line n ∧ ReadsAt es maxargs .pipe n ∧ ReadsAt es maxargs .exec n ∧
      BlockReadsAt es maxargs n
  | 0 => ⟨fun _ hn => by simp [rank] at hn, fun _ hn => by simp [rank] at hn,
      fun _ hn => by simp [rank] at hn, fun _ hn => by omega⟩
  | n + 1 =>
    have ⟨hl, hp, he, hb⟩ := parse_reads hmax n
    ⟨parseline_reads hp hl, parsepipe_reads he hp, parseexec_reads hmax hb, parseblock_reads hl⟩

end Sound

/-! ## Completeness: the parser returns every derivation -/

section Follow

variable {ts : List Tok}

theorem Follows.of_line {nt : NT} (h : Follows .line ts) : Follows nt ts := fun t ht => by
  have := h t ht
  simp only [follow, List.mem_cons, List.not_mem_nil, or_false] at this
  subst this
  cases nt <;> simp [follow]

theorem Follows.exec_of_pipe (h : Follows .pipe ts) : Follows .exec ts := fun t ht => by
  have := h t ht
  simp only [follow, List.mem_cons, List.not_mem_nil, or_false] at this ⊢
  tauto

theorem Follows.ne {nt : NT} {t : Tok} (h : Follows nt ts) (ht : t ∉ follow nt) :
    ∀ t' ∈ ts.head?, t' ≠ t := by
  rintro t' h' rfl
  exact ht (h _ h')

theorem follows_amps (k : Nat) {rest : List Tok} (h : Follows .line rest) :
    Follows .pipe (List.replicate k .amp ++ rest) := by
  cases k with
  | zero => exact h.of_line
  | succ k => intro t ht; cases ht; simp [follow]

theorem follows_amps_semi (k : Nat) : Follows .pipe (List.replicate k .amp ++ .semi :: ts) := by
  cases k with
  | zero => intro t ht; cases ht; simp [follow]
  | succ k => intro t ht; cases ht; simp [follow]

theorem Words.head_ne_lp {args : List (Nat × Nat)} {rs : List Redir} {rest : List Tok}
    (hw : Words args rs ts rest) (hf : Follows .exec rest) : ∀ t ∈ ts.head?, t ≠ .lp := by
  cases hw with
  | nil => exact hf.ne (by decide)
  | cons => rintro t ht; cases ht; nofun

theorem Redirs.head_ne_lp {rs : List Redir} {ts' : List Tok} (hr : Redirs rs ts ts')
    (h : ∀ t ∈ ts'.head?, t ≠ .lp) : ∀ t ∈ ts.head?, t ≠ .lp := by
  cases hr with
  | nil => exact h
  | cons hmf =>
    rintro t ht rfl
    cases ht
    cases hmf

end Follow

section Complete

variable {es maxargs : Nat}

/-- On a derivation of `nt` followed by what may follow `nt`, whose
`execcmd`s have room for their words, the parser of `nt` returns the
derivation's tree. -/
theorem G.complete {nt : NT} {ts rest : List Tok} {c : Cmd} (hg : G nt ts c rest) :
    Follows nt rest → c.ArgsBelow maxargs → ∀ {n : Nat} {ps : List UInt8}, Lex es ps ts →
      4 * ts.length + rank nt ≤ n → ∃ r, parseNT es maxargs nt n ps = .ok (c, r) ∧ Lex es r rest := by
  induction hg with
  | @line ts ts' rest c k hp hts ihp =>
    intro hf ha n ps h hn
    subst hts
    simp only [rank, argsBelow_iterate_back] at hn ha
    have hlen := hp.length_le
    simp only [List.length_append, List.length_replicate] at hlen
    obtain ⟨n, rfl⟩ : ∃ m, n = m + 1 := ⟨n - 1, by omega⟩
    -- the pipe, its `&`s, and no `;`
    obtain ⟨r1, hr1, hl1⟩ := ihp (follows_amps k hf) ha (n := n) h (by simp only [rank]; omega)
    obtain ⟨r2, hr2, hl2⟩ := @ampLoop_amps es k n c r1 rest hl1 (hf.ne (by decide)) (by omega)
    have hno : nextIn rest [ch ';'] = false := nextIn_code_false (u := .semi) (by simp) (hf.ne (by decide))
    refine ⟨skipWs r2, ?_, hl2.dropWs⟩
    simp only [parseNT] at hr1 ⊢
    rw [parseline, hr1, Exc.ok_bind]
    dsimp only
    rw [hr2, Exc.ok_bind]
    dsimp only
    rw [hl2.peek symbols_semi, hno]
    rfl
  | @list ts ts' ts'' rest c l k hp hts hl ihp ihl =>
    intro hf ha n ps h hn
    subst hts
    simp only [rank, argsBelow_list, argsBelow_iterate_back] at hn ha
    have hlen := hp.length_le
    simp only [List.length_append, List.length_replicate, List.length_cons] at hlen
    obtain ⟨n, rfl⟩ : ∃ m, n = m + 1 := ⟨n - 1, by omega⟩
    -- the pipe, its `&`s, `;` and the line after it
    obtain ⟨r1, hr1, hl1⟩ := ihp (follows_amps_semi k) ha.1 (n := n) h (by simp only [rank]; omega)
    obtain ⟨r2, hr2, hl2⟩ := @ampLoop_amps es k n c r1 _ hl1 (fun _ ht => by cases ht; nofun) (by omega)
    obtain ⟨r3, hr3, hl3⟩ := ihl hf ha.2 (n := n) hl2.next (by simp only [rank]; omega)
    have hsemi : nextIn (.semi :: ts'') [ch ';'] = true := rfl
    refine ⟨r3, ?_, hl3⟩
    simp only [parseNT] at hr1 hr3 ⊢
    rw [parseline, hr1, Exc.ok_bind]
    dsimp only
    rw [hr2, Exc.ok_bind]
    dsimp only
    rw [hl2.peek symbols_semi]
    dsimp only
    rw [if_pos hsemi, hr3]
    rfl
  | @pipe ts rest c he ihe =>
    intro hf ha n ps h hn
    simp only [rank] at hn
    obtain ⟨n, rfl⟩ : ∃ m, n = m + 1 := ⟨n - 1, by omega⟩
    -- the exec, and no `|`
    obtain ⟨r1, hr1, hl1⟩ := ihe hf.exec_of_pipe ha (n := n) h (by simp only [rank]; omega)
    have hno : nextIn rest [ch '|'] = false := nextIn_code_false (u := .pipe) (by simp) (hf.ne (by decide))
    refine ⟨skipWs r1, ?_, hl1.dropWs⟩
    simp only [parseNT] at hr1 ⊢
    rw [parsepipe, hr1, Exc.ok_bind]
    dsimp only
    rw [hl1.peek symbols_pipe, hno]
    rfl
  | @pipes ts ts' rest c p he hp ihe ihp =>
    intro hf ha n ps h hn
    simp only [rank, argsBelow_pipe] at hn ha
    have hlen := he.length_le
    simp only [List.length_cons] at hlen
    obtain ⟨n, rfl⟩ : ∃ m, n = m + 1 := ⟨n - 1, by omega⟩
    -- the exec, `|` and the pipe after it
    obtain ⟨r1, hr1, hl1⟩ := ihe (fun _ ht => by cases ht; simp [follow]) ha.1 (n := n) h
      (by simp only [rank]; omega)
    obtain ⟨r2, hr2, hl2⟩ := ihp hf ha.2 (n := n) hl1.next (by simp only [rank]; omega)
    have hbar : nextIn (.pipe :: ts') [ch '|'] = true := rfl
    refine ⟨r2, ?_, hl2⟩
    simp only [parseNT] at hr1 hr2 ⊢
    rw [parsepipe, hr1, Exc.ok_bind]
    dsimp only
    rw [hl1.peek symbols_pipe]
    dsimp only
    rw [if_pos hbar, hr2]
    rfl
  | @block ts ts' rest c rs hl hrs ihl =>
    intro hf ha n ps h hn
    simp only [rank, argsBelow_wrap, List.length_cons] at hn ha
    have hlen := hl.length_le
    have := hrs.length_le
    simp only [List.length_cons] at hlen
    obtain ⟨n, rfl⟩ : ∃ m, n = m + 2 := ⟨n - 2, by omega⟩
    obtain ⟨r1, hr1, hl1⟩ := ihl (fun _ ht => by cases ht; simp [follow]) ha (n := n) h.next
      (by simp only [rank]; omega)
    obtain ⟨r2, hr2, hl2⟩ := @Redirs.complete es rs ts' rest hrs hf.redirOf_none n c _ hl1.next (by omega)
    refine ⟨r2, ?_, hl2⟩
    have hlp : nextIn (.lp :: ts) [ch '('] = true := rfl
    have hrp : nextIn (.rp :: ts') [ch ')'] = true := rfl
    simp only [parseNT] at hr1
    show parseexec es maxargs (n + 2) ps = _
    rw [parseexec, h.peek symbols_lp]
    dsimp only
    rw [if_pos hlp, parseblock, h.dropWs.peek symbols_lp, skipWs_skipWs]
    dsimp only
    rw [hlp, Bool.not_true, if_neg Bool.false_ne_true, hr1, Exc.ok_bind]
    dsimp only
    rw [hl1.peek symbols_rp]
    dsimp only
    rw [hrp, Bool.not_true, if_neg Bool.false_ne_true, hr2]
  | @exec ts ts' rest rs rs' args hrs hws =>
    intro hf ha n ps h hn
    simp only [rank, argsBelow_wrap, argsBelow_exec] at hn ha
    have := hrs.length_le
    obtain ⟨n, rfl⟩ : ∃ m, n = m + 1 := ⟨n - 1, by omega⟩
    obtain ⟨r1, hr1, hl1⟩ := @Redirs.complete es rs ts ts' hrs (hws.head_redirOf hf) n (.exec []) _
      h.dropWs (by omega)
    obtain ⟨r2, hr2, hl2⟩ := @Words.complete es maxargs args rs' ts' rest hws hf n [] rs r1 hl1 (by omega)
      (by simpa using ha)
    refine ⟨r2, ?_, hl2⟩
    have hno : nextIn ts [ch '('] = false :=
      nextIn_code_false (u := .lp) (by simp) (hrs.head_ne_lp (hws.head_ne_lp hf))
    show parseexec es maxargs (n + 1) ps = _
    simp only [parseexec, h.peek symbols_lp, hno, Bool.false_eq_true, ↓reduceIte, hr1, Exc.ok_bind]
    exact hr2

end Complete

end Xv6.Sh
