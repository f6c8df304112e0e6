import Xv6.Sh.Lex
import Xv6.Ftable

/-!
# The shell's parser

`parsecmd` of `sh.c` reads a line by recursive descent: `parseline`,
`parsepipe`, `parseexec` and `parseblock` call each other, and three loops
run over the cursor: the `&`s of `parseline` (`ampLoop`), `parseredirs`, and
the words of `parseexec` (`wordLoop`). A `struct cmd` is a tree `Cmd` whose
pointers into the line are byte indices. `parseexec` keeps a pointer to its
`execcmd` while `ret` grows redirections around it; writing `argv[argc]`
through that pointer is `Cmd.pushArg` on `ret`. A `panic` is an error with
its message; `malloc` is taken to succeed.

The recursion carries fuel, each call one unit; `parsecmd` gives
`4 * strlen(s) + 5`, which never runs out (`Xv6.Sh.Grammar`).
-/

namespace Xv6.Sh

open Xv6.Ftable (O_RDONLY O_WRONLY O_CREATE O_TRUNC)

/-- `#define MAXARGS 10` -/
def MAXARGS : Nat := 10

/-- `struct cmd` by its `type`. `argv` pairs each `argv[i]` with `eargv[i]`. -/
inductive Cmd
  | exec (argv : List (Nat × Nat))
  | redir (cmd : Cmd) (file efile : Nat) (mode fd : Int32)
  | pipe (left right : Cmd)
  | list (left right : Cmd)
  | back (cmd : Cmd)
  deriving DecidableEq, Repr

/-- How a parse stops without a command: `panic(s)`, or the model's fuel
running out. -/
inductive Err
  | panic (s : String)
  | fuel
  deriving DecidableEq, Repr

/-- `cmd->argv[argc] = q; cmd->eargv[argc] = eq;`, where `cmd` is the
`execcmd` under the redirections of `ret`. -/
def Cmd.pushArg : Cmd → Nat → Nat → Cmd
  | .exec argv, q, eq => .exec (argv ++ [(q, eq)])
  | .redir cmd file efile mode fd, q, eq => .redir (cmd.pushArg q eq) file efile mode fd
  | cmd, _, _ => cmd

/-- The `switch(tok)` of `parseredirs`. -/
def redirSwitch (tok : UInt8) (cmd : Cmd) (q eq : Nat) : Cmd :=
  if tok = ch '<' then .redir cmd q eq O_RDONLY 0
  else if tok = ch '>' then .redir cmd q eq (O_WRONLY ||| O_CREATE ||| O_TRUNC) 1
  else if tok = ch '+' then .redir cmd q eq (O_WRONLY ||| O_CREATE) 1
  else cmd

/-- `parseredirs`: its loop `while(peek(ps, es, "<>"))`. -/
def parseredirs (es : Nat) : Nat → Cmd → List UInt8 → Except Err (Cmd × List UInt8)
  | 0, _, _ => .error .fuel
  | n + 1, cmd, ps =>
    let (more, ps) := peek ps [ch '<', ch '>']
    if more then
      let tok := gettoken es ps
      let file := gettoken es tok.ps
      if file.ret ≠ ch 'a' then .error (.panic "missing file for redirection")
      else parseredirs es n (redirSwitch tok.ret cmd file.q file.eq) file.ps
    else .ok (cmd, ps)

/-- The loop `while(peek(ps, es, "&"))` of `parseline`. -/
def ampLoop (es : Nat) : Nat → Cmd → List UInt8 → Except Err (Cmd × List UInt8)
  | 0, _, _ => .error .fuel
  | n + 1, cmd, ps =>
    let (amp, ps) := peek ps [ch '&']
    if amp then ampLoop es n (.back cmd) (gettoken es ps).ps
    else .ok (cmd, ps)

/-- The loop `while(!peek(ps, es, "|)&;"))` of `parseexec`; `ret` is the
command so far and `argc` the words read. -/
def wordLoop (es maxargs : Nat) : Nat → Cmd → Nat → List UInt8 → Except Err (Cmd × List UInt8)
  | 0, _, _, _ => .error .fuel
  | n + 1, ret, argc, ps =>
    let (stop, ps) := peek ps [ch '|', ch ')', ch '&', ch ';']
    if stop then .ok (ret, ps)
    else
      let tok := gettoken es ps
      if tok.ret = 0 then .ok (ret, tok.ps)
      else if tok.ret ≠ ch 'a' then .error (.panic "syntax")
      else
        let ret := ret.pushArg tok.q tok.eq
        if argc + 1 ≥ maxargs then .error (.panic "too many args")
        else do
          let (ret, ps) ← parseredirs es n ret tok.ps
          wordLoop es maxargs n ret (argc + 1) ps

mutual

/-- `parseline` -/
def parseline (es maxargs : Nat) : Nat → List UInt8 → Except Err (Cmd × List UInt8)
  | 0, _ => .error .fuel
  | n + 1, ps => do
    let (cmd, ps) ← parsepipe es maxargs n ps
    let (cmd, ps) ← ampLoop es n cmd ps
    let (semi, ps) := peek ps [ch ';']
    if semi then
      let (right, ps) ← parseline es maxargs n (gettoken es ps).ps
      pure (.list cmd right, ps)
    else pure (cmd, ps)

/-- `parsepipe` -/
def parsepipe (es maxargs : Nat) : Nat → List UInt8 → Except Err (Cmd × List UInt8)
  | 0, _ => .error .fuel
  | n + 1, ps => do
    let (cmd, ps) ← parseexec es maxargs n ps
    let (bar, ps) := peek ps [ch '|']
    if bar then
      let (right, ps) ← parsepipe es maxargs n (gettoken es ps).ps
      pure (.pipe cmd right, ps)
    else pure (cmd, ps)

/-- `parseblock` -/
def parseblock (es maxargs : Nat) : Nat → List UInt8 → Except Err (Cmd × List UInt8)
  | 0, _ => .error .fuel
  | n + 1, ps =>
    let (lp, ps) := peek ps [ch '(']
    if !lp then .error (.panic "parseblock")
    else do
      let (cmd, ps) ← parseline es maxargs n (gettoken es ps).ps
      let (rp, ps) := peek ps [ch ')']
      if !rp then .error (.panic "syntax - missing )")
      else parseredirs es n cmd (gettoken es ps).ps

/-- `parseexec` -/
def parseexec (es maxargs : Nat) : Nat → List UInt8 → Except Err (Cmd × List UInt8)
  | 0, _ => .error .fuel
  | n + 1, ps =>
    let (lp, ps) := peek ps [ch '(']
    if lp then parseblock es maxargs n ps
    else do
      let (ret, ps) ← parseredirs es n (.exec []) ps
      wordLoop es maxargs n ret 0 ps

end

/-- `nulterminate(cmd)`: the buffer `m` once a NUL is written at the end of
every word the command points to. -/
def nulterminate : Cmd → List UInt8 → List UInt8
  | .exec argv, m => argv.foldl (fun m a => m.set a.2 0) m
  | .redir cmd _ efile _ _, m => (nulterminate cmd m).set efile 0
  | .pipe left right, m => nulterminate right (nulterminate left m)
  | .list left right, m => nulterminate right (nulterminate left m)
  | .back cmd, m => nulterminate cmd m

/-- `parsecmd(s)` for a `MAXARGS` of `maxargs`, on the bytes `s` before the
line's NUL: the command, and the buffer `s` with its NUL after
`nulterminate`. -/
def parsecmdWith (maxargs : Nat) (s : List UInt8) : Except Err (Cmd × List UInt8) := do
  let es := s.length
  let (cmd, ps) ← parseline es maxargs (4 * s.length + 5) s
  let (_, ps) := peek ps []
  -- `fprintf(2, "leftovers: %s\n", s)` comes before the panic
  if ps ≠ [] then .error (.panic "syntax")
  else pure (cmd, nulterminate cmd (s ++ [0]))

/-- `parsecmd(s)` -/
def parsecmd (s : List UInt8) : Except Err (Cmd × List UInt8) := parsecmdWith MAXARGS s

end Xv6.Sh
