import Xv6.Proc
import Xv6.Pipe
import Xv6.Fs.Itable
import Xv6.Lib.Tally

/-!
# Open files and their reference counts (`file.c`, `sysfile.c`, `pipe.c`)

`ftable` holds `NFILE` entries `struct file`, and each process has `NOFILE`
descriptors `p->ofile[fd]`, each null or a pointer to an entry. An entry's
`ref` counts the descriptors and the calls in progress that hold it:
`filealloc` hands out an entry with `ref = 1`, `filedup` adds one and
`fileclose` takes one away. When the count reaches `0`, `fileclose` copies
the entry, marks it free, releases `ftable.lock`, and only then closes the
pipe end (`pipeclose`) or gives back the inode (`iput`) the copy names.

The steps are the system calls `open`, `dup`, `close` and `pipe`, with every
failure path of `filealloc`, `fdalloc`, `pipealloc` (its `kalloc` too) and of
`sys_pipe`'s `copyout`; `fork` with its `filedup` of each descriptor; `exit`
with its loop of `fileclose`s; and `wait`'s `freeproc` of a zombie (`reap`).
`exec` leaves the descriptors and the table alone and is no step here. The
processes' lifecycle is `Ptable` of `proc.c`: `fork` changes it as
`Xv6.fork` does.

A call is one step up to its first `fileclose`. Every `fileclose` is two
steps of its caller: the critical section under `ftable.lock`, and the rest
on the copy (`Pc.win`). A process's `Pc` lists the `fileclose` calls it has
still to make. The path lookups of `open` (`namei`, `create`) are not
modelled: their result is an argument of the step. Nor is the choice of
the zombie that `wait` reaps.

Ghost fields make frees and `iput`s countable: each `filealloc` is numbered
(`File.gen`), a pipe is the number of the `pipealloc` that made it,
`kfrees` counts the `kfree`s of each pipe's page, `opened` lists the inode
references `open` hands to a file and `iputs` the ones `fileclose` gives
back.
-/

namespace Xv6.Ftable

/-- `O_RDONLY` and the other flags of `fcntl.h`. -/
def O_RDONLY : Int32 := 0x000
def O_WRONLY : Int32 := 0x001
def O_RDWR : Int32 := 0x002
def O_CREATE : Int32 := 0x200
def O_TRUNC : Int32 := 0x400

/-- A file descriptor: an index of `p->ofile[]`. -/
abbrev Fd := Fin NOFILE

/-- A `struct file *`: an entry of `ftable.file[]`. -/
abbrev Fid := Fin NFILE

/-- The `type` of a `struct file`. -/
inductive Ftype
  | FD_NONE | FD_PIPE | FD_INODE | FD_DEVICE
  deriving DecidableEq, Repr

/-- The fields of `struct file` that the calls here read and write. -/
structure File where
  type : Ftype
  ref : Nat
  readable : Bool
  writable : Bool
  /-- `FD_PIPE`: the pipe, by the number of the `pipealloc` that made it. -/
  pipe : Nat
  /-- `FD_INODE` and `FD_DEVICE`. -/
  ip : Ip
  /-- Ghost: the number of the `filealloc` that handed the entry out. -/
  gen : Nat
  deriving DecidableEq

/-- An entry in static storage: all zero. -/
def File.zero : File := ⟨.FD_NONE, 0, false, false, 0, ⟨0, by decide⟩, 0⟩

/-- Where a process is among the calls of this module. -/
inductive Pc
  /-- Outside them; a live process may make a system call. -/
  | idle
  /-- About to call `fileclose(f)`, then to go on with `k`. -/
  | close (f : Fid) (k : Pc)
  /-- In `fileclose`, after `ftable.lock` is released, with the copy `ff`. -/
  | win (ff : File) (k : Pc)
  /-- In `exit(status)`, the loop over `p->ofile[]` at `fd`. -/
  | exitLoop (status : Int32) (fd : Nat)
  /-- In `exit(status)`: `fileclose(f)` is done, `p->ofile[fd] = 0` next. -/
  | exitClear (status : Int32) (fd : Fd)
  deriving DecidableEq

/-- The file table, the descriptors, the pipes and the process table. -/
structure Sys where
  ptable : Ptable
  pc : Slot → Pc
  ofile : Slot → Fd → Option Fid
  file : Fid → File
  /-- The pipes, by number; `npipes` of them have been made. -/
  pipes : Nat → Pipe
  npipes : Nat
  /-- Ghost: `kfree`s of each pipe's page. -/
  kfrees : Nat → Nat
  /-- Ghost: `filealloc`s so far. -/
  ngen : Nat
  /-- Ghost: the inode references `open` has handed to files, by `filealloc`. -/
  opened : List (Nat × Ip)
  /-- Ghost: the inode references `fileclose` has given back with `iput`. -/
  iputs : List (Nat × Ip)

namespace Sys

/-- Entry `f` replaced by `x`. -/
@[simps]
def setFile (s : Sys) (f : Fid) (x : File) : Sys := { s with file := Function.update s.file f x }

/-- `p->ofile[fd] = v`. -/
@[simps]
def setOfile (s : Sys) (p : Slot) (fd : Fd) (v : Option Fid) : Sys :=
  { s with ofile := Function.update s.ofile p (Function.update (s.ofile p) fd v) }

/-- Process `p` goes on at `c`. -/
@[simps]
def setPc (s : Sys) (p : Slot) (c : Pc) : Sys := { s with pc := Function.update s.pc p c }

/-- Process `p` returns once it has made the `fileclose` calls `fs`, in order. -/
@[simps!]
def closing (s : Sys) (p : Slot) (fs : List Fid) : Sys := s.setPc p (fs.foldr .close .idle)

/-- A process that exists and has not exited: neither `UNUSED` nor `ZOMBIE`. -/
def live (s : Sys) (p : Slot) : Prop :=
  (s.ptable.proc p).state ≠ .UNUSED ∧ (s.ptable.proc p).state ≠ .ZOMBIE

instance (s : Sys) (p : Slot) : Decidable (s.live p) := inferInstanceAs (Decidable (_ ∧ _))

end Sys

/-! ## The calls -/

/-- Entry `f` handed out by `filealloc`, with `ref = 1`. -/
def Sys.alloc (s : Sys) (f : Fid) : Sys :=
  { s.setFile f { s.file f with ref := 1, gen := s.ngen } with ngen := s.ngen + 1 }

/-- `filealloc()`: the first entry with `ref == 0`. -/
def filealloc (s : Sys) : Option (Fid × Sys) :=
  match (List.finRange NFILE).find? fun f => (s.file f).ref == 0 with
  | some f => some (f, s.alloc f)
  | none => none

/-- `filedup(f)`; `none` is its `panic`. -/
def filedup (s : Sys) (f : Fid) : Option Sys :=
  if (s.file f).ref < 1 then none
  else some (s.setFile f { s.file f with ref := (s.file f).ref + 1 })

/-- The critical section of `fileclose(f)`: the table after it, and the copy
`ff` when the count has reached `0`. `none` is its `panic`. -/
def fileclose (s : Sys) (f : Fid) : Option (Sys × Option File) :=
  let x := s.file f
  if x.ref < 1 then none
  else if x.ref - 1 > 0 then some (s.setFile f { x with ref := x.ref - 1 }, none)
  else some (s.setFile f { x with ref := 0, type := .FD_NONE }, some { x with ref := 0 })

/-- `pipeclose(pi, writable)`: the end closed, and the page given to `kfree`
once both ends are. The `wakeup`s are not modelled. -/
def pipeclose (s : Sys) (pi : Nat) (writable : Bool) : Sys :=
  let x := (s.pipes pi).close writable
  { s with pipes := Function.update s.pipes pi x,
           kfrees := if !x.readopen && !x.writeopen then Function.update s.kfrees pi (s.kfrees pi + 1)
             else s.kfrees }

/-- The rest of `fileclose`, on the copy `ff`: `pipeclose`, or `iput(ff.ip)`
between `begin_op` and `end_op`. -/
def closeRest (s : Sys) (ff : File) : Sys :=
  match ff.type with
  | .FD_PIPE => pipeclose s ff.pipe ff.writable
  | .FD_INODE | .FD_DEVICE => { s with iputs := (ff.gen, ff.ip) :: s.iputs }
  | .FD_NONE => s

/-- `fdalloc(f)` in process `p`: the first free descriptor, now pointing to `f`. -/
def fdalloc (s : Sys) (p : Slot) (f : Fid) : Option (Fd × Sys) :=
  match (List.finRange NOFILE).find? fun fd => s.ofile p fd == none with
  | some fd => some (fd, s.setOfile p fd (some f))
  | none => none

theorem toNat_lt_NOFILE {fd : Int32} (h : 0 ≤ fd.toInt ∧ fd.toInt < NOFILE) : fd.toInt.toNat < NOFILE := by
  omega

/-- `argfd` in process `p`: the descriptor `fd` and its file, if it is open. -/
def argfd (s : Sys) (p : Slot) (fd : Int32) : Option (Fd × Fid) :=
  if h : 0 ≤ fd.toInt ∧ fd.toInt < NOFILE then
    (s.ofile p ⟨fd.toInt.toNat, toNat_lt_NOFILE h⟩).map fun f => (⟨fd.toInt.toNat, toNat_lt_NOFILE h⟩, f)
  else none

/-- `sys_open()` in process `p`. `r` is what `namei(path)`, or
`create(path, T_FILE, 0, 0)` under `O_CREATE`, returns: the inode with its
type and major number, or `0`. Both hand the caller a reference to the
inode, which the failure paths give back (`iunlockput`) and success hands to
the file. `O_TRUNC`'s `itrunc` changes no state of this module. -/
def sysOpen (s : Sys) (p : Slot) (omode : Int32) (r : Option (Ip × Int16 × Int16)) : Sys :=
  match r with
  | none => s
  | some (ip, type, major) =>
    if (omode &&& O_CREATE) = 0 ∧ type = T_DIR ∧ omode ≠ O_RDONLY then s
    else if type = T_DEVICE ∧ (major.toInt < 0 ∨ major.toInt ≥ NDEV) then s
    else
      match filealloc s with
      | none => s
      | some (f, s) =>
        match fdalloc s p f with
        | none => s.closing p [f]
        | some (_, s) =>
          { s.setFile f { s.file f with
              type := if type = T_DEVICE then .FD_DEVICE else .FD_INODE, ip := ip,
              readable := (omode &&& O_WRONLY) = 0,
              writable := (omode &&& O_WRONLY) ≠ 0 || (omode &&& O_RDWR) ≠ 0 } with
            opened := ((s.file f).gen, ip) :: s.opened }

/-- `sys_dup()` in process `p`; `none` is `filedup`'s `panic`. -/
def sysDup (s : Sys) (p : Slot) (fd : Int32) : Option Sys :=
  match argfd s p fd with
  | none => some s
  | some (_, f) =>
    match fdalloc s p f with
    | none => some s
    | some (_, s) => filedup s f

/-- `sys_close()` in process `p`: the descriptor cleared, then `fileclose`. -/
def sysClose (s : Sys) (p : Slot) (fd : Int32) : Sys :=
  match argfd s p fd with
  | none => s
  | some (i, f) => (s.setOfile p i none).closing p [f]

/-- Entry `x` as `pipealloc` sets it up for the end of pipe `pi` that writes
(`w`) or that reads. -/
def File.pipeEnd (x : File) (pi : Nat) (w : Bool) : File :=
  { x with type := .FD_PIPE, readable := !w, writable := w, pipe := pi }

@[simp] theorem File.pipeEnd_ref (x : File) (pi : Nat) (w : Bool) : (x.pipeEnd pi w).ref = x.ref := rfl

/-- The rest of `pipealloc` once both entries and the page are there:
entries `f0` and `f1` become the read and the write end of a new pipe. -/
@[simps]
def Sys.mkPipe (s : Sys) (f0 f1 : Fid) : Sys :=
  { s with
    file := Function.update (Function.update s.file f0 ((s.file f0).pipeEnd s.npipes false)) f1
      ((s.file f1).pipeEnd s.npipes true)
    pipes := Function.update s.pipes s.npipes (Pipe.alloc fun _ => 5)
    npipes := s.npipes + 1 }

/-- `pipealloc()`: the read and the write file of a new pipe, or the files
its failure path has to `fileclose`. `ok` says whether `kalloc` returns a
page; `kalloc` fills it with `5`s. -/
def pipealloc (s : Sys) (ok : Bool) : Except (Sys × List Fid) (Fid × Fid × Sys) :=
  match filealloc s with
  | none => .error (s, [])
  | some (f0, s) =>
    match filealloc s with
    | none => .error (s, [f0])
    | some (f1, s) =>
      if ok then .ok (f0, f1, s.mkPipe f0 f1) else .error (s, [f0, f1])

/-- `sys_pipe()` in process `p`. `copyOk` says whether both `copyout`s of
the descriptors succeed. -/
def sysPipe (s : Sys) (p : Slot) (ok copyOk : Bool) : Sys :=
  match pipealloc s ok with
  | .error (s, fs) => s.closing p fs
  | .ok (rf, wf, s) =>
    match fdalloc s p rf with
    | none => s.closing p [rf, wf]
    | some (fd0, s) =>
      match fdalloc s p wf with
      | none => (s.setOfile p fd0 none).closing p [rf, wf]
      | some (fd1, s) =>
        if copyOk then s else ((s.setOfile p fd0 none).setOfile p fd1 none).closing p [rf, wf]

/-- `fork`'s loop `np->ofile[i] = filedup(p->ofile[i])` over the
descriptors `l`; `none` is `filedup`'s `panic`. -/
def dupLoop (p np : Slot) (s : Sys) : List Fd → Option Sys
  | [] => some s
  | i :: l =>
    match s.ofile p i with
    | none => dupLoop p np s l
    | some f => (filedup s f).bind fun s => dupLoop p np (s.setOfile np i (some f)) l

/-- `fork()` by process `p`: the process table changes as `Xv6.fork` says,
and a child that gets past `uvmcopy` gets a duplicate of each descriptor. -/
def fork (s : Sys) (p : Slot) (ok copyOk : Bool) : Option Sys :=
  let t := (Xv6.fork s.ptable p ok copyOk).2
  match (allocproc s.ptable ok).1 with
  | some np =>
    if copyOk then (dupLoop p np s (List.finRange NOFILE)).map fun s => { s with ptable := t }
    else some { s with ptable := t }
  | none => some { s with ptable := t }

/-- `exit(status)` by process `p`: `none` is the `panic` of `initproc`. -/
def exit (s : Sys) (p : Slot) (status : Int32) : Option Sys :=
  if s.ptable.initproc = some p then none else some (s.setPc p (.exitLoop status 0))

/-- The next step of process `p` inside a call. At the end of `exit`'s loop,
`iput(p->cwd)`, `reparent` and the `wakeup` are not modelled; the process
becomes a `ZOMBIE`. -/
def run (s : Sys) (p : Slot) : Option Sys :=
  match s.pc p with
  | .idle => none
  | .close f k =>
    (fileclose s f).map fun r =>
      match r.2 with
      | none => r.1.setPc p k
      | some ff => r.1.setPc p (.win ff k)
  | .win ff k => some ((closeRest s ff).setPc p k)
  | .exitLoop status fd =>
    if h : fd < NOFILE then
      match s.ofile p ⟨fd, h⟩ with
      | none => some (s.setPc p (.exitLoop status (fd + 1)))
      | some f => some (s.setPc p (.close f (.exitClear status ⟨fd, h⟩)))
    else
      some (Sys.setPc { s with ptable := s.ptable.set p { s.ptable.proc p with xstate := status, state := .ZOMBIE } }
        p .idle)
  | .exitClear status fd => some ((s.setOfile p fd none).setPc p (.exitLoop status (fd.val + 1)))

/-- `wait`'s `freeproc` of the zombie `q`. -/
def reap (s : Sys) (q : Slot) : Option Sys :=
  if (s.ptable.proc q).state = .ZOMBIE then some { s with ptable := freeproc s.ptable q } else none

/-! ## Runs -/

/-- A step of one process. -/
inductive Event
  | open (p : Slot) (omode : Int32) (r : Option (Ip × Int16 × Int16))
  | dup (p : Slot) (fd : Int32)
  | close (p : Slot) (fd : Int32)
  | pipe (p : Slot) (ok copyOk : Bool)
  | fork (p : Slot) (ok copyOk : Bool)
  | exit (p : Slot) (status : Int32)
  | run (p : Slot)
  | reap (q : Slot)

/-- A live process outside every call. -/
def Sys.ready (s : Sys) (p : Slot) : Prop := s.live p ∧ s.pc p = .idle

instance (s : Sys) (p : Slot) : Decidable (s.ready p) := inferInstanceAs (Decidable (_ ∧ _))

/-- One step; `none` when the event cannot happen or panics. -/
def step (s : Sys) : Event → Option Sys
  | .open p omode r => if s.ready p then some (sysOpen s p omode r) else none
  | .dup p fd => if s.ready p then sysDup s p fd else none
  | .close p fd => if s.ready p then some (sysClose s p fd) else none
  | .pipe p ok copyOk => if s.ready p then some (sysPipe s p ok copyOk) else none
  | .fork p ok copyOk => if s.ready p then fork s p ok copyOk else none
  | .exit p status => if s.ready p then exit s p status else none
  | .run p => run s p
  | .reap q => reap s q

/-- Boot with the process table `t`: no file is open and no pipe made. -/
def init (t : Ptable) : Sys :=
  ⟨t, fun _ => .idle, fun _ _ => none, fun _ => File.zero, fun _ => Pipe.alloc fun _ => 0, 0,
    fun _ => 0, 0, [], []⟩

inductive Reachable : Sys → Prop
  | init (t : Ptable) : Reachable (init t)
  | step {s s' : Sys} (e : Event) : Reachable s → step s e = some s' → Reachable s'

/-- The events `es` one after the other; `none` when one of them cannot happen. -/
def steps (s : Sys) : List Event → Option Sys
  | [] => some s
  | e :: es => (step s e).bind fun s => steps s es

theorem Reachable.of_steps {s s' : Sys} (h : Reachable s) : ∀ es : List Event, Ftable.steps s es = some s' →
    Reachable s'
  | [], hs => by
    cases hs
    exact h
  | e :: es, hs => by
    obtain ⟨s1, h1, h2⟩ := Option.bind_eq_some_iff.mp hs
    exact (h.step e h1).of_steps es h2

end Xv6.Ftable

namespace Xv6.Ftable

/-! ## What the counts count -/

namespace Pc

/-- The `fileclose(f)` calls still to make. -/
def pending (f : Fid) : Pc → Nat
  | .close g k => (if g = f then 1 else 0) + k.pending f
  | .win _ k => k.pending f
  | _ => 0

/-- The descriptor that `exit` has closed and not yet cleared. -/
def clears : Pc → Option Fd
  | .close _ k => k.clears
  | .win _ k => k.clears
  | .exitClear _ fd => some fd
  | _ => none

/-- `exit` has cleared the descriptors below this one. -/
def exitFrom : Pc → Nat
  | .close _ k => k.exitFrom
  | .win _ k => k.exitFrom
  | .exitLoop _ fd => fd
  | .exitClear _ fd => fd.val
  | .idle => 0

/-- The copies that `fileclose` holds in its window and that satisfy `P`. -/
def copies (P : File → Prop) [DecidablePred P] : Pc → Nat
  | .close _ k => k.copies P
  | .win ff k => (if P ff then 1 else 0) + k.copies P
  | _ => 0

@[simp] theorem pending_foldr (f : Fid) (fs : List Fid) (c : Pc) :
    (fs.foldr Pc.close c).pending f = fs.count f + c.pending f := by
  induction fs with
  | nil => simp
  | cons g fs ih => simp [pending, ih, List.count_cons]; omega

@[simp] theorem clears_foldr (fs : List Fid) (c : Pc) : (fs.foldr Pc.close c).clears = c.clears := by
  induction fs with
  | nil => rfl
  | cons g fs ih => simpa [clears] using ih

@[simp] theorem exitFrom_foldr (fs : List Fid) (c : Pc) : (fs.foldr Pc.close c).exitFrom = c.exitFrom := by
  induction fs with
  | nil => rfl
  | cons g fs ih => simpa [exitFrom] using ih

@[simp] theorem copies_foldr (P : File → Prop) [DecidablePred P] (fs : List Fid) (c : Pc) :
    (fs.foldr Pc.close c).copies P = c.copies P := by
  induction fs with
  | nil => rfl
  | cons g fs ih => simpa [copies] using ih

end Pc

/-- Entry `x` is the end of pipe `pi` that writes (`w`) or that reads. -/
def File.isEnd (pi : Nat) (w : Bool) (x : File) : Prop :=
  x.type = .FD_PIPE ∧ x.pipe = pi ∧ x.writable = w

instance (pi : Nat) (w : Bool) : DecidablePred (File.isEnd pi w) :=
  fun _ => inferInstanceAs (Decidable (_ ∧ _ ∧ _))

/-- Entry `x` holds the inode reference `g`: the inode and the `filealloc`
that `open` handed it. -/
def File.holds (g : Nat × Ip) (x : File) : Prop :=
  (x.type = .FD_INODE ∨ x.type = .FD_DEVICE) ∧ (x.gen, x.ip) = g

instance (g : Nat × Ip) : DecidablePred (File.holds g) :=
  fun _ => inferInstanceAs (Decidable (_ ∧ _))

namespace Sys

/-- The references process `p` holds on `f`: its descriptors that point to
`f`, bar the one `exit` has closed and not yet cleared, and its
`fileclose(f)` calls still to make. -/
def held (s : Sys) (p : Slot) (f : Fid) : Nat :=
  Tally.tally (fun i => s.ofile p i = some f ∧ (s.pc p).clears ≠ some i) + (s.pc p).pending f

/-- The entries in use and the copies in `fileclose`'s window that satisfy `P`. -/
def copies (s : Sys) (P : File → Prop) [DecidablePred P] : Nat :=
  Tally.tally (fun f => 0 < (s.file f).ref ∧ P (s.file f)) + ∑ p, (s.pc p).copies P

/-- The holders of the end of pipe `pi` that writes (`w`) or that reads. -/
def ends (s : Sys) (pi : Nat) (w : Bool) : Nat := s.copies (File.isEnd pi w)

/-- The holders of the inode reference `g`. -/
def iheld (s : Sys) (g : Nat × Ip) : Nat := s.copies (File.holds g)

/-- No process is inside `fileclose` or `exit`. -/
def quiet (s : Sys) : Prop := ∀ p, s.pc p = .idle

end Sys

end Xv6.Ftable

namespace Xv6.Ftable

/-! ## What each call does -/

section Calls

variable {s s1 : Sys} {p : Slot} {f : Fid}

theorem filealloc_eq (h : filealloc s = some (f, s1)) : (s.file f).ref = 0 ∧ s1 = s.alloc f := by
  unfold filealloc at h
  split at h
  · next g hg =>
    simp only [Option.some.injEq, Prod.mk.injEq] at h
    obtain ⟨rfl, rfl⟩ := h
    exact ⟨by simpa using List.find?_some hg, rfl⟩
  · cases h

theorem fdalloc_eq {fd : Fd} (h : fdalloc s p f = some (fd, s1)) :
    s.ofile p fd = none ∧ s1 = s.setOfile p fd (some f) := by
  unfold fdalloc at h
  split at h
  · next i hi =>
    simp only [Option.some.injEq, Prod.mk.injEq] at h
    obtain ⟨rfl, rfl⟩ := h
    exact ⟨by simpa using List.find?_some hi, rfl⟩
  · cases h

theorem argfd_eq {fd : Int32} {i : Fd} (h : argfd s p fd = some (i, f)) : s.ofile p i = some f := by
  unfold argfd at h
  split at h
  · next hfd =>
    obtain ⟨g, hg, hgi⟩ := Option.map_eq_some_iff.mp h
    simp only [Prod.mk.injEq] at hgi
    obtain ⟨rfl, rfl⟩ := hgi
    exact hg
  · cases h

theorem filedup_eq (h : filedup s f = some s1) :
    1 ≤ (s.file f).ref ∧ s1 = s.setFile f { s.file f with ref := (s.file f).ref + 1 } := by
  unfold filedup at h
  split at h
  · cases h
  · next h1 => exact ⟨by omega, (Option.some.inj h).symm⟩

theorem fileclose_eq {o : Option File} (h : fileclose s f = some (s1, o)) :
    (1 < (s.file f).ref ∧ o = none ∧ s1 = s.setFile f { s.file f with ref := (s.file f).ref - 1 }) ∨
      ((s.file f).ref = 1 ∧ o = some { s.file f with ref := 0 } ∧
        s1 = s.setFile f { s.file f with ref := 0, type := .FD_NONE }) := by
  unfold fileclose at h
  dsimp only at h
  split at h
  · cases h
  · next h1 =>
    split at h
    · next h2 =>
      simp only [Option.some.injEq, Prod.mk.injEq] at h
      exact .inl ⟨by omega, h.2.symm, h.1.symm⟩
    · next h2 =>
      simp only [Option.some.injEq, Prod.mk.injEq] at h
      exact .inr ⟨by omega, h.2.symm, h.1.symm⟩

theorem pipealloc_error {ok : Bool} {fs : List Fid} (h : pipealloc s ok = .error (s1, fs)) :
    (s1 = s ∧ fs = []) ∨ (∃ f0, (s.file f0).ref = 0 ∧ s1 = s.alloc f0 ∧ fs = [f0]) ∨
      (∃ f0 f1, (s.file f0).ref = 0 ∧ ((s.alloc f0).file f1).ref = 0 ∧ s1 = (s.alloc f0).alloc f1 ∧
        fs = [f0, f1]) := by
  unfold pipealloc at h
  split at h
  · cases h
    exact .inl ⟨rfl, rfl⟩
  · next f0 s0 ha0 =>
    obtain ⟨h0, rfl⟩ := filealloc_eq ha0
    split at h
    · cases h
      exact .inr (.inl ⟨f0, h0, rfl, rfl⟩)
    · next f1 s2 ha1 =>
      obtain ⟨h1, rfl⟩ := filealloc_eq ha1
      split at h
      · cases h
      · cases h
        exact .inr (.inr ⟨f0, f1, h0, h1, rfl, rfl⟩)

theorem pipealloc_ok {ok : Bool} {rf wf : Fid} (h : pipealloc s ok = .ok (rf, wf, s1)) :
    ok = true ∧ (s.file rf).ref = 0 ∧ ((s.alloc rf).file wf).ref = 0 ∧
      s1 = ((s.alloc rf).alloc wf).mkPipe rf wf := by
  unfold pipealloc at h
  split at h
  · cases h
  · next f0 s0 ha0 =>
    obtain ⟨h0, rfl⟩ := filealloc_eq ha0
    split at h
    · cases h
    · next f1 s2 ha1 =>
      obtain ⟨h1, rfl⟩ := filealloc_eq ha1
      split at h
      · next hok =>
        cases h
        exact ⟨hok, h0, h1, rfl⟩
      · cases h

/-- `fork`'s loop over the descriptors `l` adds to each entry a reference
for each descriptor of `p` in `l` that points to it, and copies those
descriptors into the child `np`. -/
theorem dupLoop_spec {np : Slot} (hne : p ≠ np) (l : List Fd) :
    ∀ s s2 : Sys, l.Nodup → dupLoop p np s l = some s2 →
      s2 = { s with file := s2.file, ofile := s2.ofile } ∧
      (∀ g, s2.file g = { s.file g with ref := (s2.file g).ref }) ∧
      (∀ g, (s2.file g).ref = (s.file g).ref + ∑ i ∈ l.toFinset, if s.ofile p i = some g then 1 else 0) ∧
      ∀ q i, s2.ofile q i = if q = np ∧ i ∈ l ∧ s.ofile p i ≠ none then s.ofile p i else s.ofile q i := by
  induction l with
  | nil =>
    intro s s2 _ h
    cases h
    exact ⟨rfl, fun g => rfl, fun g => by simp, fun q i => by simp⟩
  | cons i l ih =>
    intro s s2 hnd h
    obtain ⟨hil, hnd'⟩ := List.nodup_cons.mp hnd
    have hil' : i ∉ l.toFinset := by simpa using hil
    simp only [dupLoop] at h
    split at h
    · -- descriptor `i` is closed: nothing to duplicate
      next hpi =>
      obtain ⟨e, hf, hr, ho⟩ := ih s s2 hnd' h
      refine ⟨e, hf, fun g => ?_, fun q j => ?_⟩
      · rw [hr g, List.toFinset_cons, Finset.sum_insert hil']
        simp [hpi]
      · rw [ho q j]
        by_cases hj : j = i
        · subst hj
          simp [hpi]
        · simp [hj]
    · -- descriptor `i` points to `f`: `filedup(f)`, then the child's slot
      next f hpi =>
      obtain ⟨s1, hd, hl⟩ := Option.bind_eq_some_iff.mp h
      obtain ⟨h1, rfl⟩ := filedup_eq hd
      obtain ⟨e, hf, hr, ho⟩ := ih _ s2 hnd' hl
      have hop : ∀ j, ((s.setFile f { s.file f with ref := (s.file f).ref + 1 }).setOfile np i (some f)).ofile p j =
          s.ofile p j := fun j => by simp [hne]
      refine ⟨?_, fun g => ?_, fun g => ?_, fun q j => ?_⟩
      · rw [e]
        rfl
      · rw [hf g]
        by_cases hg : g = f
        · subst hg
          simp
        · simp [hg]
      · rw [hr g, List.toFinset_cons, Finset.sum_insert hil']
        simp only [hop, hpi, Option.some.injEq, Sys.setOfile_file, Sys.setFile_file]
        by_cases hg : g = f
        · subst hg
          simp only [Function.update_self, if_true]
          omega
        · simp only [Function.update_of_ne hg, Ne.symm hg, if_false]
          omega
      · rw [ho q j, hop]
        by_cases hj : j = i
        · subst hj
          by_cases hq : q = np
          · subst hq
            simp [hpi, hil]
          · simp [hq]
        · by_cases hq : q = np
          · subst hq
            simp [hj]
          · simp [hq]

end Calls

/-! ## How the counts change -/

namespace Sys

variable (s : Sys)

@[simp] theorem alloc_ofile (f : Fid) : (s.alloc f).ofile = s.ofile := rfl
@[simp] theorem alloc_pc (f : Fid) : (s.alloc f).pc = s.pc := rfl
@[simp] theorem alloc_file (f : Fid) :
    (s.alloc f).file = Function.update s.file f { s.file f with ref := 1, gen := s.ngen } := rfl
@[simp] theorem alloc_ptable (f : Fid) : (s.alloc f).ptable = s.ptable := rfl
@[simp] theorem alloc_pipes (f : Fid) : (s.alloc f).pipes = s.pipes := rfl
@[simp] theorem alloc_npipes (f : Fid) : (s.alloc f).npipes = s.npipes := rfl
@[simp] theorem alloc_kfrees (f : Fid) : (s.alloc f).kfrees = s.kfrees := rfl
@[simp] theorem alloc_ngen (f : Fid) : (s.alloc f).ngen = s.ngen + 1 := rfl
@[simp] theorem alloc_opened (f : Fid) : (s.alloc f).opened = s.opened := rfl
@[simp] theorem alloc_iputs (f : Fid) : (s.alloc f).iputs = s.iputs := rfl

theorem held_congr {s' : Sys} {p : Slot} (ho : ∀ i, s'.ofile p i = s.ofile p i) (hc : s'.pc p = s.pc p) :
    s'.held p = s.held p := by
  funext f
  simp only [held, ho, hc]

theorem held_eq_of_iff {s' : Sys} {p : Slot} {f : Fid}
    (h : ∀ i, (s'.ofile p i = some f ∧ (s'.pc p).clears ≠ some i) ↔ (s.ofile p i = some f ∧ (s.pc p).clears ≠ some i))
    (hpd : (s'.pc p).pending f = (s.pc p).pending f) : s'.held p f = s.held p f := by
  rw [held, held, Tally.tally_congr h, hpd]

@[simp] theorem held_setFile (f : Fid) (x : File) : (s.setFile f x).held = s.held := rfl

@[simp] theorem held_alloc (f : Fid) : (s.alloc f).held = s.held := rfl

theorem held_idle {p : Slot} (hp : s.pc p = .idle) (f : Fid) :
    s.held p f = Tally.tally fun i => s.ofile p i = some f := by
  simp [held, hp, Pc.clears, Pc.pending]

theorem sum_held_of_eq_off (s' : Sys) (p : Slot) (hq : ∀ q, q ≠ p → s'.held q = s.held q) (f : Fid) :
    ∑ q, s'.held q f + s.held p f = ∑ q, s.held q f + s'.held p f := by
  apply Tally.sum_add_eq_of_eq_off p
  intro q h
  rw [hq q h]

theorem sum_held_setOfile {p : Slot} {i : Fd} (v : Option Fid) (hc : (s.pc p).clears ≠ some i) (f : Fid) :
    ∑ q, (s.setOfile p i v).held q f + (if s.ofile p i = some f then 1 else 0) =
      ∑ q, s.held q f + (if v = some f then 1 else 0) := by
  have hoff := s.sum_held_of_eq_off (s.setOfile p i v) p
    (fun q hq => held_congr s (by simp [hq]) (by simp)) f
  have hp := Tally.tally_add_eq_of_iff_off (P := fun j => s.ofile p j = some f ∧ (s.pc p).clears ≠ some j)
    (Q := fun j => Function.update (s.ofile p) i v j = some f ∧ (s.pc p).clears ≠ some j) i
    (fun j hj => by simp [hj])
  simp only [Function.update_self, hc, ne_eq, not_false_eq_true, and_true] at hp
  simp only [held, setOfile_ofile, setOfile_pc, Function.update_self, ne_eq] at hoff ⊢
  omega

theorem sum_held_setPc {p : Slot} {c : Pc} (hc : c.clears = (s.pc p).clears) (f : Fid) :
    ∑ q, (s.setPc p c).held q f + (s.pc p).pending f = ∑ q, s.held q f + c.pending f := by
  have hoff := s.sum_held_of_eq_off (s.setPc p c) p
    (fun q hq => held_congr s (by simp) (by simp [hq])) f
  simp only [held, setPc_ofile, setPc_pc, Function.update_self, hc] at hoff ⊢
  omega

@[simp] theorem copies_setOfile (p : Slot) (i : Fd) (v : Option Fid) (P : File → Prop) [DecidablePred P] :
    (s.setOfile p i v).copies P = s.copies P := rfl

theorem copies_setPc (p : Slot) (c : Pc) (P : File → Prop) [DecidablePred P] :
    (s.setPc p c).copies P + (s.pc p).copies P = s.copies P + c.copies P := by
  have hoff : ∑ q, (Function.update s.pc p c q).copies P + (s.pc p).copies P =
      ∑ q, (s.pc q).copies P + (Function.update s.pc p c p).copies P := by
    apply Tally.sum_add_eq_of_eq_off p
    intro q hq
    simp [hq]
  simp only [copies, setPc_file, setPc_pc, Function.update_self] at hoff ⊢
  omega

theorem copies_setFile (f : Fid) (x : File) (P : File → Prop) [DecidablePred P] :
    (s.setFile f x).copies P + (if 0 < (s.file f).ref ∧ P (s.file f) then 1 else 0) =
      s.copies P + (if 0 < x.ref ∧ P x then 1 else 0) := by
  have hf := Tally.tally_add_eq_of_iff_off (P := fun g => 0 < (s.file g).ref ∧ P (s.file g))
    (Q := fun g => 0 < (Function.update s.file f x g).ref ∧ P (Function.update s.file f x g)) f
    (fun g hg => by simp [hg])
  simp only [Function.update_self] at hf
  simp only [copies, setFile_file, setFile_pc]
  omega

end Sys

end Xv6.Ftable

namespace Xv6.Ftable

namespace Pc

@[simp] theorem pending_idle (f : Fid) : Pc.idle.pending f = 0 := rfl
@[simp] theorem clears_idle : Pc.idle.clears = none := rfl
@[simp] theorem exitFrom_idle : Pc.idle.exitFrom = 0 := rfl
@[simp] theorem copies_idle (P : File → Prop) [DecidablePred P] : Pc.idle.copies P = 0 := rfl

end Pc

/-- The properties of an entry that `copies` counts: they hold of pipe
and inode entries only, and do not look at `ref`. -/
structure Sel (P : File → Prop) : Prop where
  typed : ∀ x, P x → x.type ≠ .FD_NONE
  ref : ∀ x n, P { x with ref := n } ↔ P x

theorem sel_isEnd (pi : Nat) (w : Bool) : Sel (File.isEnd pi w) :=
  ⟨fun x h => by rw [h.1]; simp, fun _ _ => Iff.rfl⟩

theorem sel_holds (g : Nat × Ip) : Sel (File.holds g) :=
  ⟨fun x h => by rcases h.1 with h | h <;> rw [h] <;> simp, fun _ _ => Iff.rfl⟩

namespace Sys

variable (s : Sys)

theorem sum_held_closing {p : Slot} (hp : s.pc p = .idle) (fs : List Fid) (f : Fid) :
    ∑ q, (s.closing p fs).held q f = ∑ q, s.held q f + fs.count f := by
  have := s.sum_held_setPc (p := p) (c := fs.foldr Pc.close .idle) (by simp [hp, Pc.clears]) f
  simp only [hp, Pc.pending_idle, Pc.pending_foldr, Nat.add_zero] at this
  rw [closing, this]

theorem copies_closing {p : Slot} (hp : s.pc p = .idle) (fs : List Fid) (P : File → Prop)
    [DecidablePred P] : (s.closing p fs).copies P = s.copies P := by
  have := s.copies_setPc p (fs.foldr Pc.close .idle) P
  simp only [hp, Pc.copies_idle, Pc.copies_foldr, Nat.add_zero] at this
  rw [closing, this]

variable {P : File → Prop} [DecidablePred P]

theorem copies_congr {s' : Sys} (hf : s'.file = s.file) (hp : s'.pc = s.pc) : s'.copies P = s.copies P := by
  simp only [copies, hf, hp]

theorem copies_setFile_of {f : Fid} {x : File} (h : (0 < x.ref ∧ P x) ↔ (0 < (s.file f).ref ∧ P (s.file f))) :
    (s.setFile f x).copies P = s.copies P := by
  have := s.copies_setFile f x P
  rw [if_congr h rfl rfl] at this
  omega

theorem copies_alloc (hP : Sel P) {f : Fid} (ht : (s.file f).type = .FD_NONE) :
    (s.alloc f).copies P = s.copies P := by
  have h1 : ¬P (s.file f) := fun h => hP.typed _ h ht
  have h2 : ¬P { s.file f with ref := 1, gen := s.ngen } := fun h => hP.typed _ h ht
  calc (s.alloc f).copies P = (s.setFile f { s.file f with ref := 1, gen := s.ngen }).copies P :=
        copies_congr _ rfl rfl
    _ = s.copies P := s.copies_setFile_of (by simp [h1, h2])

theorem copies_setRef (hP : Sel P) {f : Fid} {n : Nat} (h0 : 0 < (s.file f).ref) (hn : 0 < n) :
    (s.setFile f { s.file f with ref := n }).copies P = s.copies P := by
  apply s.copies_setFile_of
  rw [hP.ref]
  exact ⟨fun h => ⟨h0, h.2⟩, fun h => ⟨hn, h.2⟩⟩

theorem copies_of_refs {s' : Sys} (hP : Sel P) (hf : ∀ g, s'.file g = { s.file g with ref := (s'.file g).ref })
    (hpos : ∀ g, 0 < (s'.file g).ref ↔ 0 < (s.file g).ref) (hpc : s'.pc = s.pc) :
    s'.copies P = s.copies P := by
  have ht : (Tally.tally fun g => 0 < (s'.file g).ref ∧ P (s'.file g)) =
      Tally.tally fun g => 0 < (s.file g).ref ∧ P (s.file g) := by
    apply Tally.tally_congr
    intro g
    have e := hP.ref (s.file g) (s'.file g).ref
    rw [← hf g] at e
    rw [e, hpos g]
  unfold copies
  rw [ht, hpc]

end Sys

/-! ## The invariant -/

/-- The reference counts and the descriptors. -/
structure Refs (s : Sys) : Prop where
  /-- Each entry's count is the references the processes hold on it. -/
  ref_eq : ∀ f, (s.file f).ref = ∑ p, s.held p f
  /-- A free entry has no type. -/
  type_none : ∀ f, (s.file f).ref = 0 → (s.file f).type = .FD_NONE
  /-- A process that is gone holds nothing and makes no call. -/
  dead : ∀ p, ¬s.live p → s.pc p = .idle ∧ ∀ i, s.ofile p i = none
  /-- `exit` has cleared the descriptors below the one it is at. -/
  exiting : ∀ p (i : Fd), i.val < (s.pc p).exitFrom → s.ofile p i = none

/-- The pipes: their ends and their pages. -/
structure Pipes (s : Sys) : Prop where
  /-- No entry names a pipe not yet made. -/
  ends_new : ∀ pi w, s.npipes ≤ pi → s.ends pi w = 0
  /-- Each end of a pipe has one holder at most. -/
  ends_le : ∀ pi w, s.ends pi w ≤ 1
  /-- An end of a pipe is open while it has a holder. -/
  isOpen : ∀ pi w, pi < s.npipes → ((s.pipes pi).isOpen w = true ↔ s.ends pi w = 1)
  /-- The page of a pipe has been freed once if both ends are closed, and
  not at all otherwise. -/
  kfrees : ∀ pi, pi < s.npipes →
    s.kfrees pi = if (s.pipes pi).readopen || (s.pipes pi).writeopen then 0 else 1
  /-- No page of a pipe not yet made has been freed. -/
  kfrees_new : ∀ pi, s.npipes ≤ pi → s.kfrees pi = 0

/-- The inode references that `open` hands to files. -/
structure Inodes (s : Sys) : Prop where
  /-- `open` numbers its references by `filealloc`s already made. -/
  opened_lt : ∀ g ∈ s.opened, g.1 < s.ngen
  /-- Each inode reference `open` handed out is held once or given back
  once, and no other is held or given back. -/
  iheld : ∀ g, s.iheld g + s.iputs.count g = if g ∈ s.opened then 1 else 0

/-- What every reachable state satisfies. -/
structure Inv (s : Sys) : Prop extends Refs s, Pipes s, Inodes s

theorem inv_init (t : Ptable) : Inv (init t) where
  ref_eq f := by simp [init, File.zero, Sys.held, Tally.tally]
  type_none f _ := rfl
  dead p _ := ⟨rfl, fun _ => rfl⟩
  exiting p i h := rfl
  ends_new pi w _ := by simp [init, Sys.ends, Sys.copies, File.zero, Tally.tally]
  ends_le pi w := by simp [init, Sys.ends, Sys.copies, File.zero, Tally.tally]
  isOpen pi w h := absurd h (Nat.not_lt_zero pi)
  kfrees pi h := absurd h (Nat.not_lt_zero pi)
  kfrees_new pi _ := rfl
  opened_lt g h := absurd h List.not_mem_nil
  iheld g := by simp [init, Sys.iheld, Sys.copies, File.zero, Tally.tally]

section Frame

variable {s s' : Sys}

theorem Pipes.congr (h : Pipes s) (hc : ∀ pi w, s'.ends pi w = s.ends pi w)
    (hpi : s'.pipes = s.pipes) (hn : s'.npipes = s.npipes) (hk : s'.kfrees = s.kfrees) : Pipes s' where
  ends_new pi w hpi' := by
    rw [hc]
    exact h.ends_new pi w (hn ▸ hpi')
  ends_le pi w := by
    rw [hc]
    exact h.ends_le pi w
  isOpen pi w hpi' := by
    rw [hc, hpi]
    exact h.isOpen pi w (hn ▸ hpi')
  kfrees pi hpi' := by
    rw [hk, hpi]
    exact h.kfrees pi (hn ▸ hpi')
  kfrees_new pi hpi' := by
    rw [hk]
    exact h.kfrees_new pi (hn ▸ hpi')

theorem Inodes.congr (h : Inodes s) (hc : ∀ g, s'.iheld g = s.iheld g) (ho : s'.opened = s.opened)
    (hi : s'.iputs = s.iputs) (hg : s.ngen ≤ s'.ngen) : Inodes s' where
  opened_lt g hg' := by
    rw [ho] at hg'
    exact Nat.lt_of_lt_of_le (h.opened_lt g hg') hg
  iheld g := by
    rw [hc, hi, ho]
    exact h.iheld g

theorem Inv.frame (h : Inv s) (hr : Refs s')
    (hc : ∀ (P : File → Prop) [DecidablePred P], Sel P → s'.copies P = s.copies P)
    (hpi : s'.pipes = s.pipes) (hn : s'.npipes = s.npipes) (hk : s'.kfrees = s.kfrees)
    (ho : s'.opened = s.opened) (hi : s'.iputs = s.iputs) (hg : s.ngen ≤ s'.ngen) : Inv s' :=
  { hr, h.toPipes.congr (fun pi w => hc _ (sel_isEnd pi w)) hpi hn hk,
    h.toInodes.congr (fun g => hc _ (sel_holds g)) ho hi hg with }

end Frame

end Xv6.Ftable

namespace Xv6.Ftable

/-! ## The system calls keep the invariant -/

section Calls

variable {s s' : Sys} {p : Slot}

theorem Sys.live_congr (hpt : s'.ptable = s.ptable) (q : Slot) : s'.live q ↔ s.live q := by
  simp only [Sys.live, hpt]

/-- A step of the live process `p` that touches no other process and
leaves the process table alone keeps the descriptor part of the invariant,
given the counts and what `exit` has cleared. -/
theorem Refs.local (h : Refs s) (hl : s.live p) (hpt : s'.ptable = s.ptable)
    (hq : ∀ q, q ≠ p → s'.pc q = s.pc q ∧ ∀ i, s'.ofile q i = s.ofile q i)
    (hex : ∀ i : Fd, i.val < (s'.pc p).exitFrom → s'.ofile p i = none)
    (hr : ∀ f, (s'.file f).ref = ∑ q, s'.held q f)
    (ht : ∀ f, (s'.file f).ref = 0 → (s'.file f).type = .FD_NONE) : Refs s' where
  ref_eq := hr
  type_none := ht
  dead q hq' := by
    have hl' : ¬s.live q := by rwa [← Sys.live_congr hpt]
    have hqp : q ≠ p := fun e => hl' (e ▸ hl)
    obtain ⟨hpc, ho⟩ := hq q hqp
    obtain ⟨hd1, hd2⟩ := h.dead q hl'
    exact ⟨hpc.trans hd1, fun i => (ho i).trans (hd2 i)⟩
  exiting q i hi := by
    by_cases hqp : q = p
    · subst hqp
      exact hex i hi
    · obtain ⟨hpc, ho⟩ := hq q hqp
      rw [hpc] at hi
      rw [ho]
      exact h.exiting q i hi

theorem Refs.call (h : Refs s) (hp : s.ready p) (hpt : s'.ptable = s.ptable)
    (hq : ∀ q, q ≠ p → s'.pc q = s.pc q ∧ ∀ i, s'.ofile q i = s.ofile q i)
    (hfrom : (s'.pc p).exitFrom = 0) (hr : ∀ f, (s'.file f).ref = ∑ q, s'.held q f)
    (ht : ∀ f, (s'.file f).ref = 0 → (s'.file f).type = .FD_NONE) : Refs s' :=
  h.local hp.1 hpt hq (fun _ hi => absurd (hfrom ▸ hi) (Nat.not_lt_zero _)) hr ht

theorem Inv.sysClose (h : Inv s) (hp : s.ready p) (fd : Int32) : Inv (sysClose s p fd) := by
  unfold Ftable.sysClose
  split
  · exact h
  · next i f hfd =>
    have hof := argfd_eq hfd
    have hc : (s.pc p).clears ≠ some i := by simp [hp.2]
    have hp1 : (s.setOfile p i none).pc p = .idle := by simp [hp.2]
    refine h.frame (h.toRefs.call hp rfl (fun q hq => ⟨by simp [hq], fun j => by simp [hq]⟩)
      (by simp [Pc.exitFrom]) ?_ ?_) (fun P _ _ => by rw [Sys.copies_closing _ hp1]; rfl) rfl rfl rfl rfl rfl le_rfl
    · intro g
      have e1 := s.sum_held_setOfile none hc g
      have e2 := (s.setOfile p i none).sum_held_closing hp1 [f] g
      have e0 := h.ref_eq g
      simp only [hof, Option.some.injEq, reduceCtorEq, if_false, List.count_singleton, beq_iff_eq] at e1 e2
      simp only [Sys.closing_file, Sys.setOfile_file]
      omega
    · intro g hg
      exact h.type_none g (by simpa using hg)

theorem type_none_setFile {f : Fid} {x : File}
    (h : ∀ g, g ≠ f → (s.file g).ref = 0 → (s.file g).type = .FD_NONE) (hx : 0 < x.ref) :
    ∀ g, ((s.setFile f x).file g).ref = 0 → ((s.setFile f x).file g).type = .FD_NONE := by
  intro g hg
  by_cases hgf : g = f
  · subst hgf
    simp only [Sys.setFile_file, Function.update_self] at hg
    omega
  · simp only [Sys.setFile_file, Function.update_of_ne hgf] at hg ⊢
    exact h g hgf hg

theorem Inv.sysDup (h : Inv s) (hp : s.ready p) {fd : Int32} (hs : Ftable.sysDup s p fd = some s') :
    Inv s' := by
  unfold Ftable.sysDup at hs
  split at hs
  · cases hs
    exact h
  · next i f hfd =>
    have hof := argfd_eq hfd
    split at hs
    · cases hs
      exact h
    · next fd1 s1 hfa =>
      obtain ⟨hnone, rfl⟩ := fdalloc_eq hfa
      obtain ⟨h1, rfl⟩ := filedup_eq hs
      have hc : (s.pc p).clears ≠ some fd1 := by simp [hp.2]
      simp only [Sys.setOfile_file] at h1 ⊢
      refine h.frame (h.toRefs.call hp rfl (fun q hq => ⟨by simp, fun j => by simp [hq]⟩)
        (by simp [hp.2]) ?_ (type_none_setFile (fun g _ hg => by simpa using h.type_none g (by simpa using hg))
          (by simp))) ?_ rfl rfl rfl rfl rfl le_rfl
      · intro g
        have e1 := s.sum_held_setOfile (some f) hc g
        have e0 := h.ref_eq g
        simp only [hnone, reduceCtorEq, if_false, Option.some.injEq] at e1
        simp only [Sys.held_setFile, Sys.setFile_file]
        by_cases hg : g = f
        · subst hg
          simp only [Function.update_self, if_true] at e1 ⊢
          omega
        · simp only [Function.update_of_ne hg, Ne.symm hg, if_false, Sys.setOfile_file] at e1 ⊢
          omega
      · intro P _ hP
        exact Sys.copies_setRef _ hP h1 (Nat.succ_pos _)

/-- `open` hands the file the reference `(gen, ip)` of a new `filealloc`. -/
theorem Inodes.install (h : Inodes s) {s' : Sys} {g₀ : Nat × Ip} (h₀ : g₀.1 = s.ngen)
    (hc : ∀ g, s'.iheld g = s.iheld g + if g = g₀ then 1 else 0)
    (ho : s'.opened = g₀ :: s.opened) (hi : s'.iputs = s.iputs) (hg : s'.ngen = s.ngen + 1) :
    Inodes s' where
  opened_lt g hg' := by
    rw [ho, List.mem_cons] at hg'
    rcases hg' with rfl | hg'
    · omega
    · have := h.opened_lt g hg'
      omega
  iheld g := by
    have hnew : g₀ ∉ s.opened := fun hm => by have := h.opened_lt _ hm; omega
    have := h.iheld g
    rw [hc, hi]
    simp only [ho, List.mem_cons]
    by_cases hg' : g = g₀
    · subst hg'
      simp only [hnew, if_false] at this
      simp
      omega
    · simp only [hg', if_false, false_or]
      omega

/-- `open`'s success: a free entry `f`, handed out and typed as `x`, put
in the free descriptor `fd`, with the inode reference recorded. -/
theorem Inv.install (h : Inv s) (hp : s.ready p) {f : Fid} {fd : Fd} {x : File} {g₀ : Nat × Ip}
    (h0 : (s.file f).ref = 0) (hnone : s.ofile p fd = none) (hx1 : x.ref = 1)
    (hxt : x.type = .FD_INODE ∨ x.type = .FD_DEVICE) (hxg : (x.gen, x.ip) = g₀) (h₀ : g₀.1 = s.ngen) :
    Inv { ((s.alloc f).setOfile p fd (some f)).setFile f x with opened := g₀ :: s.opened } := by
  have ht0 := h.type_none f h0
  have hc : ((s.alloc f).pc p).clears ≠ some fd := by simp [hp.2]
  have hf2 : ((s.alloc f).setOfile p fd (some f)).file f = { s.file f with ref := 1, gen := s.ngen } := by
    simp
  -- what `copies` counts changes at the new entry only
  have hcop : ∀ (P : File → Prop) [DecidablePred P], Sel P →
      (((s.alloc f).setOfile p fd (some f)).setFile f x).copies P = s.copies P + if P x then 1 else 0 := by
    intro P _ hP
    have e := ((s.alloc f).setOfile p fd (some f)).copies_setFile f x P
    have hn2 : ¬P (((s.alloc f).setOfile p fd (some f)).file f) := fun hP2 =>
      hP.typed _ hP2 (by rw [hf2]; exact ht0)
    rw [Sys.copies_setOfile, Sys.copies_alloc _ hP ht0] at e
    simp only [hn2, and_false, if_false, hx1, Nat.one_pos, true_and] at e
    omega
  refine ⟨?_, ?_, ?_⟩
  · refine h.toRefs.call hp rfl (fun q hq => ⟨by simp, fun j => by simp [hq]⟩) (by simp [hp.2]) ?_ ?_
    · intro g
      have e1 := (s.alloc f).sum_held_setOfile (some f) hc g
      have e0 := h.ref_eq g
      simp only [Sys.alloc_ofile, hnone, reduceCtorEq, if_false, Option.some.injEq, Sys.held_alloc] at e1
      change (Function.update ((s.alloc f).setOfile p fd (some f)).file f x g).ref =
        ∑ q, ((s.alloc f).setOfile p fd (some f)).held q g
      by_cases hgf : g = f
      · subst hgf
        simp only [Function.update_self, hx1, if_true] at e1 ⊢
        omega
      · simp only [Function.update_of_ne hgf, Ne.symm hgf, if_false, Sys.setOfile_file,
          Sys.alloc_file] at e1 ⊢
        omega
    · change ∀ g, ((((s.alloc f).setOfile p fd (some f)).setFile f x).file g).ref = 0 → _
      refine type_none_setFile (fun g hgf hg => ?_) (by omega)
      simp only [Sys.setOfile_file, Sys.alloc_file, Function.update_of_ne hgf] at hg ⊢
      exact h.type_none g hg
  · refine h.toPipes.congr (fun pi w => ?_) rfl rfl rfl
    have := hcop _ (sel_isEnd pi w)
    have hne : ¬x.isEnd pi w := fun he => by rcases hxt with ht | ht <;> rw [he.1] at ht <;> cases ht
    simp only [hne, if_false, Nat.add_zero] at this
    exact this
  · refine h.toInodes.install h₀ (fun g => ?_) rfl rfl (by simp)
    change (((s.alloc f).setOfile p fd (some f)).setFile f x).copies (File.holds g) =
      s.copies (File.holds g) + if g = g₀ then 1 else 0
    rw [hcop _ (sel_holds g)]
    simp only [File.holds, hxt, true_and, hxg]
    by_cases hg : g = g₀
    · simp [hg]
    · simp [hg, Ne.symm hg]

/-! ### Building blocks of the calls -/

namespace Sys

theorem closing_nil {s : Sys} {p : Slot} (hp : s.pc p = .idle) : s.closing p [] = s := by
  unfold closing setPc
  rw [List.foldr_nil, ← hp, Function.update_eq_self]

theorem setOfile_same {s : Sys} {p : Slot} {i : Fd} {v : Option Fid} (h : s.ofile p i = v) :
    s.setOfile p i v = s := by
  unfold setOfile
  rw [← h, Function.update_eq_self, Function.update_eq_self]

theorem setOfile_setOfile (s : Sys) (p : Slot) (i : Fd) (v w : Option Fid) :
    (s.setOfile p i v).setOfile p i w = s.setOfile p i w := by
  simp only [setOfile, Function.update_self, Function.update_idem]

theorem setOfile_comm (s : Sys) (p : Slot) {i j : Fd} (hij : i ≠ j) (v w : Option Fid) :
    (s.setOfile p i v).setOfile p j w = (s.setOfile p j w).setOfile p i v := by
  simp only [setOfile, Function.update_self, Function.update_idem, Function.update_comm hij]

end Sys

section Build

variable {t : Sys} {f : Fid}

/-- `filealloc` followed, in the failure path of a call, by the
`fileclose` of the entry it handed out. -/
theorem Inv.alloc_closing {fs : List Fid} (h : Inv (t.closing p fs)) (hl : t.live p) (hidle : t.pc p = .idle)
    (h0 : (t.file f).ref = 0) : Inv ((t.alloc f).closing p (fs ++ [f])) := by
  have ht0 : (t.file f).type = .FD_NONE := by simpa using h.type_none f (by simpa using h0)
  refine h.frame ?_ (fun P _ hP => ?_) rfl rfl rfl rfl rfl (by simp)
  · -- the new entry is held by the added `fileclose`
    have hheld : ∀ g, ∑ q, ((t.alloc f).closing p (fs ++ [f])).held q g =
        ∑ q, (t.closing p fs).held q g + if f = g then 1 else 0 := by
      intro g
      have e := (t.alloc f).sum_held_closing (by simpa using hidle) (fs ++ [f]) g
      have e' := t.sum_held_closing hidle fs g
      simp only [Sys.held_alloc, List.count_append, List.count_singleton, beq_iff_eq] at e
      omega
    refine ⟨fun g => ?_, fun g hg => ?_, fun q hq => ?_, fun q i hi => ?_⟩
    · have e0 := h.ref_eq g
      rw [hheld]
      simp only [Sys.closing_file, Sys.alloc_file] at e0 ⊢
      by_cases hg : g = f
      · subst hg
        simp only [Function.update_self, if_true]
        omega
      · simp only [Function.update_of_ne hg, Ne.symm hg, if_false]
        omega
    · by_cases hg' : g = f
      · subst hg'
        simp at hg
      · simpa [Function.update_of_ne hg'] using h.type_none g (by simpa [Function.update_of_ne hg'] using hg)
    · have hqp : q ≠ p := fun e => hq (e ▸ hl)
      simpa [hqp] using h.dead q hq
    · by_cases hqp : q = p
      · subst hqp
        simp [Pc.exitFrom] at hi
      · simpa [hqp] using h.exiting q i (by simpa [hqp] using hi)
  · rw [Sys.copies_closing _ (by simpa using hidle), Sys.copies_alloc _ hP ht0, Sys.copies_closing _ hidle]

/-- `filealloc` followed by `fdalloc` putting the entry in the free
descriptor `fd`. -/
theorem Inv.alloc_install {fd : Fd} (h : Inv t) (hl : t.live p) (hidle : t.pc p = .idle)
    (h0 : (t.file f).ref = 0) (hfd : t.ofile p fd = none) : Inv ((t.alloc f).setOfile p fd (some f)) := by
  have ht0 := h.type_none f h0
  refine h.frame ?_ (fun P _ hP => ?_) rfl rfl rfl rfl rfl (by simp)
  · refine h.toRefs.call ⟨hl, hidle⟩ rfl (fun q hq => ⟨by simp, fun j => by simp [hq]⟩) (by simp [hidle])
      (fun g => ?_) (fun g hg => ?_)
    · have e1 := (t.alloc f).sum_held_setOfile (some f) (p := p) (i := fd) (by simp [hidle]) g
      have e0 := h.ref_eq g
      simp only [Sys.alloc_ofile, hfd, reduceCtorEq, if_false, Option.some.injEq, Sys.held_alloc] at e1
      simp only [Sys.setOfile_file, Sys.alloc_file]
      by_cases hg : g = f
      · subst hg
        simp only [Function.update_self, if_true] at e1 ⊢
        omega
      · simp only [Function.update_of_ne hg, Ne.symm hg, if_false] at e1 ⊢
        omega
    · by_cases hg' : g = f
      · subst hg'
        simp at hg
      · simp only [Sys.setOfile_file, Sys.alloc_file, Function.update_of_ne hg'] at hg ⊢
        exact h.type_none g hg
  · rw [Sys.copies_setOfile, Sys.copies_alloc _ hP ht0]

/-- `pipealloc`'s success: two entries handed out and not yet typed
become the two ends of a new pipe. -/
theorem Inv.mkPipe {f0 f1 : Fid} (h : Inv t) (hne : f0 ≠ f1) (h0 : 0 < (t.file f0).ref)
    (h1 : 0 < (t.file f1).ref) (ht0 : (t.file f0).type = .FD_NONE) (ht1 : (t.file f1).type = .FD_NONE) :
    Inv (t.mkPipe f0 f1) := by
  -- the entries after `pipealloc`, one at a time
  have hfile : ∀ g, (t.mkPipe f0 f1).file g =
      Function.update (Function.update t.file f0 ((t.file f0).pipeEnd t.npipes false)) f1
        ((t.file f1).pipeEnd t.npipes true) g := fun g => rfl
  have href : ∀ g, ((t.mkPipe f0 f1).file g).ref = (t.file g).ref := by
    intro g
    rw [hfile]
    by_cases hg1 : g = f1
    · subst hg1
      simp [File.pipeEnd]
    · by_cases hg0 : g = f0
      · subst hg0
        simp [hg1, File.pipeEnd]
      · simp [hg0, hg1]
  have hcop : ∀ (P : File → Prop) [DecidablePred P], Sel P →
      (t.mkPipe f0 f1).copies P = t.copies P + (if P ((t.file f0).pipeEnd t.npipes false) then 1 else 0) +
        if P ((t.file f1).pipeEnd t.npipes true) then 1 else 0 := by
    intro P _ hP
    have e0 := t.copies_setFile f0 ((t.file f0).pipeEnd t.npipes false) P
    have e1 := (t.setFile f0 ((t.file f0).pipeEnd t.npipes false)).copies_setFile f1
      ((t.file f1).pipeEnd t.npipes true) P
    have hn0 : ¬P (t.file f0) := fun hp => hP.typed _ hp ht0
    have hn1 : ¬P (t.file f1) := fun hp => hP.typed _ hp ht1
    simp only [Sys.setFile_file, Function.update_of_ne (Ne.symm hne), hn0, hn1, and_false, if_false,
      Nat.add_zero, File.pipeEnd_ref, h0, h1, true_and] at e0 e1
    rw [Sys.copies_congr ((t.setFile f0 ((t.file f0).pipeEnd t.npipes false)).setFile f1
      ((t.file f1).pipeEnd t.npipes true)) (funext hfile) rfl]
    omega
  refine ⟨⟨fun g => ?_, fun g hg => ?_, fun q hq => h.dead q hq, fun q i hi => h.exiting q i hi⟩, ?_, ?_⟩
  · rw [href]
    exact h.ref_eq g
  · rw [href] at hg
    have hg0 : g ≠ f0 := fun e => by rw [e] at hg; omega
    have hg1 : g ≠ f1 := fun e => by rw [e] at hg; omega
    rw [hfile, Function.update_of_ne hg1, Function.update_of_ne hg0]
    exact h.type_none g hg
  · have hends : ∀ pi w, (t.mkPipe f0 f1).ends pi w = t.ends pi w + if pi = t.npipes then 1 else 0 := by
      intro pi w
      rw [Sys.ends, hcop _ (sel_isEnd pi w), Sys.ends]
      cases w <;> by_cases hpi : pi = t.npipes <;> simp [File.isEnd, File.pipeEnd, hpi, eq_comm]
    refine ⟨fun pi w hpi => ?_, fun pi w => ?_, fun pi w hpi => ?_, fun pi hpi => ?_, fun pi hpi => ?_⟩
    · simp only [Sys.mkPipe_npipes] at hpi
      rw [hends, if_neg (by omega), Nat.add_zero]
      exact h.ends_new pi w (by omega)
    · rw [hends]
      by_cases hpi : pi = t.npipes
      · rw [if_pos hpi, h.ends_new pi w (by omega)]
      · rw [if_neg hpi, Nat.add_zero]
        exact h.ends_le pi w
    · simp only [Sys.mkPipe_npipes] at hpi
      rw [hends]
      by_cases hpi' : pi = t.npipes
      · subst hpi'
        simp [h.ends_new _ w le_rfl]
      · rw [if_neg hpi', Nat.add_zero, Sys.mkPipe_pipes, Function.update_of_ne hpi']
        exact h.isOpen pi w (by omega)
    · simp only [Sys.mkPipe_npipes] at hpi
      simp only [Sys.mkPipe_kfrees, Sys.mkPipe_pipes]
      by_cases hpi' : pi = t.npipes
      · subst hpi'
        simp [h.kfrees_new _ le_rfl, Pipe.alloc]
      · rw [Function.update_of_ne hpi']
        exact h.kfrees pi (by omega)
    · simp only [Sys.mkPipe_npipes] at hpi
      exact h.kfrees_new pi (by omega)
  · refine h.toInodes.congr (fun g => ?_) rfl rfl le_rfl
    rw [Sys.iheld, hcop _ (sel_holds g), Sys.iheld]
    simp [File.holds, File.pipeEnd]

end Build

theorem Inv.sysOpen (h : Inv s) (hp : s.ready p) (omode : Int32) (r : Option (Ip × Int16 × Int16)) :
    Inv (Ftable.sysOpen s p omode r) := by
  unfold Ftable.sysOpen
  split
  · exact h
  · next ip type major =>
    split
    · exact h
    split
    · exact h
    · split
      · exact h
      · next f s1 hfa =>
        obtain ⟨h0, rfl⟩ := filealloc_eq hfa
        have ht0 := h.type_none f h0
        split
        · -- `fdalloc` fails: the entry is closed again
          have hp1 : (s.alloc f).pc p = .idle := by simp [hp.2]
          refine h.frame (h.toRefs.call hp rfl (fun q hq => ⟨by simp [hq], fun j => by simp⟩)
            (by simp [Pc.exitFrom]) ?_ ?_) ?_ rfl rfl rfl rfl rfl (by simp)
          · intro g
            have e2 := (s.alloc f).sum_held_closing hp1 [f] g
            have e0 := h.ref_eq g
            simp only [List.count_singleton, beq_iff_eq, Sys.held_alloc] at e2
            simp only [Sys.closing_file, Sys.alloc_file]
            by_cases hg : g = f
            · subst hg
              simp only [Function.update_self, if_true] at e2 ⊢
              omega
            · simp only [Function.update_of_ne hg, Ne.symm hg, if_false] at e2 ⊢
              omega
          · intro g hg
            simp only [Sys.closing_file, Sys.alloc_file] at hg ⊢
            by_cases hgf : g = f
            · subst hgf
              simp at hg
            · rw [Function.update_of_ne hgf] at hg ⊢
              exact h.type_none g hg
          · intro P _ hP
            rw [Sys.copies_closing _ hp1, Sys.copies_alloc _ hP ht0]
        · -- the file is installed in descriptor `fd`
          next fd s2 hfd =>
          obtain ⟨hnone, rfl⟩ := fdalloc_eq hfd
          refine h.install hp h0 hnone (by simp) ?_ (by simp) (by simp)
          split <;> simp

theorem Inv.sysPipe (h : Inv s) (hp : s.ready p) (ok copyOk : Bool) :
    Inv (Ftable.sysPipe s p ok copyOk) := by
  have h₀ : Inv (s.closing p []) := by rw [Sys.closing_nil hp.2]; exact h
  unfold Ftable.sysPipe
  split
  · -- `pipealloc` fails and closes what it handed out
    next s1 fs hpa =>
    rcases pipealloc_error hpa with ⟨rfl, rfl⟩ | ⟨f0, h0, rfl, rfl⟩ | ⟨f0, f1, h0, h1, rfl, rfl⟩
    · exact h₀
    · exact h₀.alloc_closing hp.1 hp.2 h0
    · exact (h₀.alloc_closing hp.1 hp.2 h0).alloc_closing hp.1 hp.2 h1
  · next rf wf s3 hpa =>
    obtain ⟨-, h0, h1, rfl⟩ := pipealloc_ok hpa
    have hne : rf ≠ wf := fun e => by subst e; simp at h1
    have ht0 : (s.file rf).type = .FD_NONE := h.type_none rf h0
    have ht1 : (s.file wf).type = .FD_NONE := h.type_none wf (by simpa [Ne.symm hne] using h1)
    -- the failure paths close both ends of the new pipe
    have hfail : Inv ((((s.alloc rf).alloc wf).mkPipe rf wf).closing p [rf, wf]) := by
      have hc := (h₀.alloc_closing hp.1 hp.2 h0).alloc_closing hp.1 hp.2 h1
      exact hc.mkPipe hne (by simp [hne]) (by simp) (by simp [hne, ht0]) (by simp [Ne.symm hne, ht1])
    split
    · exact hfail
    · next fd0 s4 hfd0 =>
      obtain ⟨hnone0, rfl⟩ := fdalloc_eq hfd0
      split
      · rw [Sys.setOfile_setOfile, Sys.setOfile_same hnone0]
        exact hfail
      · next fd1 s5 hfd1 =>
        obtain ⟨hnone1, rfl⟩ := fdalloc_eq hfd1
        have h01 : fd0 ≠ fd1 := fun e => by subst e; simp at hnone1
        have hnone1' : (((s.alloc rf).alloc wf).mkPipe rf wf).ofile p fd1 = none := by
          simpa [Ne.symm h01] using hnone1
        split
        · -- both descriptors handed back
          have ht : Inv ((((s.alloc rf).setOfile p fd0 (some rf)).alloc wf).setOfile p fd1 (some wf)) := by
            have hi := h.alloc_install hp.1 hp.2 h0 (by simpa using hnone0)
            exact hi.alloc_install (by exact hp.1) (by simp [hp.2]) (by simpa using h1)
              (by simpa [Ne.symm h01] using hnone1')
          exact ht.mkPipe hne (by simp [hne]) (by simp) (by simp [hne, ht0]) (by simp [Ne.symm hne, ht1])
        · -- `copyout` fails: both descriptors cleared, both ends closed
          rw [Sys.setOfile_comm _ _ (Ne.symm h01), Sys.setOfile_setOfile, Sys.setOfile_setOfile,
            Sys.setOfile_same hnone0, Sys.setOfile_same hnone1']
          exact hfail

theorem Inv.ptable (h : Inv s) (t : Ptable) (hl : ∀ q, Sys.live { s with ptable := t } q ↔ s.live q) :
    Inv { s with ptable := t } :=
  h.frame ⟨h.ref_eq, h.type_none, fun q hq => h.dead q ((not_congr (hl q)).mp hq), h.exiting⟩
    (fun _ _ _ => rfl) rfl rfl rfl rfl rfl le_rfl

theorem Inv.fork (h : Inv s) (hp : s.ready p) {ok copyOk : Bool} (hs : Ftable.fork s p ok copyOk = some s') :
    Inv s' := by
  unfold Ftable.fork at hs
  have hst := fork_state s.ptable p ok copyOk
  -- when no child is made, the states stay as they were
  have hsame : ¬((allocproc s.ptable ok).1.isSome ∧ copyOk = true) →
      Inv { s with ptable := (Xv6.fork s.ptable p ok copyOk).2 } := by
    intro hno
    refine h.ptable _ fun q => ?_
    have : ((Xv6.fork s.ptable p ok copyOk).2.proc q).state = (s.ptable.proc q).state := by
      rw [hst]
      split_ifs with hq
      · exact absurd ⟨by simp [hq.1], hq.2⟩ hno
      · rfl
    simp only [Sys.live, this]
  split at hs
  · next np hnp =>
    split at hs
    · next hcopy =>
      obtain ⟨s2, hd, rfl⟩ := Option.map_eq_some_iff.mp hs
      have hu := allocproc_fst_unused hnp
      have hnl : ¬s.live np := fun hl => hl.1 hu
      have hne : p ≠ np := fun e => hnl (e ▸ hp.1)
      obtain ⟨hnpc, hnof⟩ := h.dead np hnl
      obtain ⟨e, hf, hr, ho⟩ := dupLoop_spec hne (List.finRange NOFILE) s s2 (List.nodup_finRange _) hd
      simp only [List.toFinset_finRange, List.mem_finRange, true_and] at hr ho
      have hpc : s2.pc = s.pc := by rw [e]
      -- the child's descriptors are the parent's
      have hof : ∀ q i, s2.ofile q i = if q = np then s.ofile p i else s.ofile q i := by
        intro q i
        rw [ho q i]
        by_cases hq : q = np
        · subst hq
          by_cases hpi : s.ofile p i = none <;> simp [hpi, hnof]
        · simp [hq]
      have hheld : ∀ q, q ≠ np → s2.held q = s.held q := fun q hq =>
        Sys.held_congr s (fun i => by simp [hof, hq]) (by rw [hpc])
      have hnheld : ∀ g, s2.held np g = Tally.tally fun i => s.ofile p i = some g := by
        intro g
        simp [Sys.held, hof, hpc, hnpc]
      have hheld0 : ∀ g, s.held np g = 0 := by
        intro g
        simp [Sys.held, hnof, hnpc, Tally.tally]
      have hpheld : ∀ g, s.held p g = Tally.tally fun i => s.ofile p i = some g := s.held_idle hp.2
      have hpos : ∀ g, 0 < (s2.file g).ref ↔ 0 < (s.file g).ref := by
        intro g
        have e0 := h.ref_eq g
        have := Tally.le_sum (fun q => s.held q g) p
        rw [hr g]
        simp only [hpheld] at this
        constructor <;> intro hg <;> simp only [Tally.tally] at * <;> omega
      refine h.frame ⟨fun g => ?_, fun g hg => ?_, fun q hq => ?_, fun q i hi => ?_⟩
        (fun P _ hP => Sys.copies_of_refs _ hP hf hpos hpc) (by rw [e]) (by rw [e]) (by rw [e])
        (by rw [e]) (by rw [e]) (by rw [e])
      · have := Sys.sum_held_of_eq_off s s2 np hheld g
        rw [hnheld, hheld0] at this
        change (s2.file g).ref = ∑ q, s2.held q g
        rw [hr g, h.ref_eq g]
        simp only [Tally.tally] at this ⊢
        omega
      · change (s2.file g).ref = 0 at hg
        change (s2.file g).type = .FD_NONE
        rw [hf g]
        exact h.type_none g (by rw [hr g] at hg; omega)
      · have hq' : ¬s.live q := by
          intro hl
          apply hq
          simp only [Sys.live, hst] at hl ⊢
          split_ifs
          · exact ⟨by decide, by decide⟩
          · exact hl
        have hqn : q ≠ np := by
          intro hqn
          subst hqn
          apply hq
          simp only [Sys.live]
          rw [hst]
          simp [hnp, hcopy]
        obtain ⟨h1, h2⟩ := h.dead q hq'
        exact ⟨by change s2.pc q = _; rw [hpc, h1], fun i => by change s2.ofile q i = _; rw [hof, if_neg hqn, h2]⟩
      · change i.val < (s2.pc q).exitFrom at hi
        change s2.ofile q i = none
        rw [hpc] at hi
        rw [hof]
        split_ifs with hq
        · subst hq
          rw [hnpc] at hi
          exact absurd hi (Nat.not_lt_zero _)
        · exact h.exiting q i hi
    · next hcopy =>
      cases hs
      exact hsame (by simp [hcopy])
  · next hnp =>
    cases hs
    exact hsame (by simp [hnp])

theorem Inv.exit (h : Inv s) (hp : s.ready p) {status : Int32} (hs : Ftable.exit s p status = some s') :
    Inv s' := by
  unfold Ftable.exit at hs
  split at hs
  · cases hs
  · cases hs
    refine h.frame (h.toRefs.call hp rfl (fun q hq => ⟨by simp [hq], fun i => by simp⟩)
      (by simp [Pc.exitFrom]) (fun g => ?_) (fun g hg => h.type_none g hg)) (fun P _ _ => ?_)
      rfl rfl rfl rfl rfl le_rfl
    · have := s.sum_held_setPc (p := p) (c := .exitLoop status 0) (by simp [hp.2, Pc.clears]) g
      simp only [hp.2, Pc.pending_idle, Pc.pending, Nat.add_zero] at this
      rw [Sys.setPc_file, h.ref_eq g, this]
    · have := s.copies_setPc p (.exitLoop status 0) P
      simp only [hp.2, Pc.copies_idle, Pc.copies, Nat.add_zero] at this
      rw [this]

end Calls

/-! ## The steps inside a call keep the invariant -/

section Run

variable {s : Sys} {p : Slot}

theorem Inv.live_of_pc (h : Inv s) (hpc : s.pc p ≠ .idle) : s.live p :=
  Classical.byContradiction fun hl => hpc (h.dead p hl).1

/-- The critical section of `fileclose(f)` when other references remain. -/
theorem Inv.closeKeep {f : Fid} {k : Pc} (h : Inv s) (hpc : s.pc p = .close f k) (h1 : 1 < (s.file f).ref) :
    Inv ((s.setFile f { s.file f with ref := (s.file f).ref - 1 }).setPc p k) := by
  have hl := h.live_of_pc (p := p) (by simp [hpc])
  refine h.frame (h.toRefs.local hl rfl (fun q hq => ⟨by simp [hq], fun i => by simp⟩) (fun i hi => ?_)
    (fun g => ?_) (fun g hg => ?_)) (fun P _ hP => ?_) rfl rfl rfl rfl rfl le_rfl
  · simpa using h.exiting p i (by simpa [hpc, Pc.exitFrom] using hi)
  · have e := (s.setFile f { s.file f with ref := (s.file f).ref - 1 }).sum_held_setPc (p := p) (c := k)
      (by simp [hpc, Pc.clears]) g
    simp only [Sys.held_setFile, Sys.setFile_pc, hpc, Pc.pending] at e
    have e0 := h.ref_eq g
    simp only [Sys.setPc_file, Sys.setFile_file]
    by_cases hg : g = f
    · subst hg
      simp only [Function.update_self, if_true] at e ⊢
      omega
    · simp only [Function.update_of_ne hg, Ne.symm hg, if_false] at e ⊢
      omega
  · simp only [Sys.setPc_file, Sys.setFile_file] at hg ⊢
    by_cases hgf : g = f
    · subst hgf
      simp only [Function.update_self] at hg
      omega
    · rw [Function.update_of_ne hgf] at hg ⊢
      exact h.type_none g hg
  · have e := (s.setFile f { s.file f with ref := (s.file f).ref - 1 }).copies_setPc p k P
    rw [Sys.setFile_pc, hpc, show (Pc.close f k).copies P = k.copies P from rfl,
      Sys.copies_setRef _ hP (by omega) (by omega)] at e
    omega

/-- The critical section of `fileclose(f)` that drops the last reference:
the entry is freed and its copy goes into the window. -/
theorem Inv.closeLast {f : Fid} {k : Pc} (h : Inv s) (hpc : s.pc p = .close f k) (h1 : (s.file f).ref = 1) :
    Inv ((s.setFile f { s.file f with ref := 0, type := .FD_NONE }).setPc p (.win { s.file f with ref := 0 } k)) := by
  have hl := h.live_of_pc (p := p) (by simp [hpc])
  refine h.frame (h.toRefs.local hl rfl (fun q hq => ⟨by simp [hq], fun i => by simp⟩) (fun i hi => ?_)
    (fun g => ?_) (fun g hg => ?_)) (fun P _ hP => ?_) rfl rfl rfl rfl rfl le_rfl
  · simpa using h.exiting p i (by simpa [hpc, Pc.exitFrom] using hi)
  · have e := (s.setFile f { s.file f with ref := 0, type := .FD_NONE }).sum_held_setPc (p := p)
      (c := .win { s.file f with ref := 0 } k) (by simp [hpc, Pc.clears]) g
    simp only [Sys.held_setFile, Sys.setFile_pc, hpc, Pc.pending] at e
    have e0 := h.ref_eq g
    simp only [Sys.setPc_file, Sys.setFile_file]
    by_cases hg : g = f
    · subst hg
      simp only [Function.update_self, if_true] at e ⊢
      omega
    · simp only [Function.update_of_ne hg, Ne.symm hg, if_false] at e ⊢
      omega
  · simp only [Sys.setPc_file, Sys.setFile_file] at hg ⊢
    by_cases hgf : g = f
    · subst hgf
      simp
    · rw [Function.update_of_ne hgf] at hg ⊢
      exact h.type_none g hg
  · -- the entry's count moves to the copy in the window
    have e := (s.setFile f { s.file f with ref := 0, type := .FD_NONE }).copies_setPc p
      (.win { s.file f with ref := 0 } k) P
    have e1 := s.copies_setFile f { s.file f with ref := 0, type := .FD_NONE } P
    have hx : P { s.file f with ref := 0 } ↔ P (s.file f) := hP.ref _ _
    simp only [Sys.setFile_pc, hpc, Pc.copies, Nat.lt_irrefl, false_and, if_false, h1, Nat.one_pos,
      true_and, hx] at e e1 ⊢
    by_cases hPf : P (s.file f)
    · simp only [hPf, if_true] at e e1
      omega
    · simp only [hPf, if_false] at e e1
      omega

section CloseRest

variable (s : Sys) (ff : File)

@[simp] theorem closeRest_file : (closeRest s ff).file = s.file := by unfold closeRest; split <;> rfl
@[simp] theorem closeRest_ofile : (closeRest s ff).ofile = s.ofile := by unfold closeRest; split <;> rfl
@[simp] theorem closeRest_pc : (closeRest s ff).pc = s.pc := by unfold closeRest; split <;> rfl
@[simp] theorem closeRest_ptable : (closeRest s ff).ptable = s.ptable := by unfold closeRest; split <;> rfl
@[simp] theorem closeRest_npipes : (closeRest s ff).npipes = s.npipes := by unfold closeRest; split <;> rfl
@[simp] theorem closeRest_ngen : (closeRest s ff).ngen = s.ngen := by unfold closeRest; split <;> rfl
@[simp] theorem closeRest_opened : (closeRest s ff).opened = s.opened := by unfold closeRest; split <;> rfl

end CloseRest

theorem Refs.congr {s1 : Sys} (h : Refs s) (hf : s1.file = s.file) (ho : s1.ofile = s.ofile)
    (hp : s1.pc = s.pc) (ht : s1.ptable = s.ptable) : Refs s1 := by
  have hh : s1.held = s.held := by
    funext q g
    simp only [Sys.held, ho, hp]
  refine ⟨fun g => ?_, fun g => ?_, fun q hq => ?_, fun q i => ?_⟩
  · rw [hf, hh]
    exact h.ref_eq g
  · rw [hf]
    exact h.type_none g
  · rw [hp, ho]
    exact h.dead q (by rwa [← Sys.live_congr ht])
  · rw [hp, ho]
    exact h.exiting q i

theorem copies_win {ff : File} {k : Pc} (hpc : s.pc p = .win ff k) (P : File → Prop) [DecidablePred P] :
    ((closeRest s ff).setPc p k).copies P + (if P ff then 1 else 0) = s.copies P := by
  have e := (closeRest s ff).copies_setPc p k P
  have e1 : (closeRest s ff).copies P = s.copies P := Sys.copies_congr s (closeRest_file s ff) (closeRest_pc s ff)
  have e2 : ((closeRest s ff).pc p).copies P = (if P ff then 1 else 0) + k.copies P := by
    simp [hpc, Pc.copies]
  omega

theorem Refs.win {ff : File} {k : Pc} (h : Refs s) (hl : s.live p) (hpc : s.pc p = .win ff k) :
    Refs ((closeRest s ff).setPc p k) := by
  have hr : Refs (s.setPc p k) := by
    refine h.local hl rfl (fun q hq => ⟨by simp [hq], fun i => by simp⟩) (fun i hi => ?_) (fun g => ?_)
      (fun g hg => h.type_none g hg)
    · simpa using h.exiting p i (by simpa [hpc, Pc.exitFrom] using hi)
    · have e := s.sum_held_setPc (p := p) (c := k) (by simp [hpc, Pc.clears]) g
      simp only [hpc, Pc.pending] at e
      rw [Sys.setPc_file, h.ref_eq g]
      omega
  exact hr.congr (by funext g; simp) (by funext q i; simp) (by funext q; simp) (by simp)

/-- `pipeclose` on the copy of an end of a pipe. -/
theorem Pipes.pipeclose {ff : File} {k : Pc} (h : Pipes s) (hpc : s.pc p = .win ff k)
    (hff : ff.type = .FD_PIPE) : Pipes ((closeRest s ff).setPc p k) := by
  set pi := ff.pipe
  set w := ff.writable
  have hend : ff.isEnd pi w := ⟨hff, rfl, rfl⟩
  have hends : ∀ pi' w', ((closeRest s ff).setPc p k).ends pi' w' + (if pi' = pi ∧ w' = w then 1 else 0) =
      s.ends pi' w' := by
    intro pi' w'
    have := copies_win hpc (File.isEnd pi' w')
    by_cases hc : pi' = pi ∧ w' = w
    · obtain ⟨rfl, rfl⟩ := hc
      simpa [hend, Sys.ends] using this
    · have hn : ¬ff.isEnd pi' w' := fun he => hc ⟨he.2.1.symm, he.2.2.symm⟩
      simp only [hn, if_false, Nat.add_zero] at this
      simpa [hc, Sys.ends] using this
  have h1 : s.ends pi w = 1 := by
    have := hends pi w
    have := h.ends_le pi w
    simp only [and_self, if_true] at *
    omega
  have hlt : pi < s.npipes := by
    by_contra hge
    have := h.ends_new pi w (by omega)
    omega
  have hopen : (s.pipes pi).isOpen w = true := (h.isOpen pi w hlt).mpr h1
  have hrest : closeRest s ff = Ftable.pipeclose s pi w := by simp [closeRest, hff, pi, w]
  have hnp : ((closeRest s ff).setPc p k).npipes = s.npipes := by simp
  have hpipes : ((closeRest s ff).setPc p k).pipes = Function.update s.pipes pi ((s.pipes pi).close w) := by
    rw [hrest]; rfl
  have hkf : ((closeRest s ff).setPc p k).kfrees =
      if !((s.pipes pi).close w).readopen && !((s.pipes pi).close w).writeopen then
        Function.update s.kfrees pi (s.kfrees pi + 1) else s.kfrees := by
    rw [hrest]; rfl
  have hk0 : s.kfrees pi = 0 := by
    rw [h.kfrees pi hlt]
    have : (s.pipes pi).readopen = true ∨ (s.pipes pi).writeopen = true := by
      unfold Pipe.isOpen at hopen
      split at hopen
      · exact .inr hopen
      · exact .inl hopen
    rcases this with h' | h' <;> simp [h']
  refine ⟨fun pi' w' hpi' => ?_, fun pi' w' => ?_, fun pi' w' hpi' => ?_, fun pi' hpi' => ?_, fun pi' hpi' => ?_⟩
  · have := hends pi' w'
    have := h.ends_new pi' w' (hnp ▸ hpi')
    omega
  · have := hends pi' w'
    have := h.ends_le pi' w'
    omega
  · rw [hnp] at hpi'
    rw [hpipes]
    have e := hends pi' w'
    have hio := h.isOpen pi' w' hpi'
    rcases eq_or_ne pi' pi with rfl | hp'
    · rw [Function.update_self, Pipe.isOpen_close]
      by_cases hw : w' = w
      · subst hw
        simp only [and_self, if_true] at e
        simp only [if_true, Bool.false_eq_true, false_iff]
        omega
      · simp only [hw, and_false, if_false, Nat.add_zero] at e
        rw [if_neg hw, e]
        exact hio
    · simp only [hp', false_and, if_false, Nat.add_zero] at e
      rw [Function.update_of_ne hp', e]
      exact hio
  · rw [hnp] at hpi'
    rw [hpipes, hkf]
    rcases eq_or_ne pi' pi with rfl | hp'
    · rw [Function.update_self]
      cases hr : ((s.pipes pi).close w).readopen <;> cases hw : ((s.pipes pi).close w).writeopen <;>
        simp [hk0]
    · rw [Function.update_of_ne hp']
      split
      · rw [Function.update_of_ne hp']
        exact h.kfrees pi' hpi'
      · exact h.kfrees pi' hpi'
  · rw [hnp] at hpi'
    rw [hkf]
    have hp' : pi' ≠ pi := by omega
    split
    · rw [Function.update_of_ne hp']
      exact h.kfrees_new pi' hpi'
    · exact h.kfrees_new pi' hpi'

/-- The rest of `fileclose`, on the copy `ff` in the window. -/
theorem Inv.closeWin {ff : File} {k : Pc} (h : Inv s) (hpc : s.pc p = .win ff k) :
    Inv ((closeRest s ff).setPc p k) := by
  have hl := h.live_of_pc (p := p) (by simp [hpc])
  have hr := h.toRefs.win hl hpc
  rcases hty : ff.type with _ | _ | _ | _
  · -- `FD_NONE`: nothing to release
    have hrest : closeRest s ff = s := by simp [closeRest, hty]
    refine h.frame hr (fun P _ hP => ?_) (by rw [hrest]; rfl) (by simp) (by rw [hrest]; rfl) (by simp)
      (by simp [hrest]) (by simp)
    have := copies_win hpc P
    simp only [show ¬P ff from fun hf => hP.typed _ hf hty, if_false, Nat.add_zero] at this
    exact this
  · -- `FD_PIPE`: `pipeclose`
    refine ⟨hr, h.toPipes.pipeclose hpc hty, h.toInodes.congr (fun g => ?_) (by simp) ?_ (by simp)⟩
    · have := copies_win hpc (File.holds g)
      simp only [File.holds, hty, reduceCtorEq, or_self, false_and, if_false, Nat.add_zero] at this
      exact this
    · simp [closeRest, hty, Ftable.pipeclose]
  all_goals
    -- `FD_INODE`, `FD_DEVICE`: `iput(ff.ip)`
    have hrest : closeRest s ff = { s with iputs := (ff.gen, ff.ip) :: s.iputs } := by simp [closeRest, hty]
    refine ⟨hr, h.toPipes.congr (fun pi w => ?_) (by rw [hrest]; rfl) (by simp) (by rw [hrest]; rfl), ?_, ?_⟩
    · have := copies_win hpc (File.isEnd pi w)
      simp only [File.isEnd, hty, reduceCtorEq, false_and, if_false, Nat.add_zero] at this
      exact this
    · intro g hg
      simp only [Sys.setPc_opened, Sys.setPc_ngen, closeRest_opened, closeRest_ngen] at hg ⊢
      exact h.opened_lt g hg
    · intro g
      have := copies_win hpc (File.holds g)
      have e := h.iheld g
      simp only [Sys.iheld] at e ⊢
      simp only [Sys.setPc_iputs, Sys.setPc_opened, hrest, List.count_cons,
        beq_iff_eq] at this ⊢
      by_cases hg : g = (ff.gen, ff.ip)
      · subst hg
        simp only [File.holds, hty, true_or, or_true, and_self, if_true] at this
        simp only [if_true]
        omega
      · simp only [File.holds, hty, Ne.symm hg, and_false, if_false, Nat.add_zero] at this
        simp only [Ne.symm hg, if_false, Nat.add_zero]
        omega

theorem Inv.setPc {c : Pc} (h : Inv s) (hl : s.live p) (hheld : ∀ f, (s.setPc p c).held p f = s.held p f)
    (hcp : ∀ (P : File → Prop) [DecidablePred P], c.copies P = (s.pc p).copies P)
    (hex : ∀ i : Fd, i.val < c.exitFrom → s.ofile p i = none) : Inv (s.setPc p c) := by
  refine h.frame (h.toRefs.local hl rfl (fun q hq => ⟨by simp [hq], fun i => by simp⟩) (fun i hi => ?_)
    (fun g => ?_) (fun g hg => h.type_none g hg)) (fun P _ _ => ?_) rfl rfl rfl rfl rfl le_rfl
  · simpa using hex i (by simpa using hi)
  · have e := s.sum_held_of_eq_off (s.setPc p c) p
      (fun q hq => Sys.held_congr s (by simp) (by simp [hq])) g
    rw [hheld g] at e
    rw [Sys.setPc_file, h.ref_eq g]
    omega
  · have e := s.copies_setPc p c P
    rw [hcp P] at e
    omega

theorem Inv.exitNext {status : Int32} {fd : Nat} (h : Inv s) (hpc : s.pc p = .exitLoop status fd)
    (hfd : fd < NOFILE) (hn : s.ofile p ⟨fd, hfd⟩ = none) :
    Inv (s.setPc p (.exitLoop status (fd + 1))) := by
  refine h.setPc (h.live_of_pc (by simp [hpc])) (fun g => ?_) (fun P _ => by simp [hpc, Pc.copies])
    (fun i hi => ?_)
  · simp [Sys.held, hpc, Pc.clears, Pc.pending]
  · rcases Nat.lt_succ_iff_lt_or_eq.mp hi with hi | hi
    · exact h.exiting p i (by simpa [hpc, Pc.exitFrom] using hi)
    · rw [show i = ⟨fd, hfd⟩ from Fin.ext hi]
      exact hn

theorem Inv.exitClose {status : Int32} {fd : Nat} {f : Fid} (h : Inv s) (hpc : s.pc p = .exitLoop status fd)
    (hfd : fd < NOFILE) (hf : s.ofile p ⟨fd, hfd⟩ = some f) :
    Inv (s.setPc p (.close f (.exitClear status ⟨fd, hfd⟩))) := by
  refine h.setPc (h.live_of_pc (by simp [hpc])) (fun g => ?_) (fun P _ => by simp [hpc, Pc.copies])
    (fun i hi => h.exiting p i (by simpa [hpc, Pc.exitFrom] using hi))
  -- the descriptor `fd` leaves the tally and enters the pending calls
  have e := Tally.tally_add_eq_of_iff_off
    (P := fun i => s.ofile p i = some g ∧ (s.pc p).clears ≠ some i)
    (Q := fun i => (s.setPc p (.close f (.exitClear status ⟨fd, hfd⟩))).ofile p i = some g ∧
      ((s.setPc p (.close f (.exitClear status ⟨fd, hfd⟩))).pc p).clears ≠ some i) ⟨fd, hfd⟩
    (fun i hi => by simp [hpc, Pc.clears, Ne.symm hi])
  unfold Sys.held
  simp only [Sys.setPc_ofile, Sys.setPc_pc, Function.update_self, hpc, hf, Pc.clears, Pc.pending,
    Option.some.injEq, ne_eq, not_true_eq_false, and_false, if_false, reduceCtorEq, not_false_eq_true,
    and_true] at e ⊢
  omega

theorem Inv.clearSlot {i : Fd} (h : Inv s) (hc : (s.pc p).clears = some i) : Inv (s.setOfile p i none) := by
  have hl := h.live_of_pc (p := p) (fun hp => by simp [hp] at hc)
  have hheld : (s.setOfile p i none).held p = s.held p := by
    funext g
    refine Sys.held_eq_of_iff s (fun j => ?_) (by simp)
    by_cases hj : j = i
    · subst hj
      simp [hc]
    · simp [hj]
  refine h.frame (h.toRefs.local hl rfl (fun q hq => ⟨by simp, fun j => by simp [hq]⟩) (fun j hj => ?_)
    (fun g => ?_) (fun g hg => h.type_none g hg)) (fun P _ _ => rfl) rfl rfl rfl rfl rfl le_rfl
  · by_cases hji : j = i
    · simp [hji]
    · simpa [hji] using h.exiting p j (by simpa using hj)
  · have e := s.sum_held_of_eq_off (s.setOfile p i none) p
      (fun q hq => Sys.held_congr s (by simp [hq]) (by simp)) g
    rw [hheld] at e
    rw [Sys.setOfile_file, h.ref_eq g]
    omega

theorem Inv.exitClear {status : Int32} {fd : Fd} (h : Inv s) (hpc : s.pc p = .exitClear status fd) :
    Inv ((s.setOfile p fd none).setPc p (.exitLoop status (fd.val + 1))) := by
  have hmid : Inv (s.setOfile p fd none) := h.clearSlot (by simp [hpc, Pc.clears])
  refine hmid.setPc (h.live_of_pc (by simp [hpc])) (fun g => ?_) (fun P _ => by simp [hpc, Pc.copies])
    (fun i hi => ?_)
  · refine Sys.held_eq_of_iff _ (fun j => ?_) (by simp [hpc, Pc.pending])
    by_cases hj : j = fd
    · subst hj
      simp
    · simp [hj, hpc, Pc.clears, Ne.symm hj]
  · by_cases hi' : i = fd
    · simp [hi']
    · have hlt : i.val < fd.val := by
        have := Fin.val_ne_of_ne hi'
        simp only [Pc.exitFrom] at hi
        omega
      simpa [hi'] using h.exiting p i (by simpa [hpc, Pc.exitFrom] using hlt)

theorem Inv.retire (h : Inv s) (t : Ptable)
    (hd : ∀ q, ¬Sys.live { s with ptable := t } q → s.live q → s.pc q = .idle ∧ ∀ i, s.ofile q i = none) :
    Inv { s with ptable := t } := by
  refine h.frame ⟨h.ref_eq, h.type_none, fun q hq => ?_, h.exiting⟩ (fun _ _ _ => rfl) rfl rfl rfl rfl rfl le_rfl
  by_cases hl : s.live q
  · exact hd q hq hl
  · exact h.dead q hl

theorem Inv.exitDone {status : Int32} {fd : Nat} (h : Inv s) (hpc : s.pc p = .exitLoop status fd)
    (hfd : ¬fd < NOFILE) :
    Inv (Sys.setPc { s with ptable := s.ptable.set p { s.ptable.proc p with xstate := status, state := .ZOMBIE } }
      p .idle) := by
  have hnone : ∀ i, s.ofile p i = none := fun i =>
    h.exiting p i (by rw [hpc, Pc.exitFrom]; omega)
  have hmid : Inv (s.setPc p .idle) :=
    h.setPc (h.live_of_pc (by simp [hpc])) (fun g => by simp [Sys.held, hpc, Pc.clears, Pc.pending])
      (fun P _ => by simp [hpc, Pc.copies]) (fun i hi => by simp at hi)
  refine hmid.retire _ fun q hq hl => ?_
  by_cases hqp : q = p
  · subst hqp
    exact ⟨by simp, fun i => by simpa using hnone i⟩
  · exact absurd hl (by simpa [Sys.live, hqp] using hq)

theorem Inv.reap {q : Slot} (h : Inv s) (hs : Ftable.reap s q = some s') : Inv s' := by
  unfold Ftable.reap at hs
  split at hs
  · next hz =>
    cases hs
    refine h.ptable _ fun r => ?_
    by_cases hr : r = q
    · subst hr
      simp [Sys.live, freeproc, hz]
    · simp [Sys.live, freeproc, hr]
  · cases hs

/-- The next step of a process inside a call. -/
theorem Inv.run (h : Inv s) (hs : Ftable.run s p = some s') : Inv s' := by
  unfold Ftable.run at hs
  split at hs
  · cases hs
  · next f k hpc =>
    obtain ⟨⟨s1, o⟩, hr, rfl⟩ := Option.map_eq_some_iff.mp hs
    rcases fileclose_eq hr with ⟨h1, rfl, rfl⟩ | ⟨h1, rfl, rfl⟩
    · exact h.closeKeep hpc h1
    · exact h.closeLast hpc h1
  · next ff k hpc =>
    cases hs
    exact h.closeWin hpc
  · next status fd hpc =>
    split at hs
    · next hfd =>
      split at hs
      · next hn =>
        cases hs
        exact h.exitNext hpc hfd hn
      · next f hf =>
        cases hs
        exact h.exitClose hpc hfd hf
    · next hfd =>
      cases hs
      exact h.exitDone hpc hfd
  · next status fd hpc =>
    cases hs
    exact h.exitClear hpc

/-- Every step keeps the invariant. -/
theorem Inv.step (h : Inv s) {e : Event} (hs : Ftable.step s e = some s') : Inv s' := by
  cases e with
  | run p => exact h.run hs
  | reap q => exact h.reap hs
  | «open» p omode r =>
    simp only [Ftable.step] at hs
    split at hs
    · next hp =>
      cases hs
      exact h.sysOpen hp omode r
    · cases hs
  | dup p fd =>
    simp only [Ftable.step] at hs
    split at hs
    · next hp => exact h.sysDup hp hs
    · cases hs
  | close p fd =>
    simp only [Ftable.step] at hs
    split at hs
    · next hp =>
      cases hs
      exact h.sysClose hp fd
    · cases hs
  | pipe p ok copyOk =>
    simp only [Ftable.step] at hs
    split at hs
    · next hp =>
      cases hs
      exact h.sysPipe hp ok copyOk
    · cases hs
  | fork p ok copyOk =>
    simp only [Ftable.step] at hs
    split at hs
    · next hp => exact h.fork hp hs
    · cases hs
  | exit p status =>
    simp only [Ftable.step] at hs
    split at hs
    · next hp => exact h.exit hp hs
    · cases hs

theorem Reachable.inv (hr : Reachable s) : Inv s := by
  induction hr with
  | init t => exact inv_init t
  | step e _ hs ih => exact ih.step hs

end Run

/-! ## What the counts guarantee -/

section Guarantees

variable {s : Sys} {p : Slot}

theorem Sys.copies_quiet (hq : s.quiet) (P : File → Prop) [DecidablePred P] :
    s.copies P = Tally.tally fun f => 0 < (s.file f).ref ∧ P (s.file f) := by
  simp [Sys.copies, hq _]

theorem Inv.ref_eq_slots (h : Inv s) (hq : s.quiet) (f : Fid) :
    (s.file f).ref = Tally.tally fun x : Slot × Fd => s.ofile x.1 x.2 = some f := by
  rw [h.ref_eq f, Tally.tally_prod (P := fun q i => s.ofile q i = some f)]
  exact Finset.sum_congr rfl fun q _ => s.held_idle (hq q) f

theorem Inv.slot_of_free (h : Inv s) {f : Fid} {i : Fd} (h0 : (s.file f).ref = 0)
    (hf : s.ofile p i = some f) : (s.pc p).clears = some i := by
  have hp : s.held p f = 0 := by
    have := Tally.le_sum (fun q => s.held q f) p
    rw [← h.ref_eq f, h0] at this
    omega
  have ht : (Tally.tally fun j => s.ofile p j = some f ∧ (s.pc p).clears ≠ some j) = 0 := by
    unfold Sys.held at hp
    omega
  by_contra hc
  exact Tally.not_of_tally_eq_zero ht i ⟨hf, hc⟩

theorem Inv.isOpen_quiet (h : Inv s) (hq : s.quiet) {pi : Nat} {w : Bool} (hpi : pi < s.npipes) :
    (s.pipes pi).isOpen w = true ↔ ∃ f, 0 < (s.file f).ref ∧ (s.file f).isEnd pi w := by
  have hle := h.ends_le pi w
  rw [h.isOpen pi w hpi]
  rw [Sys.ends, s.copies_quiet hq] at hle ⊢
  constructor
  · intro h1
    by_contra hn
    rw [Tally.tally_eq_zero fun f hf => hn ⟨f, hf⟩] at h1
    exact absurd h1 Nat.zero_ne_one
  · rintro ⟨f, hf⟩
    have := Tally.one_le_tally (P := fun g => 0 < (s.file g).ref ∧ (s.file g).isEnd pi w) hf
    omega

theorem Inv.iputs_count (h : Inv s) (g : Nat × Ip) :
    s.iputs.count g = if g ∈ s.opened ∧ s.iheld g = 0 then 1 else 0 := by
  have e := h.iheld g
  by_cases hg : g ∈ s.opened
  · simp only [hg, if_true, true_and] at e ⊢
    split_ifs <;> omega
  · simp only [hg, if_false, false_and] at e ⊢
    omega

/-- The accounting of open files, pipes and inode references in a state:
what the counts say, inside the windows of `fileclose` and `exit` as well
as outside them. -/
structure Accounted (s : Sys) : Prop where
  /-- Each entry's count is the references held on it: the slots that point
  to it, bar the one `exit` is clearing, and the `fileclose` calls to make. -/
  ref_eq : ∀ f, (s.file f).ref = ∑ p, s.held p f
  /-- Outside `fileclose` and `exit`, the count is the number of slots. -/
  ref_quiet : s.quiet → ∀ f, (s.file f).ref = Tally.tally fun x : Slot × Fd => s.ofile x.1 x.2 = some f
  /-- A free entry is referenced by no slot, bar the one `exit` is clearing. -/
  slot_of_free : ∀ f p i, (s.file f).ref = 0 → s.ofile p i = some f → (s.pc p).clears = some i
  /-- Each end of a pipe has one holder at most: an entry in use, or the
  copy in a `fileclose` window. -/
  ends_le : ∀ pi w, s.ends pi w ≤ 1
  /-- An end of a pipe is open exactly while it has a holder. -/
  isOpen : ∀ pi w, pi < s.npipes → ((s.pipes pi).isOpen w = true ↔ s.ends pi w = 1)
  /-- Outside `fileclose`'s window, while an entry in use is that end. -/
  isOpen_quiet : s.quiet → ∀ pi w, pi < s.npipes →
    ((s.pipes pi).isOpen w = true ↔ ∃ f, 0 < (s.file f).ref ∧ (s.file f).isEnd pi w)
  /-- The page of a pipe is freed once, when both ends are closed. -/
  kfrees : ∀ pi, pi < s.npipes → s.kfrees pi = if (s.pipes pi).readopen || (s.pipes pi).writeopen then 0 else 1
  /-- An inode reference has one holder at most. -/
  iheld_le : ∀ g, s.iheld g ≤ 1
  /-- It is given back with `iput` once, when it has no holder left. -/
  iputs : ∀ g, s.iputs.count g = if g ∈ s.opened ∧ s.iheld g = 0 then 1 else 0

theorem ftable_refs_balanced (hr : Reachable s) : Accounted s := by
  have h := hr.inv
  refine ⟨h.ref_eq, fun hq => h.ref_eq_slots hq, fun f p i h0 hf => h.slot_of_free h0 hf, h.ends_le,
    h.isOpen, fun hq pi w hpi => h.isOpen_quiet hq hpi, h.kfrees, fun g => ?_, h.iputs_count⟩
  have := h.iheld g
  split_ifs at this <;> omega

/-- The process table after `procinit` and `userinit`. -/
def booted : Ptable := (userinit procinit).getD procinit

/-- The first process makes a pipe, closes its read end, and enters
`fileclose`'s critical section. -/
def pipeWindowRun : List Event := [.pipe initSlot true true, .close initSlot 0, .run initSlot]

/-- The state after that run: inside `fileclose`, before `pipeclose`. -/
def pipeWindow : Sys := (steps (init booted) pipeWindowRun).getD (init booted)

theorem reachable_pipeWindow : Reachable pipeWindow :=
  (Reachable.init booted).of_steps pipeWindowRun rfl

theorem ftable_refs_balanced_pipeWindow : Accounted pipeWindow :=
  ftable_refs_balanced reachable_pipeWindow

/-- In `fileclose`'s window the read end of the pipe is still open, while
no entry in use is that end. -/
theorem pipe_open_without_holder :
    ¬∀ s, Reachable s → ∀ pi, pi < s.npipes → s.kfrees pi = 0 →
      ((s.pipes pi).readopen = true ↔ ∃ f, 0 < (s.file f).ref ∧ (s.file f).isEnd pi false) := by
  intro hall
  have h := hall pipeWindow reachable_pipeWindow 0 (by decide) (by decide)
  obtain ⟨f, hf⟩ := h.mp (by decide)
  revert f hf
  decide

end Guarantees

end Xv6.Ftable
