import Xv6.Proc

/-!
# Scheduling and the hand-off of `p->lock` (`proc.c`, `spinlock.c`)

`NCPU` CPUs each run `scheduler()`, and the processes they run `yield`,
`sleep`, `exit`, `wakeup` and `kill`, all under the spinlocks of
`spinlock.c`. A spinlock's state is its holder, `lk->locked` with `lk->cpu`;
`acquire` and `release` do `push_off` and `pop_off`, with their panics.
`swtch` is one step that moves control between a CPU's scheduler and a
process and leaves the locks held.

Each step is one line of the source, or a critical section that takes a
lock and gives it back before it does anything else (one round of the loops
of `wakeup` and `kill`, `allocproc`'s claim of a slot, `fork`'s
`np->state = RUNNABLE`, `freeproc` in `wait` or after a failed `fork`).
Which code a running process executes between these is left open: from a
point where it holds no lock it may take a lock, `yield`, `exit` or make
those calls; holding locks it may take another, and holding one it may
`sleep` on it. At any of these points it may enter the lock-free
`push_off`/`pop_off` pairs of `myproc` and `uartputc_sync`, which take no
lock and call nothing that switches. The scheduler may try the slots in any
order.

Every panic of these paths is an `Except.error` with its text, and a step
that has to wait for a lock is `none`.
-/

namespace Xv6.Sched

/-- A CPU: an entry of `cpus[NCPU]`. -/
abbrev CpuId := Fin NCPU

/-- The CPU that boots first. -/
def cpu0 : CpuId := ⟨0, by decide⟩

/-- A spinlock: `proc[i].lock`, or another one, `wait_lock` among them. -/
inductive Lock
  | proc (i : Slot)
  | other (l : Nat)
  deriving DecidableEq

/-- `wait_lock`. -/
def wait_lock : Lock := .other 0

/-- Where a process that switched out in `sched` goes on when a scheduler
runs it again. -/
inductive Resume
  /-- Back into `yield`, which was called holding no lock, at `sleep`'s
  `acquire(lk)` for `lk = l` when `relock = some l`. -/
  | yield (relock : Option Nat)
  /-- Back into `sleep(chan, lk)`, `lk` being lock `l`. -/
  | sleep (l : Nat)
  /-- Back into `exit`, whose `sched` must not return. -/
  | exit
  deriving DecidableEq

/-- Where a running process's kernel thread is. -/
inductive At
  /-- Its first run, in `forkret`: it holds `p->lock` from the scheduler. -/
  | forkret
  /-- Holding no spinlock. -/
  | user
  /-- Holding spinlock `other l`, taken last, and the spinlocks `other` of `ls`. -/
  | holding (l : Nat) (ls : List Nat)
  /-- In `yield`, `p->lock` held and `p->state = RUNNABLE`: `sched()` next. -/
  | yield (relock : Option Nat)
  /-- In `sleep(chan, lk)` after `acquire(&p->lock)`: `release(lk)` next. -/
  | sleepLk (l chan : Nat)
  /-- In `sleep`, `SLEEPING`: `sched()` next. -/
  | sleep (l : Nat)
  /-- In `exit`, holding `wait_lock`. -/
  | exitWait
  /-- In `exit`, holding `wait_lock` and `p->lock`, `ZOMBIE`: `release(&wait_lock)` next. -/
  | exitLk
  /-- In `exit`: `sched()` next. -/
  | exit
  /-- Back from `sched`, holding `p->lock` that the scheduler took. -/
  | resumed (k : Resume)
  /-- In `sleep` after `release(&p->lock)`: `acquire(lk)` next. -/
  | relock (l : Nat)
  /-- Inside `k + 1` lock-free `push_off`s (`myproc`, `uartputc_sync`),
  holding the spinlocks `other` of `ls`. -/
  | nested (k : Nat) (ls : List Nat)
  deriving DecidableEq

/-- Where a process's kernel thread is. -/
inductive Pc
  /-- The slot is free. -/
  | unused
  /-- `allocproc` set `p->context.ra = forkret`: the first `swtch` to it enters `forkret`. -/
  | fresh
  /-- Switched out inside `sched`, with the `intena` it saved. -/
  | off (k : Resume) (intena : Bool)
  /-- Running on a CPU. -/
  | on (a : At)
  deriving DecidableEq

/-- Where a CPU's scheduler thread is. -/
inductive Sc
  /-- In its loop, holding no lock. -/
  | idle
  /-- Holding `proc[i].lock`: the test of `p->state` next. -/
  | holds (i : Slot)
  /-- Switched out to `c->proc`. -/
  | out
  /-- Back from `swtch` with `proc[i]`: `c->proc = 0` and `release` next. -/
  | back (i : Slot)
  deriving DecidableEq

/-- `struct cpu`, with the interrupt-enable bit and the place of the
CPU's scheduler. -/
structure Cpu where
  proc : Option Slot
  noff : Nat
  intena : Bool
  /-- `intr_get()`. -/
  intr : Bool
  sch : Sc
  deriving DecidableEq

structure Sys where
  cpu : CpuId → Cpu
  pc : Slot → Pc
  state : Slot → Procstate
  chan : Slot → Nat
  killed : Slot → Bool
  /-- The CPU holding each spinlock: `lk->locked` and `lk->cpu`. -/
  holder : Lock → Option CpuId

namespace Cpu

/-- `push_off()`. -/
def pushOff (x : Cpu) : Cpu :=
  { x with intr := false, intena := if x.noff = 0 then x.intr else x.intena, noff := x.noff + 1 }

/-- `pop_off()`. -/
def popOff (x : Cpu) : Except String Cpu :=
  if x.intr then .error "pop_off - interruptible"
  else if x.noff < 1 then .error "pop_off"
  else .ok { x with noff := x.noff - 1, intr := if x.noff - 1 = 0 ∧ x.intena then true else x.intr }

end Cpu

namespace Sys

def setCpu (s : Sys) (c : CpuId) (x : Cpu) : Sys := { s with cpu := Function.update s.cpu c x }

def setPc (s : Sys) (p : Slot) (x : Pc) : Sys := { s with pc := Function.update s.pc p x }

def setState (s : Sys) (p : Slot) (x : Procstate) : Sys := { s with state := Function.update s.state p x }

/-- `acquire(lk)` on CPU `c`; `none` while another CPU holds `lk`. -/
def acquire (s : Sys) (c : CpuId) (x : Lock) : Except String (Option Sys) :=
  if s.holder x = some c then .error "acquire"
  else if s.holder x = none then
    .ok (some { s.setCpu c (s.cpu c).pushOff with holder := Function.update s.holder x (some c) })
  else .ok none

/-- `release(lk)` on CPU `c`. -/
def release (s : Sys) (c : CpuId) (x : Lock) : Except String Sys :=
  if s.holder x ≠ some c then .error "release"
  else ((s.cpu c).popOff).map fun y => { s.setCpu c y with holder := Function.update s.holder x none }

/-- `acquire(lk)`, then `f`, then `release(lk)`. -/
def critical (s : Sys) (c : CpuId) (x : Lock) (f : Sys → Sys) : Except String (Option Sys) :=
  match s.acquire c x with
  | .ok (some s) => ((f s).release c x).map some
  | r => r

/-- The process CPU `c` runs, and where it is. -/
def running (s : Sys) (c : CpuId) : Option (Slot × At) :=
  match (s.cpu c).sch, (s.cpu c).proc with
  | .out, some p =>
    match s.pc p with
    | .on a => some (p, a)
    | _ => none
  | _, _ => none

/-- Process `p`, on CPU `c`, moves to `a`. -/
def moveTo (s : Sys) (p : Slot) (a : At) : Sys := s.setPc p (.on a)

end Sys

/-- What the CPUs and processes do next. -/
inductive Event
  /-- `scheduler`: `acquire(&p->lock)` for `proc[i]`. -/
  | schedAcquire (c : CpuId) (i : Slot)
  /-- `scheduler`: `if(p->state == RUNNABLE)` and its `swtch`, or `release(&p->lock)`. -/
  | schedPick (c : CpuId)
  /-- `scheduler`, back from `swtch`: `c->proc = 0; release(&p->lock)`. -/
  | schedBack (c : CpuId)
  /-- `intr_on()`, in the scheduler's loop or on a trap from user space. -/
  | intrOn (c : CpuId)
  /-- A trap, or `intr_off()`. -/
  | intrOff (c : CpuId)
  /-- `yield`: `acquire(&p->lock); p->state = RUNNABLE`. -/
  | yield (c : CpuId)
  /-- `sched()`, with its checks and `swtch`. -/
  | sched (c : CpuId)
  /-- The `release(&p->lock)` after a `swtch` back in: in `forkret`, `yield`
  or `sleep` (with its `p->chan = 0`). -/
  | resume (c : CpuId)
  /-- `acquire(lk)`. -/
  | lock (c : CpuId) (l : Nat)
  /-- `release(lk)`. -/
  | unlock (c : CpuId)
  /-- `push_off()` outside `acquire`: `myproc`'s or `uartputc_sync`'s. -/
  | pushOff (c : CpuId)
  /-- The `pop_off()` that ends such a `push_off`. -/
  | popOff (c : CpuId)
  /-- `sleep(chan, lk)`: `acquire(&p->lock)`. -/
  | sleep (c : CpuId) (chan : Nat)
  /-- `sleep`: `release(lk); p->chan = chan; p->state = SLEEPING`. -/
  | sleepRelease (c : CpuId)
  /-- `sleep`, tidied up: `acquire(lk)`. -/
  | relock (c : CpuId)
  /-- `exit`: `acquire(&wait_lock)`. -/
  | exitLock (c : CpuId)
  /-- `exit`: `acquire(&p->lock); p->state = ZOMBIE`. -/
  | exitZombie (c : CpuId)
  /-- `exit`: `release(&wait_lock)`. -/
  | exitRelease (c : CpuId)
  /-- One round of `wakeup(chan)`'s loop, at `proc[q]`. -/
  | wakeup (c : CpuId) (q : Slot) (chan : Nat)
  /-- One round of `kill`'s loop, at the slot holding the pid. -/
  | kill (c : CpuId) (q : Slot)
  /-- `allocproc` finding `proc[q]` `UNUSED`. -/
  | allocproc (c : CpuId) (q : Slot)
  /-- `fork`: `np->state = RUNNABLE`. -/
  | forkRun (c : CpuId) (q : Slot)
  /-- `freeproc(proc[q])`, in `wait` or after a failed `fork`. -/
  | freeproc (c : CpuId) (q : Slot)

/-- The scheduler on `c` switches to `proc[i]`, which goes on at `a`;
`intena` is the value `sched` restores. -/
def switchIn (s : Sys) (c : CpuId) (i : Slot) (a : At) (intena : Bool) : Sys :=
  (s.setState i .RUNNING |>.setPc i (.on a)).setCpu c
    { s.cpu c with proc := some i, sch := .out, intena }

/-- Where `sched` resumes a process that switched out at `a`. -/
def At.resume : At → Option Resume
  | .yield r => some (.yield r)
  | .sleep l => some (.sleep l)
  | .exit => some .exit
  | _ => none

/-- The checks of `sched()` and its `swtch` to the scheduler. -/
def schedOut (s : Sys) (c : CpuId) (p : Slot) (k : Resume) : Except String (Option Sys) :=
  if s.holder (.proc p) ≠ some c then .error "sched p->lock"
  else if (s.cpu c).noff ≠ 1 then .error "sched locks"
  else if s.state p = .RUNNING then .error "sched running"
  else if (s.cpu c).intr then .error "sched interruptible"
  else .ok (some ((s.setPc p (.off k (s.cpu c).intena)).setCpu c { s.cpu c with sch := .back p }))

/-- `yield` from `r`'s place: `acquire(&p->lock); p->state = RUNNABLE`. -/
def yieldFrom (s : Sys) (c : CpuId) (p : Slot) (r : Option Nat) : Except String (Option Sys) :=
  (s.acquire c (.proc p)).map (Option.map fun s => (s.setState p .RUNNABLE).moveTo p (.yield r))

/-- The place `yield` returns to. -/
def afterYield : Option Nat → At
  | none => .user
  | some l => .relock l

/-- Holding the spinlocks `other` of `ls`, taken last first, and no other. -/
def At.locks : List Nat → At
  | [] => .user
  | l :: ls => .holding l ls

/-- Where a lock-free `push_off` takes a process at `a`: `myproc` and
`uartputc_sync` run where the process runs kernel code of its own. -/
def At.nestIn : At → Option At
  | .user => some (.nested 0 [])
  | .holding l ls => some (.nested 0 (l :: ls))
  | .nested k ls => some (.nested (k + 1) ls)
  | _ => none

/-- Where `pop_off` leaves a process inside `k + 1` lock-free `push_off`s. -/
def At.unnest : Nat → List Nat → At
  | 0, ls => At.locks ls
  | k + 1, ls => .nested k ls

/-- CPU `c` is where `wakeup` is called with `proc[q]` in its loop: its
scheduler, in an interrupt, or a process other than `q` that holds no
`p->lock`. -/
def wakes (s : Sys) (c : CpuId) (q : Slot) : Bool :=
  match (s.cpu c).sch, s.running c with
  | .idle, _ => true
  | _, some (p, .user) | _, some (p, .holding _ _) | _, some (p, .exitWait) => p ≠ q
  | _, _ => false

def step (s : Sys) : Event → Except String (Option Sys)
  | .schedAcquire c i =>
    if (s.cpu c).sch = .idle then
      (s.acquire c (.proc i)).map (Option.map fun (s : Sys) => s.setCpu c { s.cpu c with sch := .holds i })
    else .ok none
  | .schedPick c =>
    match (s.cpu c).sch with
    | .holds i =>
      if s.state i = .RUNNABLE then
        match s.pc i with
        | .fresh => .ok (some (switchIn s c i .forkret (s.cpu c).intena))
        | .off k e => .ok (some (switchIn s c i (.resumed k) e))
        | _ => .error "swtch"
      else (s.release c (.proc i)).map fun (s : Sys) => some (s.setCpu c { s.cpu c with sch := .idle })
    | _ => .ok none
  | .schedBack c =>
    match (s.cpu c).sch with
    | .back i =>
      ((s.setCpu c { s.cpu c with proc := none }).release c (.proc i)).map
        fun (s : Sys) => some (s.setCpu c { s.cpu c with sch := .idle })
    | _ => .ok none
  | .intrOn c => if (s.cpu c).noff = 0 then .ok (some (s.setCpu c { s.cpu c with intr := true })) else .ok none
  | .intrOff c => .ok (some (s.setCpu c { s.cpu c with intr := false }))
  | .yield c =>
    match s.running c with
    | some (p, .user) => yieldFrom s c p none
    | some (p, .relock l) => yieldFrom s c p (some l)
    | _ => .ok none
  | .sched c =>
    match s.running c with
    | some (p, a) =>
      match a.resume with
      | some k => schedOut s c p k
      | none => .ok none
    | none => .ok none
  | .resume c =>
    match s.running c with
    | some (p, .forkret) => (s.release c (.proc p)).map fun (s : Sys) => some (s.moveTo p .user)
    | some (p, .resumed (.yield r)) => (s.release c (.proc p)).map fun (s : Sys) => some (s.moveTo p (afterYield r))
    | some (p, .resumed (.sleep l)) =>
      ({ s with chan := Function.update s.chan p 0 }.release c (.proc p)).map
        fun (s : Sys) => some (s.moveTo p (.relock l))
    | some (_, .resumed .exit) => .error "zombie exit"
    | _ => .ok none
  | .lock c l =>
    match s.running c with
    | some (p, .user) => (s.acquire c (.other l)).map (Option.map fun (s : Sys) => s.moveTo p (.holding l []))
    | some (p, .holding l' ls) =>
      -- no code of the kernel takes a spinlock it holds, which would panic
      if l = l' ∨ l ∈ ls then .ok none
      else (s.acquire c (.other l)).map (Option.map fun (s : Sys) => s.moveTo p (.holding l (l' :: ls)))
    | _ => .ok none
  | .unlock c =>
    match s.running c with
    | some (p, .holding l ls) => (s.release c (.other l)).map fun (s : Sys) => some (s.moveTo p (At.locks ls))
    | _ => .ok none
  | .pushOff c =>
    match s.running c with
    | some (p, a) =>
      match a.nestIn with
      | some a' => .ok (some ((s.setCpu c (s.cpu c).pushOff).moveTo p a'))
      | none => .ok none
    | none => .ok none
  | .popOff c =>
    match s.running c with
    | some (p, .nested k ls) => ((s.cpu c).popOff).map fun y => some ((s.setCpu c y).moveTo p (At.unnest k ls))
    | _ => .ok none
  | .sleep c chan =>
    match s.running c with
    | some (p, .holding l []) =>
      (s.acquire c (.proc p)).map (Option.map fun (s : Sys) => s.moveTo p (.sleepLk l chan))
    | _ => .ok none
  | .sleepRelease c =>
    match s.running c with
    | some (p, .sleepLk l chan) =>
      (s.release c (.other l)).map fun (s : Sys) =>
        some (({ s with chan := Function.update s.chan p chan }.setState p .SLEEPING).moveTo p (.sleep l))
    | _ => .ok none
  | .relock c =>
    match s.running c with
    | some (p, .relock l) => (s.acquire c (.other l)).map (Option.map fun (s : Sys) => s.moveTo p (.holding l []))
    | _ => .ok none
  | .exitLock c =>
    match s.running c with
    | some (p, .user) => (s.acquire c wait_lock).map (Option.map fun (s : Sys) => s.moveTo p .exitWait)
    | _ => .ok none
  | .exitZombie c =>
    match s.running c with
    | some (p, .exitWait) =>
      (s.acquire c (.proc p)).map (Option.map fun (s : Sys) => (s.setState p .ZOMBIE).moveTo p .exitLk)
    | _ => .ok none
  | .exitRelease c =>
    match s.running c with
    | some (p, .exitLk) => (s.release c wait_lock).map fun (s : Sys) => some (s.moveTo p .exit)
    | _ => .ok none
  | .wakeup c q chan =>
    if wakes s c q then
      s.critical c (.proc q) fun (s : Sys) =>
        if s.state q = .SLEEPING ∧ s.chan q = chan then s.setState q .RUNNABLE else s
    else .ok none
  | .kill c q =>
    match s.running c with
    | some (_, .user) =>
      s.critical c (.proc q) fun (s : Sys) =>
        let s := { s with killed := Function.update s.killed q true }
        if s.state q = .SLEEPING then s.setState q .RUNNABLE else s
    | _ => .ok none
  | .allocproc c q =>
    match s.running c with
    | some (_, .user) =>
      s.critical c (.proc q) fun (s : Sys) =>
        if s.state q = .UNUSED then (s.setState q .USED).setPc q .fresh else s
    | _ => .ok none
  | .forkRun c q =>
    match s.running c with
    | some (_, .user) =>
      s.critical c (.proc q) fun (s : Sys) => if s.state q = .USED then s.setState q .RUNNABLE else s
    | _ => .ok none
  | .freeproc c q =>
    match s.running c with
    | some (_, .user) | some (_, .holding _ _) =>
      s.critical c (.proc q) fun (s : Sys) =>
        if s.state q = .ZOMBIE ∨ s.state q = .USED then
          { (s.setState q .UNUSED).setPc q .unused with
            chan := Function.update s.chan q 0, killed := Function.update s.killed q false }
        else s
    | _ => .ok none

theorem step_intrOff_eq (s : Sys) (c : CpuId) :
    step s (.intrOff c) = .ok (some (s.setCpu c { s.cpu c with intr := false })) := by
  simp only [step]

/-- Boot: every CPU in its scheduler, and `userinit`'s first process
`RUNNABLE` in slot `0`. -/
def init : Sys where
  cpu _ := ⟨none, 0, false, false, .idle⟩
  pc p := if p = initSlot then .fresh else .unused
  state p := if p = initSlot then .RUNNABLE else .UNUSED
  chan _ := 0
  killed _ := false
  holder _ := none

/-- The states that some interleaving reaches. -/
inductive Reachable : Sys → Prop
  | init : Reachable init
  | step {s s' : Sys} (e : Event) : Reachable s → step s e = .ok (some s') → Reachable s'

/-- The events `es` in turn from `s`, while each goes on. -/
def steps (s : Sys) : List Event → Option Sys
  | [] => some s
  | e :: es =>
    match step s e with
    | .ok (some s') => steps s' es
    | _ => none

theorem Reachable.of_steps {s s' : Sys} (h : Reachable s) :
    ∀ es : List Event, steps s es = some s' → Reachable s'
  | [], hs => by
    cases hs
    exact h
  | e :: es, hs => by
    simp only [steps] at hs
    split at hs
    · exact (h.step e ‹_›).of_steps es hs
    · cases hs

/-! ## The invariant -/

/-- The spinlocks process `p` holds at `a`, the one taken last first. -/
def At.holds (p : Slot) : At → List Lock
  | .forkret | .yield _ | .sleep _ | .exit | .resumed _ => [.proc p]
  | .user | .relock _ => []
  | .holding l ls => .other l :: ls.map .other
  | .nested _ ls => ls.map .other
  | .sleepLk l _ => [.proc p, .other l]
  | .exitWait => [wait_lock]
  | .exitLk => [.proc p, wait_lock]

/-- The spinlocks CPU `c` holds, by where its threads are. -/
def Sys.held (s : Sys) (c : CpuId) : List Lock :=
  match (s.cpu c).sch with
  | .idle => []
  | .holds i | .back i => [.proc i]
  | .out =>
    match s.running c with
    | some (p, a) => a.holds p
    | none => []

/-- The lock-free `push_off`s a process at `a` has open. -/
def At.pushes : At → Nat
  | .nested k _ => k + 1
  | _ => 0

/-- The lock-free `push_off`s open on CPU `c`, in the process it runs. -/
def Sys.nest (s : Sys) (c : CpuId) : Nat :=
  match s.running c with
  | some (_, a) => a.pushes
  | none => 0

section Places

variable (p : Slot) (ls : List Nat) (k : Nat) {st : Procstate}

@[simp] theorem holds_locks : (At.locks ls).holds p = ls.map .other := by
  cases ls <;> rfl

@[simp] theorem pushes_locks : (At.locks ls).pushes = 0 := by
  cases ls <;> rfl

@[simp] theorem holds_unnest : (At.unnest k ls).holds p = ls.map .other := by
  cases k
  · exact holds_locks p ls
  · rfl

@[simp] theorem pushes_unnest : (At.unnest k ls).pushes = k := by
  cases k
  · exact pushes_locks ls
  · rfl

end Places

/-- What each place of a process's thread says of `p->state`. -/
def Shape : Pc → Procstate → Prop
  | .unused, st => st = .UNUSED
  | .fresh, st => st = .USED ∨ st = .RUNNABLE
  | .off (.yield _) _, st => st = .RUNNABLE
  | .off (.sleep _) _, st => st = .SLEEPING ∨ st = .RUNNABLE
  | .off .exit _, st => st = .ZOMBIE
  | .on (.yield _), st => st = .RUNNABLE
  | .on (.sleep _), st => st = .SLEEPING
  | .on .exitLk, st | .on .exit, st => st = .ZOMBIE
  -- a `ZOMBIE` is never `RUNNABLE`, so no scheduler switches back into `exit`
  | .on (.resumed .exit), _ => False
  | .on _, st => st = .RUNNING

/-- The scheduler's place, `c->proc` and the process it runs agree. -/
def SchOk (s : Sys) (c : CpuId) : Prop :=
  match (s.cpu c).sch with
  | .idle | .holds _ => (s.cpu c).proc = none
  | .out => ∃ p a, (s.cpu c).proc = some p ∧ s.pc p = .on a
  | .back i => (s.cpu c).proc = some i ∧ ∃ k e, s.pc i = .off k e

/-- What holds of every reachable state. -/
structure Inv (s : Sys) : Prop where
  holder : ∀ x c, s.holder x = some c ↔ x ∈ s.held c
  noff : ∀ c, (s.cpu c).noff = (s.held c).length + s.nest c
  nodup : ∀ c, (s.held c).Nodup
  intr : ∀ c, 0 < (s.cpu c).noff → (s.cpu c).intr = false
  sch : ∀ c, SchOk s c
  on : ∀ p a, s.pc p = .on a → ∃ c, s.running c = some (p, a)
  proc : ∀ c c' p, (s.cpu c).proc = some p → (s.cpu c').proc = some p → c = c'
  shape : ∀ p, Shape (s.pc p) (s.state p)

theorem running_eq_some {s : Sys} {c : CpuId} {p : Slot} {a : At} :
    s.running c = some (p, a) ↔ (s.cpu c).sch = .out ∧ (s.cpu c).proc = some p ∧ s.pc p = .on a := by
  unfold Sys.running
  constructor
  · intro h
    split at h
    · rename_i q hsch hproc
      split at h
      · rename_i b hq
        cases h
        exact ⟨hsch, hproc, hq⟩
      · cases h
    · cases h
  · rintro ⟨hsch, hproc, hp⟩
    simp [hsch, hproc, hp]

theorem held_of_running {s : Sys} {c : CpuId} {p : Slot} {a : At} (h : s.running c = some (p, a)) :
    s.held c = a.holds p := by
  have := (running_eq_some.mp h).1
  simp [Sys.held, this, h]

theorem nest_of_running {s : Sys} {c : CpuId} {p : Slot} {a : At} (h : s.running c = some (p, a)) :
    s.nest c = a.pushes := by
  simp [Sys.nest, h]

theorem nest_of_none {s : Sys} {c : CpuId} (h : s.running c = none) : s.nest c = 0 := by
  simp [Sys.nest, h]

theorem running_of_sch {s : Sys} {c : CpuId} (h : (s.cpu c).sch ≠ .out) : s.running c = none := by
  unfold Sys.running
  split
  · rename_i hsch _
    exact absurd hsch h
  · rfl

theorem Inv.held_unique {s : Sys} (h : Inv s) {x : Lock} {c c' : CpuId} (hc : x ∈ s.held c)
    (hc' : x ∈ s.held c') : c = c' := by
  have h1 := (h.holder x c).mpr hc
  have h2 := (h.holder x c').mpr hc'
  rw [h1] at h2
  exact Option.some_injective _ h2

theorem init_inv : Inv init where
  holder x c := by simp [init, Sys.held]
  noff c := by simp [init, Sys.held, Sys.nest, Sys.running]
  nodup c := by simp [init, Sys.held]
  intr c := by simp [init]
  sch c := by simp [SchOk, init]
  on p a := by
    intro hp
    simp only [init] at hp
    split at hp <;> cases hp
  proc c := by simp [init]
  shape p := by
    simp only [init]
    split <;> simp [Shape]

/-! ### `acquire` and `release` -/

section Locks

variable {s s' : Sys} {c : CpuId} {x : Lock}

theorem acquire_eq_some (h : s.acquire c x = .ok (some s')) :
    s.holder x = none ∧
      s' = { s.setCpu c (s.cpu c).pushOff with holder := Function.update s.holder x (some c) } := by
  unfold Sys.acquire at h
  split_ifs at h with h1 h2 <;> cases h
  exact ⟨h2, rfl⟩

theorem popOff_eq_ok {y z : Cpu} (h : y.popOff = .ok z) :
    y.intr = false ∧ 1 ≤ y.noff ∧
      z = { y with noff := y.noff - 1, intr := if y.noff - 1 = 0 ∧ y.intena then true else y.intr } := by
  unfold Cpu.popOff at h
  by_cases h1 : y.intr = true
  · rw [if_pos h1] at h
    cases h
  · rw [if_neg h1] at h
    by_cases h2 : y.noff < 1
    · rw [if_pos h2] at h
      cases h
    · rw [if_neg h2] at h
      cases h
      exact ⟨by simpa using h1, by omega, rfl⟩

theorem release_eq_ok (h : s.release c x = .ok s') :
    s.holder x = some c ∧ ∃ y, (s.cpu c).popOff = .ok y ∧
      s' = { s.setCpu c y with holder := Function.update s.holder x none } := by
  unfold Sys.release at h
  split_ifs at h with h1
  cases hp : (s.cpu c).popOff with
  | error e => simp [hp] at h; cases h
  | ok y =>
    simp only [hp, Except.map] at h
    cases h
    exact ⟨not_not.mp h1, y, rfl, rfl⟩

theorem map_some_eq {α β : Type} {e : Except String (Option α)} {f : α → β} {b : β}
    (h : e.map (Option.map f) = .ok (some b)) : ∃ a, e = .ok (some a) ∧ f a = b := by
  cases e with
  | error _ => cases h
  | ok o =>
    cases o with
    | none => cases h
    | some a =>
      cases h
      exact ⟨a, rfl, rfl⟩

theorem map_eq_some {α β : Type} {e : Except String α} {f : α → β} {b : β}
    (h : e.map (fun a => some (f a)) = .ok (some b)) : ∃ a, e = .ok a ∧ f a = b := by
  cases e with
  | error _ => cases h
  | ok a =>
    cases h
    exact ⟨a, rfl, rfl⟩

end Locks

/-! ### Steps of a running process -/

theorem running_congr {s s' : Sys} {c : CpuId} (hsch : (s'.cpu c).sch = (s.cpu c).sch)
    (hproc : (s'.cpu c).proc = (s.cpu c).proc) (hp : ∀ q, (s.cpu c).proc = some q → s'.pc q = s.pc q) :
    s'.running c = s.running c := by
  unfold Sys.running
  rw [hsch, hproc]
  cases (s.cpu c).sch with
  | out =>
    cases hq : (s.cpu c).proc with
    | none => rfl
    | some q => simp only [hp q hq]
  | _ => rfl

theorem held_congr {s s' : Sys} {c : CpuId} (hsch : (s'.cpu c).sch = (s.cpu c).sch)
    (hproc : (s'.cpu c).proc = (s.cpu c).proc) (hp : ∀ q, (s.cpu c).proc = some q → s'.pc q = s.pc q) :
    s'.held c = s.held c := by
  unfold Sys.held
  rw [hsch, running_congr hsch hproc hp]

/-- A step of CPU `c` that changes only `c`, the locks it holds and process
`p`: the other CPUs, and the processes they run, are as they were. -/
theorem Inv.frame {s s' : Sys} (h : Inv s) {c : CpuId} {p : Slot}
    (hcpu : ∀ c', c' ≠ c → s'.cpu c' = s.cpu c')
    (hpc : ∀ q, q ≠ p → s'.pc q = s.pc q) (hstate : ∀ q, q ≠ p → s'.state q = s.state q)
    (hother : ∀ c', c' ≠ c → (s.cpu c').proc = some p → s'.pc p = s.pc p)
    (hholder : ∀ y c', s'.holder y = some c' ↔ if c' = c then y ∈ s'.held c else s.holder y = some c')
    (hnoff : (s'.cpu c).noff = (s'.held c).length + s'.nest c) (hnodup : (s'.held c).Nodup)
    (hintr : 0 < (s'.cpu c).noff → (s'.cpu c).intr = false)
    (hsch : SchOk s' c)
    (hon : ∀ a, s'.pc p = .on a →
      s'.running c = some (p, a) ∨ (s.pc p = .on a ∧ ∀ b, s.running c ≠ some (p, b)))
    (hrun : ∀ q a, s.running c = some (q, a) → q = p)
    (hproc : ∀ q, (s'.cpu c).proc = some q →
      (s.cpu c).proc = some q ∨ ∀ c', c' ≠ c → (s.cpu c').proc ≠ some q)
    (hshape : Shape (s'.pc p) (s'.state p)) : Inv s' := by
  -- the processes the other CPUs run keep their place
  have hpc' : ∀ c', c' ≠ c → ∀ q, (s.cpu c').proc = some q → s'.pc q = s.pc q := by
    intro c' hc' q hq
    by_cases hqp : q = p
    · subst hqp
      exact hother c' hc' hq
    · exact hpc q hqp
  have hrun' : ∀ c', c' ≠ c → s'.running c' = s.running c' := fun c' hc' =>
    running_congr (by rw [hcpu c' hc']) (by rw [hcpu c' hc']) (hpc' c' hc')
  have hheld : ∀ c', c' ≠ c → s'.held c' = s.held c' := fun c' hc' =>
    held_congr (by rw [hcpu c' hc']) (by rw [hcpu c' hc']) (hpc' c' hc')
  have hnest : ∀ c', c' ≠ c → s'.nest c' = s.nest c' := fun c' hc' => by
    simp only [Sys.nest, hrun' c' hc']
  refine ⟨fun y c' => ?_, fun c' => ?_, fun c' => ?_, fun c' => ?_, fun c' => ?_, fun q b hq => ?_,
    fun c₁ c₂ q h₁ h₂ => ?_, fun q => ?_⟩
  · rw [hholder]
    split_ifs with hc'
    · subst hc'
      rfl
    · rw [hheld c' hc', h.holder]
  · by_cases hc' : c' = c
    · subst hc'
      exact hnoff
    · rw [hcpu c' hc', hheld c' hc', hnest c' hc', h.noff]
  · by_cases hc' : c' = c
    · subst hc'
      exact hnodup
    · rw [hheld c' hc']
      exact h.nodup c'
  · by_cases hc' : c' = c
    · subst hc'
      exact hintr
    · rw [hcpu c' hc']
      exact h.intr c'
  · by_cases hc' : c' = c
    · subst hc'
      exact hsch
    · have hs := h.sch c'
      unfold SchOk at hs ⊢
      rw [hcpu c' hc']
      split at hs
      · exact hs
      · exact hs
      · obtain ⟨q, b, hq, hb⟩ := hs
        exact ⟨q, b, hq, by rw [hpc' c' hc' q hq]; exact hb⟩
      · obtain ⟨hq, k, e, hk⟩ := hs
        exact ⟨hq, k, e, by rw [hpc' c' hc' _ hq]; exact hk⟩
  · -- a process that is on is the one `c` now runs, or one another CPU ran and still runs
    have hold : ∀ c'', c'' ≠ c → s.running c'' = some (q, b) → ∃ c, s'.running c = some (q, b) :=
      fun c'' hc'' hr => ⟨c'', by rw [hrun' c'' hc'']; exact hr⟩
    by_cases hqp : q = p
    · subst hqp
      rcases hon b hq with hr | ⟨hb, hnot⟩
      · exact ⟨c, hr⟩
      · obtain ⟨c'', hc''⟩ := h.on q b hb
        exact hold c'' (by rintro rfl; exact hnot b hc'') hc''
    · obtain ⟨c'', hc''⟩ := h.on q b (by rwa [hpc q hqp] at hq)
      exact hold c'' (by rintro rfl; exact hqp (hrun q b hc'')) hc''
  · -- `c` runs no process that another CPU runs
    have hc : ∀ c', c' ≠ c → (s'.cpu c).proc = some q → (s'.cpu c').proc = some q → False := by
      intro c' hc' hq hq'
      rw [hcpu c' hc'] at hq'
      rcases hproc q hq with hq0 | hnot
      · exact hc' (h.proc c' c q hq' hq0)
      · exact hnot c' hc' hq'
    by_cases hc₁ : c₁ = c <;> by_cases hc₂ : c₂ = c
    · rw [hc₁, hc₂]
    · subst hc₁
      exact (hc c₂ hc₂ h₁ h₂).elim
    · subst hc₂
      exact (hc c₁ hc₁ h₂ h₁).elim
    · rw [hcpu c₁ hc₁] at h₁
      rw [hcpu c₂ hc₂] at h₂
      exact h.proc c₁ c₂ q h₁ h₂
  · by_cases hqp : q = p
    · subst hqp
      exact hshape
    · rw [hpc q hqp, hstate q hqp]
      exact h.shape q

/-- A step of process `p`, run by CPU `c`, from `a` to `a'`, that changes
only `p`, `c` and the locks `a` and `a'` hold. -/
theorem Inv.move {s s' : Sys} (h : Inv s) {c : CpuId} {p : Slot} {a a' : At}
    (hrun : s.running c = some (p, a))
    (hcpu : ∀ c', c' ≠ c → s'.cpu c' = s.cpu c')
    (hsch : (s'.cpu c).sch = .out) (hproc : (s'.cpu c).proc = some p)
    (hpc : ∀ q, q ≠ p → s'.pc q = s.pc q) (hpcp : s'.pc p = .on a')
    (hstate : ∀ q, q ≠ p → s'.state q = s.state q) (hshape : Shape (.on a') (s'.state p))
    (hholder : ∀ y c', s'.holder y = some c' ↔ if c' = c then y ∈ a'.holds p else s.holder y = some c')
    (hnoff : (s'.cpu c).noff = (a'.holds p).length + a'.pushes) (hnodup : (a'.holds p).Nodup)
    (hintr : 0 < (s'.cpu c).noff → (s'.cpu c).intr = false) : Inv s' := by
  obtain ⟨-, hproc0, -⟩ := running_eq_some.mp hrun
  have hrun' : s'.running c = some (p, a') := running_eq_some.mpr ⟨hsch, hproc, hpcp⟩
  have hheld := held_of_running hrun'
  refine h.frame hcpu hpc hstate (fun c' hc' hp => absurd (h.proc c' c p hp hproc0) hc') ?_ ?_ ?_ hintr ?_
    (fun b hb => ?_) (fun q b hq => ?_) (fun q hq => .inl ?_) (by rw [hpcp]; exact hshape)
  · rwa [hheld]
  · rw [hnoff, hheld, nest_of_running hrun']
  · rwa [hheld]
  · unfold SchOk
    rw [hsch]
    exact ⟨p, a', hproc, hpcp⟩
  · rw [hpcp] at hb
    cases hb
    exact .inl hrun'
  · rw [hrun] at hq
    cases hq
    rfl
  · rw [hproc] at hq
    rw [hproc0, hq]

theorem Inv.holder_acquire {s : Sys} (h : Inv s) {c : CpuId} {x : Lock} (hx : s.holder x = none)
    {l : List Lock} (hl : ∀ y, y ∈ l ↔ y = x ∨ y ∈ s.held c) (y : Lock) (c' : CpuId) :
    Function.update s.holder x (some c) y = some c' ↔ if c' = c then y ∈ l else s.holder y = some c' := by
  by_cases hy : y = x
  · subst hy
    -- the lock was free, so no other CPU held it
    have : s.holder y ≠ some c' := by rw [hx]; simp
    by_cases hc' : c' = c
    · simp [hc', hl]
    · simp [hc', Ne.symm hc', this]
  · rw [Function.update_of_ne hy]
    split_ifs with hc'
    · subst hc'
      rw [h.holder, hl]
      simp [hy]
    · rfl

theorem Inv.holder_release {s : Sys} (h : Inv s) {c : CpuId} {x : Lock} {l : List Lock}
    (hl : ∀ y, y ∈ s.held c ↔ y = x ∨ y ∈ l) (hxl : x ∉ l) (y : Lock) (c' : CpuId) :
    Function.update s.holder x none y = some c' ↔ if c' = c then y ∈ l else s.holder y = some c' := by
  by_cases hy : y = x
  · subst hy
    simp only [Function.update_self, reduceCtorEq, false_iff]
    split_ifs with hc'
    · exact hxl
    · -- `c` holds `y`, so no other CPU does
      have : s.holder y = some c := by rw [h.holder, hl]; exact .inl rfl
      rw [this]
      simpa using Ne.symm hc'
  · rw [Function.update_of_ne hy]
    split_ifs with hc'
    · subst hc'
      rw [h.holder, hl]
      simp [hy]
    · rfl

theorem Inv.move_acquire {s s' : Sys} (h : Inv s) {c : CpuId} {p : Slot} {a a' : At} {x : Lock}
    (hrun : s.running c = some (p, a)) (hx : s.holder x = none)
    (hcpu : s'.cpu = Function.update s.cpu c (s.cpu c).pushOff)
    (hholder : s'.holder = Function.update s.holder x (some c))
    (hpc : s'.pc = Function.update s.pc p (.on a')) (hstate : ∀ q, q ≠ p → s'.state q = s.state q)
    (hl : a'.holds p = x :: a.holds p) (hpush : a'.pushes = a.pushes) (hshape : Shape (.on a') (s'.state p)) :
    Inv s' := by
  obtain ⟨hsch0, hproc0, -⟩ := running_eq_some.mp hrun
  have hheld := held_of_running hrun
  -- the lock was free, so `c` did not hold it
  have hxa : x ∉ a.holds p := fun hm => by
    have hc := (h.holder x c).mpr (by rw [hheld]; exact hm)
    rw [hx] at hc
    cases hc
  have hnd : (a.holds p).Nodup := by rw [← hheld]; exact h.nodup c
  refine h.move hrun (fun c' hc' => by rw [hcpu, Function.update_of_ne hc'])
    (by simp [hcpu, Cpu.pushOff, hsch0]) (by simp [hcpu, Cpu.pushOff, hproc0])
    (fun q hq => by rw [hpc, Function.update_of_ne hq]) (by simp [hpc]) hstate hshape
    (fun y c' => ?_) (by simp [hcpu, Cpu.pushOff, hl, h.noff, hheld, nest_of_running hrun, hpush]; omega)
    (by rw [hl]; exact List.nodup_cons.mpr ⟨hxa, hnd⟩) (fun _ => by simp [hcpu, Cpu.pushOff])
  rw [hholder]
  exact h.holder_acquire hx (fun z => by rw [hl, hheld, List.mem_cons]) y c'

/-- A step of a running process that gives back lock `x`. -/
theorem Inv.move_release {s s' : Sys} (h : Inv s) {c : CpuId} {p : Slot} {a a' : At} {x : Lock} {y : Cpu}
    (hrun : s.running c = some (p, a)) (hpop : (s.cpu c).popOff = .ok y)
    (hcpu : s'.cpu = Function.update s.cpu c y) (hholder : s'.holder = Function.update s.holder x none)
    (hpc : s'.pc = Function.update s.pc p (.on a')) (hstate : ∀ q, q ≠ p → s'.state q = s.state q)
    (hx : x ∉ a'.holds p) (hl : ∀ z, z ∈ a.holds p ↔ z = x ∨ z ∈ a'.holds p)
    (hlen : (a.holds p).length = (a'.holds p).length + 1) (hpush : a'.pushes = a.pushes)
    (hnd : (a'.holds p).Nodup) (hshape : Shape (.on a') (s'.state p)) : Inv s' := by
  obtain ⟨hsch0, hproc0, -⟩ := running_eq_some.mp hrun
  have hheld := held_of_running hrun
  obtain ⟨hintr, hn, rfl⟩ := popOff_eq_ok hpop
  refine h.move hrun (fun c' hc' => by rw [hcpu, Function.update_of_ne hc'])
    (by simp [hcpu, hsch0]) (by simp [hcpu, hproc0])
    (fun q hq => by rw [hpc, Function.update_of_ne hq]) (by simp [hpc]) hstate hshape
    (fun z c' => ?_) (by simp [hcpu, h.noff, hheld, hlen, nest_of_running hrun, hpush]) hnd (fun h0 => ?_)
  · rw [hholder]
    exact h.holder_release (by rw [hheld]; exact hl) hx z c'
  · simp only [hcpu, Function.update_self] at h0 ⊢
    simp [hintr]
    omega

/-! ### Steps that hold no lock across them -/

theorem Inv.free {s : Sys} (h : Inv s) {q : Slot} (hx : s.holder (.proc q) = none) :
    (∀ a, s.pc q = .on a → Lock.proc q ∉ a.holds q) ∧
      ∀ c, (s.cpu c).sch ≠ .holds q ∧ (s.cpu c).sch ≠ .back q := by
  have hnot : ∀ c, Lock.proc q ∉ s.held c := fun c hc => by
    rw [← h.holder, hx] at hc
    cases hc
  refine ⟨fun a ha hq => ?_, fun c => ⟨fun hs => hnot c ?_, fun hs => hnot c ?_⟩⟩
  · obtain ⟨c, hc⟩ := h.on q a ha
    exact hnot c (by rw [held_of_running hc]; exact hq)
  · simp [Sys.held, hs]
  · simp [Sys.held, hs]

section Shapes

variable {pc : Pc} {q : Slot}

theorem shape_unused (hs : Shape pc .UNUSED) : pc = .unused := by
  rcases pc with _ | _ | ⟨k, e⟩ | a
  · rfl
  · simp [Shape] at hs
  · cases k <;> simp [Shape] at hs
  · cases a with
    | resumed k => cases k <;> simp [Shape] at hs
    | _ => simp [Shape] at hs

theorem shape_used (hs : Shape pc .USED) : pc = .fresh := by
  rcases pc with _ | _ | ⟨k, e⟩ | a
  · simp [Shape] at hs
  · rfl
  · cases k <;> simp [Shape] at hs
  · cases a with
    | resumed k => cases k <;> simp [Shape] at hs
    | _ => simp [Shape] at hs

theorem shape_sleeping (hs : Shape pc .SLEEPING) (hf : ∀ a, pc = .on a → Lock.proc q ∉ a.holds q) :
    ∃ l e, pc = .off (.sleep l) e := by
  rcases pc with _ | _ | ⟨k, e⟩ | a
  · simp [Shape] at hs
  · simp [Shape] at hs
  · cases k with
    | sleep l => exact ⟨l, e, rfl⟩
    | _ => simp [Shape] at hs
  · cases a with
    | resumed k => cases k <;> simp [Shape] at hs
    | _ => simp [Shape, At.holds] at hs hf

theorem shape_zombie (hs : Shape pc .ZOMBIE) (hf : ∀ a, pc = .on a → Lock.proc q ∉ a.holds q) :
    ∃ e, pc = .off .exit e := by
  rcases pc with _ | _ | ⟨k, e⟩ | a
  · simp [Shape] at hs
  · simp [Shape] at hs
  · cases k with
    | exit => exact ⟨e, rfl⟩
    | _ => simp [Shape] at hs
  · cases a with
    | resumed k => cases k <;> simp [Shape] at hs
    | _ => simp [Shape, At.holds] at hs hf

end Shapes

/-- A step that changes no CPU's place or lock count and no lock holder,
and of the processes at most the state and place of `q`. -/
theorem Inv.touch {s s' : Sys} (h : Inv s) {q : Slot}
    (hcpu : ∀ c, (s'.cpu c).sch = (s.cpu c).sch ∧ (s'.cpu c).proc = (s.cpu c).proc ∧
      (s'.cpu c).noff = (s.cpu c).noff)
    (hintr : ∀ c, 0 < (s'.cpu c).noff → (s'.cpu c).intr = false)
    (hholder : s'.holder = s.holder)
    (hpc : ∀ p, p ≠ q → s'.pc p = s.pc p) (hstate : ∀ p, p ≠ q → s'.state p = s.state p)
    (hon : ∀ a, s'.pc q = .on a ↔ s.pc q = .on a)
    (hback : ∀ c, (s.cpu c).sch = .back q → s'.pc q = s.pc q)
    (hshape : Shape (s'.pc q) (s'.state q)) : Inv s' := by
  have hon' : ∀ p a, s'.pc p = .on a ↔ s.pc p = .on a := fun p a => by
    by_cases hp : p = q
    · subst hp
      exact hon a
    · rw [hpc p hp]
  -- which process a CPU runs, and where, is as it was
  have hrun : ∀ c, s'.running c = s.running c := by
    intro c
    apply Option.ext
    rintro ⟨p, a⟩
    rw [running_eq_some, running_eq_some, (hcpu c).1, (hcpu c).2.1, hon']
  have hheld : ∀ c, s'.held c = s.held c := fun c => by
    unfold Sys.held
    rw [(hcpu c).1, hrun]
  have hnest : ∀ c, s'.nest c = s.nest c := fun c => by simp only [Sys.nest, hrun]
  refine ⟨fun x c => ?_, fun c => ?_, fun c => ?_, hintr, fun c => ?_, fun p a hp => ?_,
    fun c₁ c₂ p h₁ h₂ => ?_, fun p => ?_⟩
  · rw [hholder, hheld, h.holder]
  · rw [(hcpu c).2.2, hheld, hnest, h.noff]
  · rw [hheld]
    exact h.nodup c
  · have hs := h.sch c
    unfold SchOk at hs ⊢
    rw [(hcpu c).1, (hcpu c).2.1]
    split at hs
    · exact hs
    · exact hs
    · obtain ⟨p, a, hp, ha⟩ := hs
      exact ⟨p, a, hp, (hon' p a).mpr ha⟩
    · rename_i i hi
      obtain ⟨hp, k, e, hk⟩ := hs
      refine ⟨hp, k, e, ?_⟩
      by_cases hiq : i = q
      · subst hiq
        rw [hback c hi]
        exact hk
      · rw [hpc i hiq]
        exact hk
  · obtain ⟨c, hc⟩ := h.on p a ((hon' p a).mp hp)
    exact ⟨c, by rw [hrun]; exact hc⟩
  · rw [(hcpu c₁).2.1] at h₁
    rw [(hcpu c₂).2.1] at h₂
    exact h.proc c₁ c₂ p h₁ h₂
  · by_cases hp : p = q
    · subst hp
      exact hshape
    · rw [hpc p hp, hstate p hp]
      exact h.shape p

theorem pushOff_popOff {x : Cpu} (hx : 0 < x.noff → x.intr = false) :
    x.pushOff.popOff = .ok { x with intena := if x.noff = 0 then x.intr else x.intena } := by
  unfold Cpu.pushOff Cpu.popOff
  by_cases h0 : x.noff = 0
  · simp [h0]
  · simp [h0, hx (by omega)]

theorem critical_eq_some {s s' : Sys} {c : CpuId} {x : Lock} {f : Sys → Sys}
    (h : s.critical c x f = .ok (some s')) :
    ∃ t, s.acquire c x = .ok (some t) ∧ (f t).release c x = .ok s' := by
  unfold Sys.critical at h
  split at h
  · rename_i t hacq
    cases hr : (f t).release c x with
    | error e =>
      rw [hr] at h
      cases h
    | ok t' =>
      rw [hr] at h
      cases h
      exact ⟨t, hacq, hr⟩
  · rename_i r hr
    exact (hr s' h).elim

/-- `acquire(&proc[q].lock)`, an edit `f` of `proc[q]`, and `release`: the
locks and the CPU's lock count are as before, and `f` finds `q` with its lock
free. -/
theorem Inv.critical {s s' : Sys} (h : Inv s) {c : CpuId} {q : Slot} {f : Sys → Sys}
    (hf : ∀ t, (f t).cpu = t.cpu ∧ (f t).holder = t.holder ∧
      ∀ p, p ≠ q → (f t).pc p = t.pc p ∧ (f t).state p = t.state p)
    (hfq : ∀ t : Sys, Shape (t.pc q) (t.state q) → (∀ a, t.pc q = .on a → Lock.proc q ∉ a.holds q) →
      Shape ((f t).pc q) ((f t).state q) ∧ ∀ a, (f t).pc q = .on a ↔ t.pc q = .on a)
    (hs : s.critical c (.proc q) f = .ok (some s')) : Inv s' := by
  obtain ⟨t, hacq, hrel⟩ := critical_eq_some hs
  obtain ⟨hfree, ht⟩ := acquire_eq_some hacq
  obtain ⟨-, y, hpop, rfl⟩ := release_eq_ok hrel
  obtain ⟨hcpu, hholder, hpc⟩ := hf t
  have htcpu : t.cpu = Function.update s.cpu c (s.cpu c).pushOff := by rw [ht]; rfl
  have hy : y = { s.cpu c with intena := if (s.cpu c).noff = 0 then (s.cpu c).intr else (s.cpu c).intena } := by
    rw [hcpu, htcpu, Function.update_self, pushOff_popOff (h.intr c)] at hpop
    cases hpop
    rfl
  subst hy
  obtain ⟨hfon, hnsch⟩ := h.free hfree
  obtain ⟨hshape, hon⟩ := hfq t (by rw [ht]; exact h.shape q) (by rw [ht]; exact hfon)
  have htpc : t.pc = s.pc := by rw [ht]; rfl
  have htstate : t.state = s.state := by rw [ht]; rfl
  -- after the section each CPU is as it was, but for `intena`
  have hcpu' : ∀ c', ∃ e, Function.update (f t).cpu c { s.cpu c with
      intena := if (s.cpu c).noff = 0 then (s.cpu c).intr else (s.cpu c).intena } c' =
      { s.cpu c' with intena := e } := by
    intro c'
    by_cases hc : c' = c
    · subst hc
      exact ⟨_, Function.update_self ..⟩
    · exact ⟨(s.cpu c').intena, by rw [Function.update_of_ne hc, hcpu, htcpu, Function.update_of_ne hc]⟩
  refine h.touch (q := q) (fun c' => ?_) (fun c' => ?_) ?_ (fun p hp => ?_) (fun p hp => ?_)
    (fun a => by rw [← htpc]; exact hon a) (fun c' hc' => absurd hc' (hnsch c').2) hshape
  · obtain ⟨e, he⟩ := hcpu' c'
    simp only [Sys.setCpu, he, and_self]
  · obtain ⟨e, he⟩ := hcpu' c'
    simp only [Sys.setCpu, he]
    exact h.intr c'
  · have htholder : t.holder = Function.update s.holder (.proc q) (some c) := by rw [ht]
    change Function.update (f t).holder _ none = _
    rw [hholder, htholder, Function.update_idem, Function.update_eq_self_iff, hfree]
  · simp only [Sys.setCpu, (hpc p hp).1, htpc]
  · simp only [Sys.setCpu, (hpc p hp).2, htstate]

/-! ### Each event keeps the invariant -/

section Events

variable {s s' : Sys} {c : CpuId}

theorem Inv.shape_on (h : Inv s) {p : Slot} {a : At} (hrun : s.running c = some (p, a)) :
    Shape (.on a) (s.state p) := by
  have hs := h.shape p
  rwa [(running_eq_some.mp hrun).2.2] at hs

theorem Inv.acquire_moveTo (h : Inv s) {p : Slot} {a a' : At} {x : Lock} (hrun : s.running c = some (p, a))
    (hs : (s.acquire c x).map (Option.map fun t => t.moveTo p a') = .ok (some s'))
    (hl : a'.holds p = x :: a.holds p) (hpush : a'.pushes = a.pushes) (hsh : Shape (.on a') (s.state p)) :
    Inv s' := by
  obtain ⟨t, hacq, rfl⟩ := map_some_eq hs
  obtain ⟨hx, rfl⟩ := acquire_eq_some hacq
  exact h.move_acquire hrun hx rfl rfl rfl (fun q _ => rfl) hl hpush hsh

theorem Inv.release_moveTo (h : Inv s) {p : Slot} {a a' : At} {x : Lock} (hrun : s.running c = some (p, a))
    (hs : (s.release c x).map (fun t => some (t.moveTo p a')) = .ok (some s'))
    (hx : x ∉ a'.holds p) (hl : ∀ z, z ∈ a.holds p ↔ z = x ∨ z ∈ a'.holds p)
    (hlen : (a.holds p).length = (a'.holds p).length + 1) (hpush : a'.pushes = a.pushes)
    (hnd : (a'.holds p).Nodup) (hsh : Shape (.on a') (s.state p)) : Inv s' := by
  obtain ⟨t, hrel, rfl⟩ := map_eq_some hs
  obtain ⟨-, y, hpop, rfl⟩ := release_eq_ok hrel
  exact h.move_release hrun hpop rfl rfl rfl (fun q _ => rfl) hx hl hlen hpush hnd hsh

theorem Inv.yieldFrom (h : Inv s) {p : Slot} {a : At} {r : Option Nat} (hrun : s.running c = some (p, a))
    (hl : a.holds p = []) (hpush : a.pushes = 0) (hs : yieldFrom s c p r = .ok (some s')) : Inv s' := by
  obtain ⟨t, hacq, rfl⟩ := map_some_eq hs
  obtain ⟨hx, rfl⟩ := acquire_eq_some hacq
  exact h.move_acquire hrun hx rfl rfl rfl
    (fun q hq => by simp [Sys.moveTo, Sys.setPc, Sys.setState, Sys.setCpu, hq]) (by rw [hl]; rfl) hpush.symm
    (by simp [Sys.moveTo, Sys.setPc, Sys.setState, Shape])

theorem Inv.step_yield (h : Inv s) (hs : step s (.yield c) = .ok (some s')) : Inv s' := by
  simp only [step] at hs
  split at hs
  · exact h.yieldFrom ‹_› rfl rfl hs
  · exact h.yieldFrom ‹_› rfl rfl hs
  · cases hs

theorem Inv.step_lock (h : Inv s) {l : Nat} (hs : step s (.lock c l) = .ok (some s')) : Inv s' := by
  simp only [step] at hs
  split at hs
  · rename_i p hrun
    exact h.acquire_moveTo hrun hs rfl rfl (h.shape_on hrun :)
  · rename_i p l' ls hrun
    split_ifs at hs
    · cases hs
    · exact h.acquire_moveTo hrun hs rfl rfl (h.shape_on hrun :)
  · cases hs

theorem Inv.step_sleep (h : Inv s) {ch : Nat} (hs : step s (.sleep c ch) = .ok (some s')) : Inv s' := by
  simp only [step] at hs
  split at hs
  · rename_i p l hrun
    exact h.acquire_moveTo hrun hs rfl rfl (h.shape_on hrun :)
  · cases hs

theorem Inv.step_relock (h : Inv s) (hs : step s (.relock c) = .ok (some s')) : Inv s' := by
  simp only [step] at hs
  split at hs
  · rename_i p l hrun
    exact h.acquire_moveTo hrun hs rfl rfl (h.shape_on hrun :)
  · cases hs

theorem Inv.step_exitLock (h : Inv s) (hs : step s (.exitLock c) = .ok (some s')) : Inv s' := by
  simp only [step] at hs
  split at hs
  · rename_i p hrun
    exact h.acquire_moveTo hrun hs rfl rfl (h.shape_on hrun :)
  · cases hs

theorem Inv.step_exitZombie (h : Inv s) (hs : step s (.exitZombie c) = .ok (some s')) : Inv s' := by
  simp only [step] at hs
  split at hs
  · rename_i p hrun
    obtain ⟨t, hacq, rfl⟩ := map_some_eq hs
    obtain ⟨hx, rfl⟩ := acquire_eq_some hacq
    exact h.move_acquire hrun hx rfl rfl rfl
      (fun q hq => by simp [Sys.moveTo, Sys.setPc, Sys.setState, Sys.setCpu, hq]) rfl rfl
      (by simp [Sys.moveTo, Sys.setPc, Sys.setState, Shape])
  · cases hs

theorem Inv.step_unlock (h : Inv s) (hs : step s (.unlock c) = .ok (some s')) : Inv s' := by
  simp only [step] at hs
  split at hs
  · rename_i p l ls hrun
    -- the locks a CPU holds are distinct, so `other l` is not among the rest
    have hnd : (Lock.other l :: ls.map Lock.other).Nodup := by
      have hn := h.nodup c
      rwa [held_of_running hrun] at hn
    refine h.release_moveTo hrun hs (by rw [holds_locks]; exact (List.nodup_cons.mp hnd).1)
      (fun z => by rw [holds_locks]; simp [At.holds]) (by rw [holds_locks]; simp [At.holds]) (pushes_locks ls)
      (by rw [holds_locks]; exact (List.nodup_cons.mp hnd).2) ?_
    cases ls <;> exact (h.shape_on hrun :)
  · cases hs

theorem Inv.step_sleepRelease (h : Inv s) (hs : step s (.sleepRelease c) = .ok (some s')) : Inv s' := by
  simp only [step] at hs
  split at hs
  · rename_i p l ch hrun
    obtain ⟨t, hrel, rfl⟩ := map_eq_some hs
    obtain ⟨-, y, hpop, rfl⟩ := release_eq_ok hrel
    exact h.move_release hrun hpop rfl rfl rfl
      (fun q hq => by simp [Sys.moveTo, Sys.setPc, Sys.setState, Sys.setCpu, hq])
      (by simp [At.holds]) (by simp [At.holds, or_comm]) rfl rfl (List.nodup_singleton _)
      (by simp [Sys.moveTo, Sys.setPc, Sys.setState, Shape])
  · cases hs

theorem Inv.step_exitRelease (h : Inv s) (hs : step s (.exitRelease c) = .ok (some s')) : Inv s' := by
  simp only [step] at hs
  split at hs
  · rename_i p hrun
    exact h.release_moveTo hrun hs (by simp [At.holds, wait_lock]) (by simp [At.holds, or_comm]) rfl rfl
      (List.nodup_singleton _) (h.shape_on hrun :)
  · cases hs

theorem Inv.step_resume (h : Inv s) (hs : step s (.resume c) = .ok (some s')) : Inv s' := by
  simp only [step] at hs
  split at hs
  · -- `forkret`
    rename_i p hrun
    exact h.release_moveTo hrun hs (by simp [At.holds]) (by simp [At.holds]) rfl rfl List.nodup_nil
      (h.shape_on hrun :)
  · -- back in `yield`
    rename_i p r hrun
    cases r <;>
      exact h.release_moveTo hrun hs (by simp [At.holds, afterYield]) (by simp [At.holds, afterYield]) rfl rfl
        List.nodup_nil (h.shape_on hrun :)
  · -- back in `sleep`: `p->chan = 0` and `release(&p->lock)`
    rename_i p l hrun
    obtain ⟨t, hrel, rfl⟩ := map_eq_some hs
    obtain ⟨-, y, hpop, rfl⟩ := release_eq_ok hrel
    exact h.move_release hrun hpop rfl rfl rfl (fun q _ => rfl) (by simp [At.holds]) (by simp [At.holds]) rfl rfl
      List.nodup_nil (h.shape_on hrun :)
  · cases hs
  · cases hs

/-- A lock-free `push_off` or its `pop_off`: the process keeps its locks,
and its CPU becomes `y`. -/
theorem Inv.move_nest (h : Inv s) {p : Slot} {a a' : At} {y : Cpu} (hrun : s.running c = some (p, a))
    (hl : a'.holds p = a.holds p) (hsch : y.sch = (s.cpu c).sch) (hproc : y.proc = (s.cpu c).proc)
    (hnoff : y.noff = (a'.holds p).length + a'.pushes) (hintr : 0 < y.noff → y.intr = false)
    (hsh : Shape (.on a') (s.state p)) : Inv ((s.setCpu c y).moveTo p a') := by
  obtain ⟨hsch0, hproc0, -⟩ := running_eq_some.mp hrun
  have hheld := held_of_running hrun
  refine h.move hrun (fun c' hc' => by simp [Sys.moveTo, Sys.setPc, Sys.setCpu, hc'])
    (by simp [Sys.moveTo, Sys.setPc, Sys.setCpu, hsch, hsch0])
    (by simp [Sys.moveTo, Sys.setPc, Sys.setCpu, hproc, hproc0])
    (fun q hq => by simp [Sys.moveTo, Sys.setPc, Sys.setCpu, hq]) (by simp [Sys.moveTo, Sys.setPc])
    (fun _ _ => rfl) hsh (fun z c' => ?_) (by simpa [Sys.moveTo, Sys.setPc, Sys.setCpu] using hnoff)
    (by rw [hl, ← hheld]; exact h.nodup c) (by simpa [Sys.moveTo, Sys.setPc, Sys.setCpu] using hintr)
  show s.holder z = some c' ↔ _
  split_ifs with hc'
  · subst hc'
    rw [h.holder, hheld, hl]
  · rfl

theorem nestIn_eq_some {a a' : At} (h : a.nestIn = some a') (p : Slot) :
    a'.holds p = a.holds p ∧ a'.pushes = a.pushes + 1 ∧ ∀ st, Shape (.on a) st → Shape (.on a') st := by
  cases a <;> simp only [At.nestIn, Option.some.injEq, reduceCtorEq] at h <;> subst h <;>
    exact ⟨by simp [At.holds], rfl, fun _ hs => hs⟩

theorem Inv.step_pushOff (h : Inv s) (hs : step s (.pushOff c) = .ok (some s')) : Inv s' := by
  simp only [step] at hs
  split at hs
  · rename_i p a hrun
    split at hs
    · rename_i a' ha
      cases hs
      obtain ⟨hl, hpush, hsh⟩ := nestIn_eq_some ha p
      refine h.move_nest hrun hl rfl rfl ?_ (fun _ => rfl) (hsh _ (h.shape_on hrun))
      simp [Cpu.pushOff, h.noff, held_of_running hrun, nest_of_running hrun, hl, hpush]
      omega
    · cases hs
  · cases hs

theorem Inv.step_popOff (h : Inv s) (hs : step s (.popOff c) = .ok (some s')) : Inv s' := by
  simp only [step] at hs
  split at hs
  · rename_i p k ls hrun
    obtain ⟨y, hpop, rfl⟩ := map_eq_some hs
    obtain ⟨hintr, hn, rfl⟩ := popOff_eq_ok hpop
    have hsh : Shape (.on (At.unnest k ls)) (s.state p) := by
      rcases k with _ | k
      · cases ls <;> exact (h.shape_on hrun :)
      · exact (h.shape_on hrun :)
    have hnoff : (s.cpu c).noff = ls.length + (k + 1) := by
      rw [h.noff, held_of_running hrun, nest_of_running hrun]
      simp [At.holds, At.pushes]
    refine h.move_nest hrun (by rw [holds_unnest]; rfl) rfl rfl ?_ (fun h0 => ?_) hsh
    · simp only [holds_unnest, pushes_unnest, List.length_map]
      omega
    · simp only at h0 ⊢
      rw [if_neg (by omega), hintr]
  · cases hs

theorem holds_of_resume {a : At} {k : Resume} (p : Slot) (hk : a.resume = some k) : a.holds p = [.proc p] := by
  cases a <;> first | rfl | cases hk

theorem pushes_of_resume {a : At} {k : Resume} (hk : a.resume = some k) : a.pushes = 0 := by
  cases a <;> first | rfl | cases hk

theorem shape_off_of_resume {a : At} {k : Resume} {st : Procstate} (e : Bool) (hk : a.resume = some k)
    (hs : Shape (.on a) st) : Shape (.off k e) st := by
  cases a with
  | yield r => cases hk; exact hs
  | sleep l => cases hk; exact .inl hs
  | exit => cases hk; exact hs
  | _ => cases hk

/-- `sched()`'s `swtch` to the scheduler: `p->lock` stays held, now for the
scheduler. -/
theorem Inv.swtch_out (h : Inv s) {p : Slot} {a : At} {k : Resume} (hrun : s.running c = some (p, a))
    (hk : a.resume = some k) :
    Inv ((s.setPc p (.off k (s.cpu c).intena)).setCpu c { s.cpu c with sch := .back p }) := by
  obtain ⟨-, hproc0, -⟩ := running_eq_some.mp hrun
  have hheld : s.held c = [.proc p] := by rw [held_of_running hrun, holds_of_resume p hk]
  have hheld' : ((s.setPc p (.off k (s.cpu c).intena)).setCpu c { s.cpu c with sch := .back p }).held c =
      [.proc p] := by
    simp [Sys.held, Sys.setCpu]
  refine h.frame (p := p) (fun c' hc' => by simp [Sys.setCpu, Sys.setPc, hc'])
    (fun q hq => by simp [Sys.setCpu, Sys.setPc, hq]) (fun _ _ => rfl)
    (fun c' hc' hp => absurd (h.proc c' c p hp hproc0) hc') (fun y c' => ?_) ?_ (by rw [hheld']; simp) ?_ ?_
    (fun b hb => by simp [Sys.setCpu, Sys.setPc] at hb) (fun q b hq => ?_) (fun q hq => .inl ?_) ?_
  · rw [hheld']
    show s.holder y = some c' ↔ _
    split_ifs with hc'
    · subst hc'
      rw [h.holder, hheld]
    · rfl
  · -- the scheduler now holds `p->lock`, and `sched` checked it is the only lock
    rw [hheld', nest_of_none (running_of_sch (by simp [Sys.setCpu]))]
    simp [Sys.setCpu, h.noff, hheld, nest_of_running hrun, pushes_of_resume hk]
  · simp only [Sys.setCpu, Function.update_self]
    exact h.intr c
  · simp [SchOk, Sys.setCpu, Sys.setPc, hproc0]
  · rw [hrun] at hq
    cases hq
    rfl
  · simpa [Sys.setCpu] using hq
  · simp only [Sys.setCpu, Sys.setPc, Function.update_self]
    exact shape_off_of_resume _ hk (h.shape_on hrun)

theorem Inv.step_sched (h : Inv s) (hs : step s (.sched c) = .ok (some s')) : Inv s' := by
  simp only [step] at hs
  split at hs
  · rename_i p a hrun
    split at hs
    · rename_i k hk
      unfold schedOut at hs
      split_ifs at hs
      cases hs
      exact h.swtch_out hrun hk
    · cases hs
  · cases hs

/-- The scheduler's `swtch` to `proc[i]`, whose lock it holds; `proc[i]`
goes on at `a`. -/
theorem Inv.swtch_in (h : Inv s) {i : Slot} {a : At} {e : Bool} (hsch : (s.cpu c).sch = .holds i)
    (hst : s.state i = .RUNNABLE)
    (ha : s.pc i = .fresh ∧ a = .forkret ∨ ∃ k, s.pc i = .off k e ∧ a = .resumed k) :
    Inv (switchIn s c i a e) := by
  have hheld : s.held c = [.proc i] := by simp [Sys.held, hsch]
  have hrun0 : s.running c = none := by simp [Sys.running, hsch]
  -- no other CPU has `proc[i]`: it is switched out, and `c` holds its lock
  have hfree : ∀ c', c' ≠ c → (s.cpu c').proc ≠ some i := by
    intro c' hc' hp
    have hs := h.sch c'
    unfold SchOk at hs
    split at hs
    · rw [hs] at hp
      cases hp
    · rw [hs] at hp
      cases hp
    · obtain ⟨q, b, hq, hb⟩ := hs
      rw [hp] at hq
      cases hq
      rcases ha with ⟨hf, -⟩ | ⟨k, hk, -⟩
      · rw [hf] at hb
        cases hb
      · rw [hk] at hb
        cases hb
    · rename_i j hj
      obtain ⟨hq, -⟩ := hs
      rw [hp] at hq
      cases hq
      exact hc' (h.held_unique (show Lock.proc i ∈ s.held c' by simp [Sys.held, hj]) (by rw [hheld]; simp))
  have ha' : a.holds i = [.proc i] := by
    rcases ha with ⟨-, rfl⟩ | ⟨k, -, rfl⟩ <;> rfl
  have hpush : a.pushes = 0 := by
    rcases ha with ⟨-, rfl⟩ | ⟨k, -, rfl⟩ <;> rfl
  have hrun' : (switchIn s c i a e).running c = some (i, a) :=
    running_eq_some.mpr ⟨by simp [switchIn, Sys.setCpu], by simp [switchIn, Sys.setCpu],
      by simp [switchIn, Sys.setCpu, Sys.setPc]⟩
  have hheld' := held_of_running hrun'
  refine h.frame (p := i) (fun c' hc' => by simp [switchIn, Sys.setCpu, Sys.setPc, Sys.setState, hc'])
    (fun q hq => by simp [switchIn, Sys.setCpu, Sys.setPc, Sys.setState, hq])
    (fun q hq => by simp [switchIn, Sys.setCpu, Sys.setPc, Sys.setState, hq])
    (fun c' hc' hp => absurd hp (hfree c' hc')) (fun y c' => ?_) ?_ (by rw [hheld', ha']; simp) ?_ ?_
    (fun b hb => .inl ?_) (fun q b hq => by rw [hrun0] at hq; cases hq) (fun q hq => .inr ?_) ?_
  · rw [hheld', ha']
    show s.holder y = some c' ↔ _
    split_ifs with hc'
    · subst hc'
      rw [h.holder, hheld]
    · rfl
  · rw [hheld', ha', nest_of_running hrun', hpush]
    simp [switchIn, Sys.setCpu, h.noff, hheld, nest_of_none hrun0]
  · simp only [switchIn, Sys.setCpu, Function.update_self]
    exact h.intr c
  · simp [SchOk, switchIn, Sys.setCpu, Sys.setPc]
  · simp only [switchIn, Sys.setCpu, Sys.setPc, Function.update_self, Pc.on.injEq] at hb
    rw [← hb]
    exact hrun'
  · simp only [switchIn, Sys.setCpu, Function.update_self, Option.some.injEq] at hq
    subst hq
    exact hfree
  · simp only [switchIn, Sys.setCpu, Sys.setPc, Sys.setState, Function.update_self]
    rcases ha with ⟨-, rfl⟩ | ⟨k, hk, rfl⟩
    · simp [Shape]
    · -- a process switched out in `exit` is a `ZOMBIE`, never `RUNNABLE`
      have hs := h.shape i
      rw [hk, hst] at hs
      cases k <;> simp [Shape] at hs ⊢

theorem Inv.toIdle (h : Inv s) {i : Slot} (hheld : s.held c = [.proc i]) (hrun : s.running c = none)
    (hcpu : ∀ c', c' ≠ c → s'.cpu c' = s.cpu c') (hsch : (s'.cpu c).sch = .idle)
    (hproc : (s'.cpu c).proc = none) (hnoff : (s'.cpu c).noff = 0)
    (hholder : s'.holder = Function.update s.holder (.proc i) none) (hpc : s'.pc = s.pc)
    (hstate : s'.state = s.state) : Inv s' := by
  have hheld' : s'.held c = [] := by simp [Sys.held, hsch]
  refine h.frame (p := i) hcpu (fun q _ => by rw [hpc]) (fun q _ => by rw [hstate]) (fun _ _ _ => by rw [hpc])
    (fun z c' => ?_) (by rw [hheld', hnoff, nest_of_none (running_of_sch (by simp [hsch]))]; rfl)
    (by rw [hheld']; exact List.nodup_nil) (by omega) (by simp [SchOk, hsch, hproc])
    (fun b hb => .inr ⟨by rwa [hpc] at hb, by simp [hrun]⟩) (fun q b hq => by rw [hrun] at hq; cases hq)
    (fun q hq => by rw [hproc] at hq; cases hq) (by rw [hpc, hstate]; exact h.shape i)
  rw [hholder, hheld']
  exact h.holder_release (by simp [hheld]) (by simp) z c'

theorem Inv.step_schedAcquire (h : Inv s) {i : Slot} (hs : step s (.schedAcquire c i) = .ok (some s')) :
    Inv s' := by
  simp only [step] at hs
  by_cases hidle : (s.cpu c).sch = .idle
  swap
  · rw [if_neg hidle] at hs
    cases hs
  rw [if_pos hidle] at hs
  obtain ⟨t, hacq, hs'⟩ := map_some_eq hs
  obtain ⟨hx, ht⟩ := acquire_eq_some hacq
  have hcpu : s'.cpu = Function.update s.cpu c { (s.cpu c).pushOff with sch := .holds i } := by
    rw [← hs', ht]
    simp [Sys.setCpu]
  have hholder : s'.holder = Function.update s.holder (.proc i) (some c) := by rw [← hs', ht]; rfl
  have hpc : s'.pc = s.pc := by rw [← hs', ht]; rfl
  have hstate : s'.state = s.state := by rw [← hs', ht]; rfl
  have hheld : s.held c = [] := by simp [Sys.held, hidle]
  have hheld' : s'.held c = [.proc i] := by simp [Sys.held, hcpu]
  have hrun0 : s.running c = none := by simp [Sys.running, hidle]
  have hproc0 : (s.cpu c).proc = none := by
    have hs := h.sch c
    simpa [SchOk, hidle] using hs
  refine h.frame (c := c) (p := i) (fun c' hc' => by simp [hcpu, hc']) (fun _ _ => by rw [hpc])
    (fun _ _ => by rw [hstate]) (fun _ _ _ => by rw [hpc]) (fun y c' => ?_) ?_ (by rw [hheld']; simp) ?_ ?_
    (fun a ha => .inr ⟨by rwa [hpc] at ha, by simp [hrun0]⟩)
    (fun q a hq => by rw [hrun0] at hq; cases hq) (fun q hq => .inl ?_) (by rw [hpc, hstate]; exact h.shape i)
  · rw [hheld', hholder]
    exact h.holder_acquire hx (fun z => by simp [hheld]) y c'
  · rw [hheld', nest_of_none (running_of_sch (by simp [hcpu]))]
    simp [hcpu, Cpu.pushOff, h.noff, hheld, nest_of_none hrun0]
  · simp [hcpu, Cpu.pushOff]
  · simp [SchOk, hcpu, Cpu.pushOff, hproc0]
  · simpa [hcpu, Cpu.pushOff] using hq

theorem Inv.step_schedPick (h : Inv s) (hs : step s (.schedPick c) = .ok (some s')) : Inv s' := by
  simp only [step] at hs
  split at hs
  · rename_i i hsch
    split_ifs at hs with hst
    · split at hs
      · rename_i hf
        cases hs
        exact h.swtch_in hsch hst (.inl ⟨hf, rfl⟩)
      · rename_i k e hk
        cases hs
        exact h.swtch_in hsch hst (.inr ⟨k, hk, rfl⟩)
      · cases hs
    · -- not `RUNNABLE`: `release(&p->lock)`
      obtain ⟨t, hrel, rfl⟩ := map_eq_some hs
      obtain ⟨-, y, hpop, rfl⟩ := release_eq_ok hrel
      obtain ⟨-, -, rfl⟩ := popOff_eq_ok hpop
      have hheld : s.held c = [.proc i] := by simp [Sys.held, hsch]
      have hrun0 : s.running c = none := running_of_sch (by simp [hsch])
      have hproc0 : (s.cpu c).proc = none := by
        have hs := h.sch c
        simpa [SchOk, hsch] using hs
      exact h.toIdle hheld hrun0 (fun c' hc' => by simp [Sys.setCpu, hc'])
        (by simp [Sys.setCpu]) (by simp [Sys.setCpu, hproc0])
        (by simp [Sys.setCpu, h.noff, hheld, nest_of_none hrun0]) rfl rfl rfl
  · cases hs

theorem Inv.step_schedBack (h : Inv s) (hs : step s (.schedBack c) = .ok (some s')) : Inv s' := by
  simp only [step] at hs
  split at hs
  · rename_i i hsch
    obtain ⟨t, hrel, rfl⟩ := map_eq_some hs
    obtain ⟨-, y, hpop, rfl⟩ := release_eq_ok hrel
    simp only [Sys.setCpu, Function.update_self] at hpop
    obtain ⟨-, -, rfl⟩ := popOff_eq_ok hpop
    have hheld : s.held c = [.proc i] := by simp [Sys.held, hsch]
    have hrun0 : s.running c = none := running_of_sch (by simp [hsch])
    exact h.toIdle hheld hrun0 (fun c' hc' => by simp [Sys.setCpu, hc'])
      (by simp [Sys.setCpu]) (by simp [Sys.setCpu]) (by simp [Sys.setCpu, h.noff, hheld, nest_of_none hrun0])
      rfl rfl rfl
  · cases hs

theorem Inv.setIntr (h : Inv s) {x : Cpu} (hx : x.sch = (s.cpu c).sch ∧ x.proc = (s.cpu c).proc ∧
    x.noff = (s.cpu c).noff) (hi : 0 < x.noff → x.intr = false) : Inv (s.setCpu c x) := by
  refine h.touch (q := initSlot) (fun c' => ?_) (fun c' => ?_) rfl (fun _ _ => rfl) (fun _ _ => rfl)
    (fun _ => Iff.rfl) (fun _ _ => rfl) (h.shape _)
  · by_cases hc : c' = c
    · subst hc
      simpa [Sys.setCpu] using hx
    · simp [Sys.setCpu, hc]
  · by_cases hc : c' = c
    · subst hc
      simpa [Sys.setCpu] using hi
    · simpa [Sys.setCpu, hc] using h.intr c'

theorem Inv.step_intrOn (h : Inv s) (hs : step s (.intrOn c) = .ok (some s')) : Inv s' := by
  simp only [step] at hs
  by_cases h0 : (s.cpu c).noff = 0
  · rw [if_pos h0] at hs
    cases hs
    exact h.setIntr ⟨rfl, rfl, rfl⟩ (by simp [h0])
  · rw [if_neg h0] at hs
    cases hs

theorem Inv.step_intrOff (h : Inv s) (hs : step s (.intrOff c) = .ok (some s')) : Inv s' := by
  rw [step_intrOff_eq] at hs
  cases hs
  exact h.setIntr ⟨rfl, rfl, rfl⟩ (fun _ => rfl)

theorem shape_wake {t : Sys} {q : Slot} (hsh : Shape (t.pc q) (t.state q))
    (hfr : ∀ a, t.pc q = .on a → Lock.proc q ∉ a.holds q) (hst : t.state q = .SLEEPING) :
    Shape ((t.setState q .RUNNABLE).pc q) ((t.setState q .RUNNABLE).state q) := by
  obtain ⟨l, e, he⟩ := shape_sleeping (hst ▸ hsh) hfr
  simp [Sys.setState, he, Shape]

theorem Inv.step_wakeup (h : Inv s) {q : Slot} {ch : Nat} (hs : step s (.wakeup c q ch) = .ok (some s')) :
    Inv s' := by
  simp only [step] at hs
  by_cases hw : wakes s c q
  swap
  · rw [if_neg hw] at hs
    cases hs
  rw [if_pos hw] at hs
  refine h.critical (fun t => ?_) (fun t hsh hfr => ?_) hs
  · split_ifs
    · exact ⟨rfl, rfl, fun p hp => ⟨rfl, Function.update_of_ne hp _ _⟩⟩
    · exact ⟨rfl, rfl, fun _ _ => ⟨rfl, rfl⟩⟩
  · split_ifs with hc
    · exact ⟨shape_wake hsh hfr hc.1, fun _ => Iff.rfl⟩
    · exact ⟨hsh, fun _ => Iff.rfl⟩

theorem Inv.step_kill (h : Inv s) {q : Slot} (hs : step s (.kill c q) = .ok (some s')) : Inv s' := by
  simp only [step] at hs
  split at hs
  · refine h.critical (fun t => ?_) (fun t hsh hfr => ?_) hs
    · split_ifs
      · exact ⟨rfl, rfl, fun p hp => ⟨rfl, Function.update_of_ne hp _ _⟩⟩
      · exact ⟨rfl, rfl, fun _ _ => ⟨rfl, rfl⟩⟩
    · split_ifs with hc
      · exact ⟨shape_wake (t := { t with killed := _ }) hsh hfr hc, fun _ => Iff.rfl⟩
      · exact ⟨hsh, fun _ => Iff.rfl⟩
  · cases hs

theorem Inv.step_allocproc (h : Inv s) {q : Slot} (hs : step s (.allocproc c q) = .ok (some s')) : Inv s' := by
  simp only [step] at hs
  split at hs
  · refine h.critical (fun t => ?_) (fun t hsh _ => ?_) hs
    · split_ifs
      · exact ⟨rfl, rfl, fun p hp => ⟨Function.update_of_ne hp _ _, Function.update_of_ne hp _ _⟩⟩
      · exact ⟨rfl, rfl, fun _ _ => ⟨rfl, rfl⟩⟩
    · split_ifs with hc
      · -- an `UNUSED` slot is free: `allocproc` sets it up to enter `forkret`
        have hu := shape_unused (hc ▸ hsh)
        simp [Sys.setState, Sys.setPc, Shape, hu]
      · exact ⟨hsh, fun _ => Iff.rfl⟩
  · cases hs

theorem Inv.step_forkRun (h : Inv s) {q : Slot} (hs : step s (.forkRun c q) = .ok (some s')) : Inv s' := by
  simp only [step] at hs
  split at hs
  · refine h.critical (fun t => ?_) (fun t hsh _ => ?_) hs
    · split_ifs
      · exact ⟨rfl, rfl, fun p hp => ⟨rfl, Function.update_of_ne hp _ _⟩⟩
      · exact ⟨rfl, rfl, fun _ _ => ⟨rfl, rfl⟩⟩
    · split_ifs with hc
      · have hu := shape_used (hc ▸ hsh)
        simp [Sys.setState, Shape, hu]
      · exact ⟨hsh, fun _ => Iff.rfl⟩
  · cases hs

theorem Inv.step_freeproc (h : Inv s) {q : Slot} (hs : step s (.freeproc c q) = .ok (some s')) : Inv s' := by
  simp only [step] at hs
  split at hs
  case h_3 => cases hs
  -- from `wait`, holding no lock, or after a failed `fork`, holding `wait_lock`
  all_goals
    refine h.critical (fun t => ?_) (fun t hsh hfr => ?_) hs
    · split_ifs
      · exact ⟨rfl, rfl, fun p hp => ⟨Function.update_of_ne hp _ _, Function.update_of_ne hp _ _⟩⟩
      · exact ⟨rfl, rfl, fun _ _ => ⟨rfl, rfl⟩⟩
    · split_ifs with hc
      · -- a `ZOMBIE` with its lock free has switched out for good, a `USED` slot never ran
        have hoff : ∀ a, t.pc q ≠ .on a := by
          rcases hc with hz | hu
          · obtain ⟨e, he⟩ := shape_zombie (hz ▸ hsh) hfr
            simp [he]
          · simp [shape_used (hu ▸ hsh)]
        simp [Sys.setState, Sys.setPc, Shape, hoff]
      · exact ⟨hsh, fun _ => Iff.rfl⟩

/-- Every event keeps the invariant. -/
theorem Inv.next (h : Inv s) {e : Event} (hs : step s e = .ok (some s')) : Inv s' := by
  cases e with
  | schedAcquire c i => exact h.step_schedAcquire hs
  | schedPick c => exact h.step_schedPick hs
  | schedBack c => exact h.step_schedBack hs
  | intrOn c => exact h.step_intrOn hs
  | intrOff c => exact h.step_intrOff hs
  | yield c => exact h.step_yield hs
  | sched c => exact h.step_sched hs
  | resume c => exact h.step_resume hs
  | lock c l => exact h.step_lock hs
  | unlock c => exact h.step_unlock hs
  | pushOff c => exact h.step_pushOff hs
  | popOff c => exact h.step_popOff hs
  | sleep c ch => exact h.step_sleep hs
  | sleepRelease c => exact h.step_sleepRelease hs
  | relock c => exact h.step_relock hs
  | exitLock c => exact h.step_exitLock hs
  | exitZombie c => exact h.step_exitZombie hs
  | exitRelease c => exact h.step_exitRelease hs
  | wakeup c q ch => exact h.step_wakeup hs
  | kill c q => exact h.step_kill hs
  | allocproc c q => exact h.step_allocproc hs
  | forkRun c q => exact h.step_forkRun hs
  | freeproc c q => exact h.step_freeproc hs

end Events

theorem Reachable.inv {s : Sys} (hs : Reachable s) : Inv s := by
  induction hs with
  | init => exact init_inv
  | step e _ hs ih => exact ih.next hs

/-! ## What the invariant gives -/

section Consequences

variable {s : Sys} {c : CpuId} {x : Lock}

theorem shape_running_of_free {a : At} {p : Slot} {st : Procstate} (hs : Shape (.on a) st)
    (hf : Lock.proc p ∉ a.holds p) : st = .RUNNING := by
  cases a with
  | resumed k => simp [At.holds] at hf
  | _ => simp_all [Shape, At.holds]

theorem shape_on_of_running {pc : Pc} (hs : Shape pc .RUNNING) : ∃ a, pc = .on a := by
  rcases pc with _ | _ | ⟨k, e⟩ | a
  · simp [Shape] at hs
  · simp [Shape] at hs
  · cases k <;> simp [Shape] at hs
  · exact ⟨a, rfl⟩

/-- While `p->lock` is free, `p` is `RUNNING` exactly when some CPU runs it. -/
theorem Inv.running_iff (h : Inv s) {p : Slot} (hfree : s.holder (.proc p) = none) :
    s.state p = .RUNNING ↔ ∃ c, (s.cpu c).proc = some p := by
  obtain ⟨hfon, hnsch⟩ := h.free hfree
  constructor
  · intro hst
    have hsh := h.shape p
    rw [hst] at hsh
    obtain ⟨a, ha⟩ := shape_on_of_running hsh
    obtain ⟨c, hc⟩ := h.on p a ha
    exact ⟨c, (running_eq_some.mp hc).2.1⟩
  · rintro ⟨c, hc⟩
    have hs := h.sch c
    unfold SchOk at hs
    split at hs
    · rw [hs] at hc
      cases hc
    · rw [hs] at hc
      cases hc
    · -- `c` runs `p`, at a point where it holds no lock of its own
      obtain ⟨q, a, hq, ha⟩ := hs
      rw [hc] at hq
      cases hq
      have hsh := h.shape p
      rw [ha] at hsh
      exact shape_running_of_free hsh (hfon a ha)
    · rename_i i hi
      obtain ⟨hq, -⟩ := hs
      rw [hc] at hq
      cases hq
      exact absurd hi (hnsch c).2

theorem Inv.at_sched (h : Inv s) {p : Slot} {a : At} {k : Resume} (hrun : s.running c = some (p, a))
    (hk : a.resume = some k) :
    (∀ x, s.holder x = some c ↔ x = .proc p) ∧ (s.cpu c).noff = 1 ∧ s.state p ≠ .RUNNING ∧
      (s.cpu c).intr = false := by
  have hheld : s.held c = [.proc p] := by rw [held_of_running hrun, holds_of_resume p hk]
  have hnoff : (s.cpu c).noff = 1 := by rw [h.noff, hheld, nest_of_running hrun, pushes_of_resume hk]; rfl
  refine ⟨fun x => by rw [h.holder, hheld, List.mem_singleton], hnoff, fun hst => ?_, h.intr c (by omega)⟩
  have hsh := h.shape_on hrun
  rw [hst] at hsh
  cases a <;> simp [At.resume, Shape] at hk hsh

theorem map_ne_error {α β : Type} {e : Except String α} {f : α → β} (h : ∀ m, e ≠ .error m) (msg : String) :
    e.map f ≠ .error msg := by
  cases e with
  | error m => exact absurd rfl (h m)
  | ok a => simp [Except.map]

theorem Inv.acquire_ne_error (h : Inv s) (hx : x ∉ s.held c) (msg : String) : s.acquire c x ≠ .error msg := by
  have hc : s.holder x ≠ some c := fun hc => hx ((h.holder x c).mp hc)
  unfold Sys.acquire
  rw [if_neg hc]
  split_ifs <;> simp

theorem popOff_ne_error {y : Cpu} (hi : y.intr = false) (hn : 1 ≤ y.noff) (msg : String) :
    y.popOff ≠ .error msg := by
  unfold Cpu.popOff
  rw [hi]
  simp [show ¬y.noff < 1 by omega]

theorem Sys.release_ne_error (hc : s.holder x = some c) (hi : (s.cpu c).intr = false)
    (hn : 1 ≤ (s.cpu c).noff) (msg : String) : s.release c x ≠ .error msg := by
  unfold Sys.release
  rw [if_neg (not_not.mpr hc)]
  exact map_ne_error (fun m => popOff_ne_error hi hn m) msg

/-- A CPU holding a lock counts it in `noff`. -/
theorem Inv.noff_pos (h : Inv s) (hx : x ∈ s.held c) : 0 < (s.cpu c).noff := by
  have hlen := List.length_pos_of_mem hx
  rw [h.noff]
  omega

theorem Inv.release_ne_error (h : Inv s) (hx : x ∈ s.held c) (msg : String) : s.release c x ≠ .error msg := by
  have hn := h.noff_pos hx
  exact Sys.release_ne_error ((h.holder x c).mpr hx) (h.intr c hn) hn msg

theorem Inv.critical_ne_error (h : Inv s) {f : Sys → Sys} (hx : x ∉ s.held c)
    (hf : ∀ t, (f t).cpu = t.cpu ∧ (f t).holder = t.holder) (msg : String) :
    s.critical c x f ≠ .error msg := by
  unfold Sys.critical
  split
  · rename_i t hacq
    obtain ⟨-, ht⟩ := acquire_eq_some hacq
    refine map_ne_error (Sys.release_ne_error ?_ ?_ ?_) msg
    · rw [(hf t).2, ht]
      simp
    · rw [(hf t).1, ht]
      simp [Sys.setCpu, Cpu.pushOff]
    · rw [(hf t).1, ht]
      simp [Sys.setCpu, Cpu.pushOff]
  · exact h.acquire_ne_error hx msg

theorem Inv.acquire_run_ne_error (h : Inv s) {p : Slot} {a : At} (hrun : s.running c = some (p, a))
    (hx : x ∉ a.holds p) {β : Type} (g : Option Sys → β) (msg : String) : (s.acquire c x).map g ≠ .error msg :=
  map_ne_error (h.acquire_ne_error (by rwa [held_of_running hrun])) msg

theorem Inv.release_run_ne_error (h : Inv s) {p : Slot} {a : At} (hrun : s.running c = some (p, a))
    (hx : x ∈ a.holds p) {β : Type} (g : Sys → β) (msg : String) : (s.release c x).map g ≠ .error msg :=
  map_ne_error (h.release_ne_error (by rwa [held_of_running hrun])) msg

/-- A `RUNNABLE` process whose lock a scheduler holds has never run or is
switched out. -/
theorem Inv.runnable_of_holds (h : Inv s) {i : Slot} (hsch : (s.cpu c).sch = .holds i)
    (hst : s.state i = .RUNNABLE) : s.pc i = .fresh ∨ ∃ k e, s.pc i = .off k e := by
  have hsh := h.shape i
  rw [hst] at hsh
  rcases hp : s.pc i with _ | _ | ⟨k, e⟩ | a
  · rw [hp] at hsh
    simp [Shape] at hsh
  · exact .inl rfl
  · exact .inr ⟨k, e, rfl⟩
  · -- on a CPU only a process in `yield` is `RUNNABLE`, and that CPU holds
    -- its lock, which `c` holds
    rw [hp] at hsh
    obtain ⟨c', hc'⟩ := h.on i a hp
    have hmem : Lock.proc i ∈ s.held c' := by
      rw [held_of_running hc']
      cases a <;> simp [Shape, At.holds] at hsh ⊢
    have hcc := h.held_unique hmem (show Lock.proc i ∈ s.held c by simp [Sys.held, hsch])
    subst hcc
    have := (running_eq_some.mp hc').1
    rw [hsch] at this
    cases this

theorem wakes_not_held {q : Slot} (hw : wakes s c q = true) : Lock.proc q ∉ s.held c := by
  unfold wakes at hw
  unfold Sys.held
  cases hsch : (s.cpu c).sch with
  | idle => simp
  | out =>
    rw [hsch] at hw
    cases hrun : s.running c with
    | none => simp
    | some pa =>
      obtain ⟨p, a⟩ := pa
      rw [hrun] at hw
      cases a <;> simp_all [At.holds, wait_lock]
  | holds i | back i =>
    have hnone : s.running c = none := by simp [Sys.running, hsch]
    rw [hsch, hnone] at hw
    simp at hw

/-- No event panics, from any state where the invariant holds. -/
theorem Inv.no_panic (h : Inv s) (e : Event) (msg : String) : step s e ≠ .error msg := by
  cases e with
  | schedAcquire c i =>
    simp only [step]
    split_ifs with hidle
    · exact map_ne_error (h.acquire_ne_error (by simp [Sys.held, hidle])) msg
    · simp
  | schedPick c =>
    simp only [step]
    split
    · rename_i i hsch
      split_ifs with hst
      · split
        · simp
        · simp
        · rename_i hf hoff
          rcases h.runnable_of_holds hsch hst with hp | ⟨k, e, hp⟩
          · exact absurd hp hf
          · exact absurd hp (hoff k e)
      · exact map_ne_error (h.release_ne_error (by simp [Sys.held, hsch])) msg
    · simp
  | schedBack c =>
    simp only [step]
    split
    · rename_i i hsch
      have hmem : Lock.proc i ∈ s.held c := by simp [Sys.held, hsch]
      have hn : (s.cpu c).noff = 1 := by
        rw [h.noff, nest_of_none (running_of_sch (by simp [hsch]))]
        simp [Sys.held, hsch]
      refine map_ne_error (Sys.release_ne_error ?_ ?_ ?_) msg
      · exact (h.holder _ c).mpr hmem
      · simpa [Sys.setCpu] using h.intr c (by omega)
      · simp [Sys.setCpu, hn]
    · simp
  | intrOn c =>
    simp only [step]
    split_ifs <;> simp
  | intrOff c => simp [step]
  | yield c =>
    simp only [step]
    split
    · exact h.acquire_run_ne_error ‹_› (by simp [At.holds]) _ msg
    · exact h.acquire_run_ne_error ‹_› (by simp [At.holds]) _ msg
    · simp
  | sched c =>
    simp only [step]
    split
    · rename_i p a hrun
      split
      · rename_i k hk
        obtain ⟨hx, hn, hst, hi⟩ := h.at_sched hrun hk
        simp [schedOut, (hx _).mpr rfl, hn, hst, hi]
      · simp
    · simp
  | resume c =>
    simp only [step]
    split
    · exact h.release_run_ne_error ‹_› (by simp [At.holds]) _ msg
    · exact h.release_run_ne_error ‹_› (by simp [At.holds]) _ msg
    · -- `p->chan = 0` first, then `release`
      rename_i p l hrun
      have hmem : Lock.proc p ∈ s.held c := by simp [held_of_running hrun, At.holds]
      have hn := h.noff_pos hmem
      refine map_ne_error (Sys.release_ne_error ?_ ?_ ?_) msg
      · exact (h.holder _ c).mpr hmem
      · exact h.intr c hn
      · exact hn
    · -- a process is never switched back into `exit`
      rename_i p hrun
      exact absurd (h.shape_on hrun) (by simp [Shape])
    · simp
  | lock c l =>
    simp only [step]
    split
    · exact h.acquire_run_ne_error ‹_› (by simp [At.holds]) _ msg
    · rename_i p l' ls hrun
      split_ifs with hl
      · simp
      · exact h.acquire_run_ne_error hrun (by simpa [At.holds] using hl) _ msg
    · simp
  | unlock c =>
    simp only [step]
    split
    · exact h.release_run_ne_error ‹_› (by simp [At.holds]) _ msg
    · simp
  | pushOff c =>
    simp only [step]
    split
    · split <;> simp
    · simp
  | popOff c =>
    simp only [step]
    split
    · -- inside a `push_off`, so `noff` is positive and interrupts are off
      rename_i p k ls hrun
      have hn : 1 ≤ (s.cpu c).noff := by
        rw [h.noff, nest_of_running hrun]
        simp only [At.pushes]
        omega
      exact map_ne_error (fun m => popOff_ne_error (h.intr c hn) hn m) msg
    · simp
  | sleep c ch =>
    simp only [step]
    split
    · exact h.acquire_run_ne_error ‹_› (by simp [At.holds]) _ msg
    · simp
  | sleepRelease c =>
    simp only [step]
    split
    · exact h.release_run_ne_error ‹_› (by simp [At.holds]) _ msg
    · simp
  | relock c =>
    simp only [step]
    split
    · exact h.acquire_run_ne_error ‹_› (by simp [At.holds]) _ msg
    · simp
  | exitLock c =>
    simp only [step]
    split
    · exact h.acquire_run_ne_error ‹_› (by simp [At.holds]) _ msg
    · simp
  | exitZombie c =>
    simp only [step]
    split
    · exact h.acquire_run_ne_error ‹_› (by simp [At.holds, wait_lock]) _ msg
    · simp
  | exitRelease c =>
    simp only [step]
    split
    · exact h.release_run_ne_error ‹_› (by simp [At.holds]) _ msg
    · simp
  | wakeup c q ch =>
    simp only [step]
    split_ifs with hw
    · exact h.critical_ne_error (wakes_not_held hw)
        (fun t => ⟨by split_ifs <;> rfl, by split_ifs <;> rfl⟩) msg
    · simp
  | kill c q | allocproc c q | forkRun c q =>
    simp only [step]
    split
    · exact h.critical_ne_error (by simp [held_of_running ‹_›, At.holds])
        (fun t => ⟨by split_ifs <;> rfl, by split_ifs <;> rfl⟩) msg
    · simp
  | freeproc c q =>
    simp only [step]
    split
    · exact h.critical_ne_error (by simp [held_of_running ‹_›, At.holds])
        (fun t => ⟨by split_ifs <;> rfl, by split_ifs <;> rfl⟩) msg
    · exact h.critical_ne_error (by simp [held_of_running ‹_›, At.holds])
        (fun t => ⟨by split_ifs <;> rfl, by split_ifs <;> rfl⟩) msg
    · simp

end Consequences

/-! ## Exclusive scheduling and the hand-off of `p->lock` -/

/-- What `scheduler`, `sched` and the spinlocks guarantee in every state
that an interleaving reaches. -/
structure Handoff (s : Sys) : Prop where
  /-- At most one CPU has `c->proc == p`. -/
  proc_unique : ∀ c c' p, (s.cpu c).proc = some p → (s.cpu c').proc = some p → c = c'
  /-- While `p->lock` is free, `p->state == RUNNING` exactly when some CPU
  has `c->proc == p`. -/
  running_iff : ∀ p, s.holder (.proc p) = none → (s.state p = .RUNNING ↔ ∃ c, (s.cpu c).proc = some p)
  /-- A process calling `sched` holds `p->lock` and no other spinlock, so
  `noff == 1`; it is not `RUNNING`, and its CPU has interrupts off. -/
  at_sched : ∀ c p a k, s.running c = some (p, a) → a.resume = some k →
    (∀ x, s.holder x = some c ↔ x = .proc p) ∧ (s.cpu c).noff = 1 ∧ s.state p ≠ .RUNNING ∧
      (s.cpu c).intr = false
  /-- No step panics: not `sched`'s four checks, nor those of `acquire`,
  `release` and `pop_off`, nor `exit`'s. -/
  no_panic : ∀ e msg, step s e ≠ .error msg
  /-- A scheduler about to switch to `proc[i]` holds `proc[i].lock`. -/
  holds_lock : ∀ c i, (s.cpu c).sch = .holds i → s.holder (.proc i) = some c
  /-- A process switched in, at `forkret` or back from `sched`, finds its own
  lock held by its CPU: the lock its `release` gives back. -/
  resumed_lock : ∀ c p a, s.running c = some (p, a) → (a = .forkret ∨ ∃ k, a = .resumed k) →
    s.holder (.proc p) = some c
  /-- A scheduler back from `swtch` has as `c->proc` the process that switched
  to it, and holds that process's lock, which it releases. -/
  back_lock : ∀ c i, (s.cpu c).sch = .back i → (s.cpu c).proc = some i ∧ s.holder (.proc i) = some c

theorem sched_lock_handoff {s : Sys} (hr : Reachable s) : Handoff s := by
  have h := hr.inv
  refine ⟨h.proc, fun p hp => h.running_iff hp, fun c p a k hrun hk => h.at_sched hrun hk, h.no_panic,
    fun c i hi => (h.holder _ c).mpr (by simp [Sys.held, hi]), fun c p a hrun ha => ?_,
    fun c i hi => ⟨?_, (h.holder _ c).mpr (by simp [Sys.held, hi])⟩⟩
  · rw [h.holder, held_of_running hrun]
    rcases ha with rfl | ⟨k, rfl⟩ <;> simp [At.holds]
  · have hs := h.sch c
    simp only [SchOk, hi] at hs
    exact hs.1

/-- CPU `0` takes the first process's lock, switches to it in `forkret`,
which releases the lock; the process yields and switches back, and the
scheduler releases the lock again. -/
def handoffRun : List Event :=
  [.schedAcquire cpu0 initSlot, .schedPick cpu0, .resume cpu0, .yield cpu0, .sched cpu0, .schedBack cpu0]

def handoffState : Sys := (steps init handoffRun).getD init

theorem reachable_handoffState : Reachable handoffState :=
  Reachable.init.of_steps handoffRun rfl

theorem sched_lock_handoff_handoffState : Handoff handoffState :=
  sched_lock_handoff reachable_handoffState

end Xv6.Sched
