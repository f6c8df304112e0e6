import Xv6.Proc

/-!
# Sleep and wakeup (`proc.c`)

The protocol of a condition `cond` guarded by a spinlock `lk`, with channel
`chan`, as the pipe, the log, `wait`, the sleep-locks and the drivers use it.
A sleeper runs

    acquire(lk); while(!cond) sleep(chan, lk); ...; release(lk)

and a waker runs

    acquire(lk); cond = 1; wakeup(chan); release(lk)

Each process is at a program counter `Pc`, and each step is one line of the
source or one critical section of a spinlock that the line takes and gives
back. `sleep` is its five steps in the source's order: `acquire(&p->lock)`,
`release(lk)`, `p->chan = chan`, `p->state = SLEEPING` and `sched()`, whose
scheduler gives `p->lock` back; once the process is `RUNNABLE` a scheduler
takes `p->lock` again and runs it, and it sets `p->chan = 0`, releases
`p->lock` and takes `lk` again. `wakeup`'s loop is one step per slot: the
slot's lock is taken, the slot tested and set, and the lock given back. The
scheduler's visits to a slot that is not `RUNNABLE` change nothing and are
left out; every process may run on its own CPU.

Ghost fields number the times a waker makes `cond` true (`sets`), and record
the number at which `cond` last became true (`since`), at which each waker
began its `wakeup` (`start`), and at which every completed `wakeup` began
(`done`). `no_lost_wakeup` states that once a `wakeup` begun after `cond`
became true has completed, no process sleeps on `chan` while `cond` holds.
-/

namespace Xv6.Sleep

/-- Where a process is in the protocol. -/
inductive Pc
  /-- A process that takes no part. -/
  | idle
  /-- Sleeper: `acquire(lk)`. -/
  | acquire
  /-- Sleeper: the test of `while(!cond)`. -/
  | test
  /-- In `sleep`: `acquire(&p->lock)`. -/
  | lockSelf
  /-- In `sleep`: `release(lk)`. -/
  | releaseLk
  /-- In `sleep`: `p->chan = chan`. -/
  | setChan
  /-- In `sleep`: `p->state = SLEEPING`. -/
  | setState
  /-- In `sleep`: `sched()`; the scheduler gives `p->lock` back. -/
  | sched
  /-- Switched out; a scheduler runs the process once it is `RUNNABLE`. -/
  | switched
  /-- In `sleep`, running again: `p->chan = 0`. -/
  | tidy
  /-- In `sleep`: `release(&p->lock)`, then `acquire(lk)` again. -/
  | unlockSelf
  /-- Sleeper: out of the loop, `cond` true and `lk` held. -/
  | awake
  /-- Waker: `acquire(lk)`. -/
  | wAcquire
  /-- Waker: `cond` made true. -/
  | wSet
  /-- Waker: `wakeup(chan)`'s loop at `proc[i]`. -/
  | wScan (i : Nat)
  /-- Waker: `release(lk)`. -/
  | wRelease
  deriving DecidableEq

namespace Pc

/-- The process holds `lk`. -/
def holdsLk : Pc → Bool
  | test | lockSelf | releaseLk | awake | wSet | wScan _ | wRelease => true
  | _ => false

/-- The process holds its own `p->lock`. -/
def holdsSelf : Pc → Bool
  | releaseLk | setChan | setState | sched | tidy | unlockSelf => true
  | _ => false

/-- Between `release(lk)` and the scheduler's release of `p->lock`: the
process is going to sleep, and no `wakeup` can look at it. -/
def falling : Pc → Bool
  | setChan | setState | sched => true
  | _ => false

/-- The holder of `lk` has seen `cond` true, or made it true. -/
def ready : Pc → Bool
  | awake | wScan _ | wRelease => true
  | _ => false

theorem holdsSelf_of_falling {x : Pc} (h : x.falling = true) : x.holdsSelf = true := by
  cases x <;> simp_all [falling, holdsSelf]

end Pc

/-- The protocol's state: the process table, each process's place, the
locks and `cond`, and the ghost record of `cond` and of the `wakeup`s. -/
structure Sys where
  table : Ptable
  pc : Slot → Pc
  /-- The holder of `lk`. -/
  lk : Option Slot
  /-- `p->lock` is held. -/
  plock : Slot → Bool
  cond : Bool
  /-- How many times a waker has made `cond` true. -/
  sets : Nat
  /-- The value of `sets` when `cond` last turned from false to true. -/
  since : Nat
  /-- The value of `sets` when each waker began its `wakeup`. -/
  start : Slot → Nat
  /-- When each completed `wakeup` began. -/
  done : List Nat

/-- What a process does next. -/
inductive Event
  /-- Process `p` runs its next line. -/
  | run (p : Slot)
  /-- A sleeper out of the loop finishes its critical section, leaving `cond`
  as `v`, and releases `lk`. -/
  | leave (p : Slot) (v : Bool)

section Step

variable (chan : Nat)

/-- One line of process `p`. A `release` of a lock the process does not hold
panics and makes no step. -/
def run (s : Sys) (p : Slot) : Option Sys :=
  match s.pc p with
  | .idle => none
  | .acquire =>
    if s.lk = none then some { s with lk := some p, pc := Function.update s.pc p .test } else none
  | .test => some { s with pc := Function.update s.pc p (if s.cond then .awake else .lockSelf) }
  | .lockSelf =>
    if s.plock p then none
    else some { s with plock := Function.update s.plock p true, pc := Function.update s.pc p .releaseLk }
  | .releaseLk =>
    if s.lk = some p then some { s with lk := none, pc := Function.update s.pc p .setChan } else none
  | .setChan =>
    some { s with
      table := s.table.set p { s.table.proc p with chan := chan }, pc := Function.update s.pc p .setState }
  | .setState =>
    some { s with
      table := s.table.set p { s.table.proc p with state := .SLEEPING }, pc := Function.update s.pc p .sched }
  | .sched =>
    some { s with plock := Function.update s.plock p false, pc := Function.update s.pc p .switched }
  | .switched =>
    if !s.plock p ∧ (s.table.proc p).state = .RUNNABLE then
      some { s with
        plock := Function.update s.plock p true,
        table := s.table.set p { s.table.proc p with state := .RUNNING },
        pc := Function.update s.pc p .tidy }
    else none
  | .tidy =>
    some { s with
      table := s.table.set p { s.table.proc p with chan := 0 }, pc := Function.update s.pc p .unlockSelf }
  | .unlockSelf =>
    some { s with plock := Function.update s.plock p false, pc := Function.update s.pc p .acquire }
  | .awake => none
  | .wAcquire =>
    if s.lk = none then some { s with lk := some p, pc := Function.update s.pc p .wSet } else none
  | .wSet =>
    some { s with
      cond := true, sets := s.sets + 1, since := if s.cond then s.since else s.sets + 1,
      start := Function.update s.start p (s.sets + 1), pc := Function.update s.pc p (.wScan 0) }
  | .wScan i =>
    if h : i < NPROC then
      -- `if(p != myproc())`: the caller's own slot is skipped without its lock
      if (⟨i, h⟩ : Slot) = p then some { s with pc := Function.update s.pc p (.wScan (i + 1)) }
      else if s.plock ⟨i, h⟩ then none
      else some { s with
        table := wakeupOne s.table p chan ⟨i, h⟩, pc := Function.update s.pc p (.wScan (i + 1)) }
    else some { s with done := s.start p :: s.done, pc := Function.update s.pc p .wRelease }
  | .wRelease =>
    if s.lk = some p then some { s with lk := none, pc := Function.update s.pc p .wAcquire } else none

/-- One step of the protocol. -/
def step (s : Sys) : Event → Option Sys
  | .run p => run chan s p
  | .leave p v =>
    match s.pc p with
    | .awake =>
      if s.lk = some p then
        some { s with cond := v, lk := none, pc := Function.update s.pc p .acquire }
      else none
    | _ => none

/-- A start: every process takes no part, or is running at the top of the
sleeper's or the waker's code; no lock is held. -/
def init (pc : Slot → Pc) (t : Ptable) (cond : Bool) : Sys :=
  ⟨t, pc, none, fun _ => false, cond, 0, 0, fun _ => 0, []⟩

/-- The processes of a start that take part are running. -/
def Start (pc : Slot → Pc) (t : Ptable) : Prop :=
  ∀ p, pc p = .idle ∨ ((pc p = .acquire ∨ pc p = .wAcquire) ∧ (t.proc p).state = .RUNNING)

/-- The states that some interleaving reaches from a start. -/
inductive Reachable : Sys → Prop
  | init {pc : Slot → Pc} {t : Ptable} (cond : Bool) : Start pc t → Reachable (init pc t cond)
  | step {s s' : Sys} (e : Event) : Reachable s → step chan s e = some s' → Reachable s'

/-- Run the events in order: `none` at the first one that cannot be taken. -/
def runAll (s : Sys) : List Event → Option Sys
  | [] => some s
  | e :: es => (step chan s e).bind (runAll · es)

end Step

variable {chan} in
theorem Reachable.runAll {s s' : Sys} (h : Reachable chan s) {es : List Event}
    (hr : runAll chan s es = some s') : Reachable chan s' := by
  induction es generalizing s with
  | nil =>
    simp only [Sleep.runAll, Option.some.injEq] at hr
    exact hr ▸ h
  | cons e es ih =>
    simp only [Sleep.runAll, Option.bind_eq_some_iff] at hr
    obtain ⟨s₁, hs₁, hr⟩ := hr
    exact ih (.step e h hs₁) hr

/-! ## The invariant -/

section Invariant

variable {chan : Nat}

namespace Pc

end Pc

/-- What each place in the code says of the process's table entry: a
process sleeps on `chan` only from `p->state = SLEEPING` until a `wakeup`
makes it `RUNNABLE` and a scheduler runs it. -/
def Shape (chan : Nat) : Pc → Proc → Prop
  | .idle, _ => True
  | .setState, x => x.state = .RUNNING ∧ x.chan = chan
  | .sched, x => x.state = .SLEEPING ∧ x.chan = chan
  | .switched, x => (x.state = .SLEEPING ∧ x.chan = chan) ∨ x.state = .RUNNABLE
  | _, x => x.state = .RUNNING

theorem Shape.asleep {x : Pc} {y : Proc} (h : Shape chan x y) (hs : y.state = .SLEEPING)
    (hc : y.chan = chan) : x = .sched ∨ x = .switched ∨ x = .idle := by
  cases x <;> simp_all [Shape]

/-- Process `j` neither sleeps on `chan` nor is going to. -/
def Quiet (chan : Nat) (s : Sys) (j : Slot) : Prop :=
  ¬((s.table.proc j).state = .SLEEPING ∧ (s.table.proc j).chan = chan) ∧ (s.pc j).falling = false

/-- What holds of every reachable state. -/
structure Inv (chan : Nat) (s : Sys) : Prop where
  plock : ∀ p, s.plock p = (s.pc p).holdsSelf
  shape : ∀ p, Shape chan (s.pc p) (s.table.proc p)
  lk : ∀ p, (s.pc p).holdsLk = true ↔ s.lk = some p
  /-- A sleeper in `sleep` that still holds `lk` saw `cond` false. -/
  cond_false : ∀ p, s.pc p = .lockSelf ∨ s.pc p = .releaseLk → s.cond = false
  cond_true : ∀ p, (s.pc p).ready = true → s.cond = true
  /-- A `wakeup` begun after `cond` became true has passed only processes
  that neither sleep on `chan` nor are going to. -/
  scan : ∀ w i, s.pc w = .wScan i →
    i ≤ NPROC ∧ s.since ≤ s.start w ∧ ∀ j : Slot, j.val < i → j ≠ w → Quiet chan s j
  since_le : s.since ≤ s.sets
  start_le : ∀ w, s.start w ≤ s.sets
  done_le : ∀ st ∈ s.done, st ≤ s.sets
  woken : s.cond = true → (∃ st ∈ s.done, s.since ≤ st) → ∀ p, Quiet chan s p

theorem inv_init {pc : Slot → Pc} {t : Ptable} (cond : Bool) (h : Start pc t) :
    Inv chan (init pc t cond) := by
  have hpc : ∀ p, pc p = .idle ∨ pc p = .acquire ∨ pc p = .wAcquire := by
    intro p; rcases h p with hp | ⟨hp | hp, -⟩ <;> simp [hp]
  refine ⟨fun p => ?_, fun p => ?_, fun p => ?_, fun p hp => ?_, fun p hp => ?_, fun w i hw => ?_,
    Nat.le_refl 0, fun _ => Nat.le_refl 0, by simp [init], by simp [init]⟩
  all_goals simp only [init] at *
  · rcases hpc p with hp | hp | hp <;> simp [hp, Pc.holdsSelf]
  · rcases h p with hp | ⟨hp | hp, hr⟩
    · simp [hp, Shape]
    all_goals simp [hp, Shape, hr]
  · rcases hpc p with hp | hp | hp <;> simp [hp, Pc.holdsLk]
  · rcases hpc p with h1 | h1 | h1 <;> simp [h1] at hp
  · rcases hpc p with h1 | h1 | h1 <;> simp [h1, Pc.ready] at hp
  · rcases hpc w with h1 | h1 | h1 <;> simp [h1] at hw

theorem Inv.holder_eq {s : Sys} (h : Inv chan s) {p q : Slot} (hp : (s.pc p).holdsLk = true)
    (hq : (s.pc q).holdsLk = true) : q = p := by
  have h1 := (h.lk p).mp hp
  have h2 := (h.lk q).mp hq
  rw [h1] at h2
  exact (Option.some.inj h2).symm

theorem quiet_of_eq {s s' : Sys} {j : Slot} (hpc : s'.pc j = s.pc j)
    (hproc : s'.table.proc j = s.table.proc j) (hq : Quiet chan s j) : Quiet chan s' j := by
  simpa [Quiet, hpc, hproc] using hq

/-- A step of process `p` that takes or gives no lock but its own, leaves
`cond` and the ghost record alone, and keeps `p` quiet if it was, keeps the
invariant. -/
theorem Inv.move {s s' : Sys} (h : Inv chan s) (p : Slot)
    (hpc : ∀ q, q ≠ p → s'.pc q = s.pc q) (hproc : ∀ q, q ≠ p → s'.table.proc q = s.table.proc q)
    (hpl : ∀ q, q ≠ p → s'.plock q = s.plock q) (hlk : s'.lk = s.lk) (hcond : s'.cond = s.cond)
    (hsets : s'.sets = s.sets) (hsince : s'.since = s.since) (hstart : s'.start = s.start)
    (hdone : s'.done = s.done)
    (hb : s'.plock p = (s'.pc p).holdsSelf) (hy : Shape chan (s'.pc p) (s'.table.proc p))
    (hholds : (s'.pc p).holdsLk = (s.pc p).holdsLk)
    (hfalse : s'.pc p = .lockSelf ∨ s'.pc p = .releaseLk → s.cond = false)
    (htrue : (s'.pc p).ready = true → s.cond = true)
    (hscan : ∀ i, s'.pc p ≠ .wScan i) (hscan' : ∀ i, s.pc p ≠ .wScan i)
    (hquiet : Quiet chan s p → Quiet chan s' p) : Inv chan s' := by
  have hQ : ∀ q, Quiet chan s q → Quiet chan s' q := by
    intro q hq
    by_cases hqp : q = p
    · subst hqp; exact hquiet hq
    · exact quiet_of_eq (hpc q hqp) (hproc q hqp) hq
  refine ⟨fun q => ?_, fun q => ?_, fun q => ?_, fun q hq => ?_, fun q hq => ?_, fun w i hw => ?_,
    hsets ▸ hsince ▸ h.since_le, fun w => hsets ▸ hstart ▸ h.start_le w,
    fun st hst => hsets ▸ h.done_le st (hdone ▸ hst), fun hc hst q => ?_⟩
  · by_cases hqp : q = p
    · subst hqp; exact hb
    · rw [hpl q hqp, hpc q hqp]; exact h.plock q
  · by_cases hqp : q = p
    · subst hqp; exact hy
    · rw [hpc q hqp, hproc q hqp]; exact h.shape q
  · by_cases hqp : q = p
    · subst hqp; rw [hholds, hlk]; exact h.lk q
    · rw [hpc q hqp, hlk]; exact h.lk q
  · rw [hcond]
    by_cases hqp : q = p
    · subst hqp; exact hfalse hq
    · exact h.cond_false q (by rwa [hpc q hqp] at hq)
  · rw [hcond]
    by_cases hqp : q = p
    · subst hqp; exact htrue hq
    · exact h.cond_true q (by rwa [hpc q hqp] at hq)
  · have hwp : w ≠ p := by rintro rfl; exact hscan i hw
    obtain ⟨hi, hst, hq⟩ := h.scan w i (by rwa [hpc w hwp] at hw)
    exact ⟨hi, by rw [hsince, hstart]; exact hst, fun j hj hjw => hQ j (hq j hj hjw)⟩
  · rw [hcond] at hc
    rw [hdone, hsince] at hst
    exact hQ q (h.woken hc hst q)

theorem Inv.not_holds {s : Sys} (h : Inv chan s) {p q : Slot} (hlk : s.lk = none ∨ s.lk = some p)
    (hqp : q ≠ p) : (s.pc q).holdsLk = false := by
  cases hq : (s.pc q).holdsLk
  · rfl
  · have := (h.lk q).mp hq
    rcases hlk with hl | hl <;> rw [hl] at this
    · cases this
    · exact absurd (Option.some.inj this).symm hqp

theorem Pc.not_holdsLk {x : Pc} (h : x.holdsLk = false) :
    (∀ i, x ≠ .wScan i) ∧ x ≠ .lockSelf ∧ x ≠ .releaseLk ∧ x.ready = false := by
  cases x <;> simp_all [holdsLk, ready]

/-- `acquire(lk)` by a sleeper or a waker keeps the invariant. -/
theorem Inv.take {s : Sys} (h : Inv chan s) {p : Slot} {x : Pc} (hfree : s.lk = none)
    (hp : s.pc p = .acquire ∨ s.pc p = .wAcquire) (hx : x = .test ∨ x = .wSet) :
    Inv chan { s with lk := some p, pc := Function.update s.pc p x } := by
  have hother : ∀ q, q ≠ p → (s.pc q).holdsLk = false := fun q => h.not_holds (.inl hfree)
  have hxlk : x.holdsLk = true := by rcases hx with rfl | rfl <;> rfl
  have hnx := fun i => (show x ≠ .wScan i by rcases hx with rfl | rfl <;> simp)
  have hrun : (s.table.proc p).state = .RUNNING := by
    have := h.shape p; rcases hp with hp | hp <;> simpa [hp, Shape] using this
  refine ⟨fun q => ?_, fun q => ?_, fun q => ?_, fun q hq => ?_, fun q hq => ?_, fun w i hw => ?_,
    h.since_le, h.start_le, h.done_le, fun hc hst q => ?_⟩
  all_goals simp only at *
  · by_cases hqp : q = p
    · subst hqp; rw [h.plock q]; rcases hp with hp | hp <;> rcases hx with rfl | rfl <;> simp [hp, Pc.holdsSelf]
    · simpa [hqp] using h.plock q
  · by_cases hqp : q = p
    · subst hqp; rcases hx with rfl | rfl <;> simp [Shape, hrun]
    · simpa [hqp] using h.shape q
  · by_cases hqp : q = p
    · subst hqp; simp [hxlk]
    · simp [hqp, hother q hqp, Ne.symm hqp]
  · by_cases hqp : q = p
    · subst hqp; rcases hx with rfl | rfl <;> simp at hq
    · have := (Pc.not_holdsLk (hother q hqp)).2.1
      have := (Pc.not_holdsLk (hother q hqp)).2.2.1
      simp [hqp] at hq; tauto
  · by_cases hqp : q = p
    · subst hqp; rcases hx with rfl | rfl <;> simp [Pc.ready] at hq
    · simp [hqp, (Pc.not_holdsLk (hother q hqp)).2.2.2] at hq
  · by_cases hwp : w = p
    · subst hwp; simp at hw; exact absurd hw (hnx i)
    · simp [hwp] at hw; exact absurd hw ((Pc.not_holdsLk (hother w hwp)).1 i)
  · have hq := h.woken hc hst q
    by_cases hqp : q = p
    · subst hqp
      refine ⟨hq.1, ?_⟩
      simp only [Function.update_self]; rcases hx with rfl | rfl <;> rfl
    · exact quiet_of_eq (s := s) (by simp [hqp]) rfl hq

/-- A `release(lk)` by its holder, leaving `cond` as `v`, keeps the invariant
when `v` only keeps `cond` true and `p` stays quiet while `cond` is. -/
theorem Inv.drop {s : Sys} (h : Inv chan s) {p : Slot} {x : Pc} {v : Bool} (hp : s.lk = some p)
    (hx : x.holdsLk = false) (hself : x.holdsSelf = (s.pc p).holdsSelf)
    (hshape : Shape chan x (s.table.proc p)) (hv : v = true → s.cond = true)
    (hquiet : v = true → Quiet chan s p → x.falling = false) :
    Inv chan { s with cond := v, lk := none, pc := Function.update s.pc p x } := by
  have hother : ∀ q, q ≠ p → (s.pc q).holdsLk = false := fun q => h.not_holds (.inr hp)
  have hnx := Pc.not_holdsLk hx
  refine ⟨fun q => ?_, fun q => ?_, fun q => ?_, fun q hq => ?_, fun q hq => ?_, fun w i hw => ?_,
    h.since_le, h.start_le, h.done_le, fun hc hst q => ?_⟩
  all_goals simp only at *
  · by_cases hqp : q = p
    · subst hqp; simp [hself, h.plock q]
    · simpa [hqp] using h.plock q
  · by_cases hqp : q = p
    · subst hqp; simpa using hshape
    · simpa [hqp] using h.shape q
  · by_cases hqp : q = p
    · subst hqp; simp [hx]
    · simp [hqp, hother q hqp]
  · by_cases hqp : q = p
    · subst hqp; simp at hq; tauto
    · have := Pc.not_holdsLk (hother q hqp)
      simp [hqp] at hq; tauto
  · by_cases hqp : q = p
    · subst hqp; simp [hnx.2.2.2] at hq
    · simp [hqp, (Pc.not_holdsLk (hother q hqp)).2.2.2] at hq
  · by_cases hwp : w = p
    · subst hwp; simp at hw; exact absurd hw (hnx.1 i)
    · simp [hwp] at hw; exact absurd hw ((Pc.not_holdsLk (hother w hwp)).1 i)
  · have hq := h.woken (hv hc) hst q
    by_cases hqp : q = p
    · subst hqp
      exact ⟨hq.1, by simpa using hquiet hc hq⟩
    · exact quiet_of_eq (s := s) (by simp [hqp]) rfl hq

theorem Shape.woken {x : Pc} {y : Proc} (h : Shape chan x y) (hx : x.holdsSelf = false) :
    Shape chan x (y.woken false chan) := by
  unfold Proc.woken
  split_ifs with hy
  · simp only [Bool.not_false, true_and] at hy
    rcases h.asleep hy.1 hy.2 with rfl | rfl | rfl
    · simp [Pc.holdsSelf] at hx
    · simp [Shape]
    · simp [Shape]
  · exact h

/-- A step of the holder of `lk` that keeps it, moves only itself, to a place
where it holds neither `p->lock` nor sees `cond` false, leaves the locks
right, and no other process in `sleep` with `lk` or in `wakeup`. -/
theorem Inv.holder_step {s : Sys} (h : Inv chan s) (s' : Sys) {p : Slot} {x : Pc}
    (hp : (s.pc p).holdsLk = true) (hx : x.holdsLk = true) (hxs : x.holdsSelf = (s.pc p).holdsSelf)
    (hxl : x ≠ .lockSelf ∧ x ≠ .releaseLk)
    (hpc : s'.pc = Function.update s.pc p x) (hpl : s'.plock = s.plock) (hlk : s'.lk = s.lk) :
    (∀ q, s'.plock q = (s'.pc q).holdsSelf) ∧ (∀ q, (s'.pc q).holdsLk = true ↔ s'.lk = some q) ∧
      (∀ q, s'.pc q = .lockSelf ∨ s'.pc q = .releaseLk → s'.cond = false) ∧
      (∀ w i, s'.pc w = .wScan i → w = p) := by
  have hother : ∀ q, q ≠ p → (s.pc q).holdsLk = false := fun q => h.not_holds (.inr ((h.lk p).mp hp))
  refine ⟨fun q => ?_, fun q => ?_, fun q hq => ?_, fun w i hw => ?_⟩
  · rw [hpl, hpc]
    by_cases hqp : q = p
    · subst hqp; rw [Function.update_self, hxs]; exact h.plock q
    · rw [Function.update_of_ne hqp]; exact h.plock q
  · rw [hlk, hpc]
    by_cases hqp : q = p
    · subst hqp; rw [Function.update_self, hx]; exact ⟨fun _ => (h.lk q).mp hp, fun _ => rfl⟩
    · rw [Function.update_of_ne hqp]; exact h.lk q
  · rw [hpc] at hq
    by_cases hqp : q = p
    · subst hqp; rw [Function.update_self] at hq; exact absurd hq (by tauto)
    · rw [Function.update_of_ne hqp] at hq
      have := Pc.not_holdsLk (hother q hqp)
      tauto
  · rw [hpc] at hw
    by_cases hwp : w = p
    · exact hwp
    · rw [Function.update_of_ne hwp] at hw; exact absurd hw ((Pc.not_holdsLk (hother w hwp)).1 i)

/-- Making `cond` true keeps the invariant: a new `wakeup` begins. -/
theorem Inv.set {s : Sys} (h : Inv chan s) {p : Slot} (hp : s.pc p = .wSet) :
    Inv chan { s with
      cond := true, sets := s.sets + 1, since := if s.cond then s.since else s.sets + 1,
      start := Function.update s.start p (s.sets + 1), pc := Function.update s.pc p (.wScan 0) } := by
  obtain ⟨hpl, hlk, hcf, hwk⟩ := h.holder_step { s with
      cond := true, sets := s.sets + 1, since := if s.cond then s.since else s.sets + 1,
      start := Function.update s.start p (s.sets + 1), pc := Function.update s.pc p (.wScan 0) }
    (by simp [hp, Pc.holdsLk]) rfl (by simp [hp, Pc.holdsSelf]) ⟨by simp, by simp⟩ rfl rfl rfl
  have hrun : (s.table.proc p).state = .RUNNING := by simpa [hp, Shape] using h.shape p
  refine ⟨hpl, fun q => ?_, hlk, hcf, fun q _ => rfl, fun w i hw => ?_, ?_, fun w => ?_,
    fun st hst => ?_, fun _ hst q => ?_⟩
  all_goals simp only at *
  · by_cases hqp : q = p
    · subst hqp; simp [Shape, hrun]
    · simpa [hqp] using h.shape q
  · obtain rfl := hwk w i hw
    simp only [Function.update_self, Pc.wScan.injEq] at hw
    subst hw
    refine ⟨Nat.zero_le _, ?_, fun j hj => absurd hj (Nat.not_lt_zero _)⟩
    simp only [Function.update_self]; split_ifs <;> have := h.since_le <;> omega
  · split_ifs <;> have := h.since_le <;> omega
  · by_cases hwp : w = p
    · subst hwp; simp
    · simp only [hwp, ne_eq, not_false_eq_true, Function.update_of_ne]; have := h.start_le w; omega
  · have := h.done_le st hst; omega
  · obtain ⟨st, hst, hle⟩ := hst
    -- a `wakeup` completed since `cond` became true only if it already was
    cases hc : s.cond
    · have := h.done_le st hst; simp [hc] at hle; omega
    · have hq := h.woken hc ⟨st, hst, by simpa [hc] using hle⟩ q
      by_cases hqp : q = p
      · subst hqp; exact ⟨hq.1, by simp [Pc.falling]⟩
      · exact quiet_of_eq (s := s) (by simp [hqp]) rfl hq

/-- `wakeup` passing its caller's own slot keeps the invariant. -/
theorem Inv.scan_self {s : Sys} (h : Inv chan s) {p : Slot} {i : Nat} (hp : s.pc p = .wScan i)
    (hi : i < NPROC) (hself : (⟨i, hi⟩ : Slot) = p) :
    Inv chan { s with pc := Function.update s.pc p (.wScan (i + 1)) } := by
  obtain ⟨hpl, hlk, hcf, hwk⟩ := h.holder_step { s with pc := Function.update s.pc p (.wScan (i + 1)) }
    (by simp [hp, Pc.holdsLk]) rfl (by simp [hp, Pc.holdsSelf]) ⟨by simp, by simp⟩ rfl rfl rfl
  have hc : s.cond = true := h.cond_true p (by simp [hp, Pc.ready])
  refine ⟨hpl, fun q => ?_, hlk, hcf, fun q _ => hc, fun w i' hw => ?_, h.since_le, h.start_le,
    h.done_le, fun hc' hst q => ?_⟩
  all_goals simp only at *
  · by_cases hqp : q = p
    · subst hqp; simpa [hp, Shape] using h.shape q
    · simpa [hqp] using h.shape q
  · obtain rfl := hwk w i' hw
    simp only [Function.update_self, Pc.wScan.injEq] at hw
    subst hw
    obtain ⟨-, hst, hq⟩ := h.scan w i hp
    refine ⟨hi, hst, fun j hj hjw => ?_⟩
    -- the slot passed is the caller's own
    have hji : j.val < i := by
      have : j.val ≠ i := fun e => hjw (by rw [← hself]; exact Fin.ext e)
      omega
    exact quiet_of_eq (s := s) (by simp [hjw]) rfl (hq j hji hjw)
  · have hq := h.woken hc' hst q
    by_cases hqp : q = p
    · subst hqp; exact ⟨hq.1, by simp [Pc.falling]⟩
    · exact quiet_of_eq (s := s) (by simp [hqp]) rfl hq

/-- `wakeup` at another process's slot, whose lock it can take, keeps the
invariant: the process no longer sleeps on `chan`. -/
theorem Inv.scan_other {s : Sys} (h : Inv chan s) {p : Slot} {i : Nat} (hp : s.pc p = .wScan i)
    (hi : i < NPROC) (hne : (⟨i, hi⟩ : Slot) ≠ p) (hfree : s.plock ⟨i, hi⟩ = false) :
    Inv chan { s with
      table := wakeupOne s.table p chan ⟨i, hi⟩, pc := Function.update s.pc p (.wScan (i + 1)) } := by
  set j : Slot := ⟨i, hi⟩ with hj
  obtain ⟨hpl, hlk, hcf, hwk⟩ := h.holder_step { s with
      table := wakeupOne s.table p chan j, pc := Function.update s.pc p (.wScan (i + 1)) }
    (by simp [hp, Pc.holdsLk]) rfl (by simp [hp, Pc.holdsSelf]) ⟨by simp, by simp⟩ rfl rfl rfl
  have hc : s.cond = true := h.cond_true p (by simp [hp, Pc.ready])
  have hjp : j ≠ p := hne
  have htab : ∀ q, (wakeupOne s.table p chan j).proc q =
      if q = j then (s.table.proc q).woken false chan else s.table.proc q := by
    intro q
    rw [wakeupOne_proc]
    by_cases hqj : q = j
    · subst hqj; simp [hjp]
    · simp [hqj]
  have hjself : (s.pc j).holdsSelf = false := by rw [← h.plock j]; exact hfree
  -- the slot visited is quiet afterwards, and every other slot is as it was
  have hvisit : ∀ s' : Sys, s'.pc j = s.pc j → s'.table.proc j = (s.table.proc j).woken false chan →
      Quiet chan s' j := by
    intro s' hpc htj
    refine ⟨by rw [htj]; exact Proc.woken_awake _ _, ?_⟩
    rw [hpc]
    cases hf : (s.pc j).falling
    · rfl
    · simp [Pc.holdsSelf_of_falling hf] at hjself
  refine ⟨hpl, fun q => ?_, hlk, hcf, fun q _ => hc, fun w i' hw => ?_, h.since_le, h.start_le,
    h.done_le, fun hc' hst q => ?_⟩
  all_goals simp only at *
  · rw [htab]
    by_cases hqp : q = p
    · subst hqp; simpa [hp, Shape, Ne.symm hjp] using h.shape q
    · by_cases hqj : q = j
      · subst hqj; simpa [hjp] using (h.shape j).woken hjself
      · simpa [hqp, hqj] using h.shape q
  · obtain rfl := hwk w i' hw
    simp only [Function.update_self, Pc.wScan.injEq] at hw
    subst hw
    obtain ⟨-, hst, hq⟩ := h.scan w i hp
    refine ⟨hi, hst, fun k hk hkw => ?_⟩
    by_cases hkj : k = j
    · subst hkj; exact hvisit _ (by simp [hjp]) (by rw [htab]; simp)
    · have hki : k.val < i := by
        have : k.val ≠ i := fun e => hkj (Fin.ext e)
        omega
      exact quiet_of_eq (s := s) (by simp [hkw]) (by rw [htab]; simp [hkj]) (hq k hki hkw)
  · have hq := h.woken hc' hst q
    by_cases hqj : q = j
    · subst hqj; exact hvisit _ (by simp [hjp]) (by rw [htab]; simp)
    · by_cases hqp : q = p
      · subst hqp; exact ⟨by rw [htab]; simpa [hqj] using hq.1, by simp [Pc.falling]⟩
      · exact quiet_of_eq (s := s) (by simp [hqp]) (by rw [htab]; simp [hqj]) hq

/-- `wakeup` returning keeps the invariant: every process but the caller
has been passed, so none sleeps on `chan`. -/
theorem Inv.scan_done {s : Sys} (h : Inv chan s) {p : Slot} {i : Nat} (hp : s.pc p = .wScan i)
    (hi : ¬i < NPROC) :
    Inv chan { s with done := s.start p :: s.done, pc := Function.update s.pc p .wRelease } := by
  obtain ⟨hpl, hlk, hcf, hwk⟩ := h.holder_step
    { s with done := s.start p :: s.done, pc := Function.update s.pc p .wRelease }
    (by simp [hp, Pc.holdsLk]) rfl (by simp [hp, Pc.holdsSelf]) ⟨by simp, by simp⟩ rfl rfl rfl
  have hc : s.cond = true := h.cond_true p (by simp [hp, Pc.ready])
  obtain ⟨-, hst, hscan⟩ := h.scan p i hp
  have hrun : (s.table.proc p).state = .RUNNING := by simpa [hp, Shape] using h.shape p
  have hall : ∀ q, Quiet chan s q → Quiet chan
      { s with done := s.start p :: s.done, pc := Function.update s.pc p .wRelease } q := by
    intro q hq
    by_cases hqp : q = p
    · subst hqp; exact ⟨hq.1, by simp [Pc.falling]⟩
    · exact quiet_of_eq (s := s) (by simp [hqp]) rfl hq
  refine ⟨hpl, fun q => ?_, hlk, hcf, fun q _ => hc, fun w i' hw => ?_, h.since_le, h.start_le,
    fun st hst => ?_, fun hc' hst' q => ?_⟩
  all_goals simp only at *
  · by_cases hqp : q = p
    · subst hqp; simp [Shape, hrun]
    · simpa [hqp] using h.shape q
  · obtain rfl := hwk w i' hw
    simp at hw
  · rcases List.mem_cons.mp hst with rfl | hst
    · exact h.start_le p
    · exact h.done_le st hst
  · obtain ⟨st, hmem, hle⟩ := hst'
    rcases List.mem_cons.mp hmem with rfl | hmem
    · -- the `wakeup` just completed has passed every slot
      by_cases hqp : q = p
      · subst hqp; exact ⟨by simp [hrun], by simp [Pc.falling]⟩
      · exact quiet_of_eq (s := s) (by simp [hqp]) rfl (hscan q (by omega) hqp)
    · exact hall q (h.woken hc ⟨st, hmem, hle⟩ q)

/-- Every line of a process keeps the invariant. -/
theorem Inv.run {s s' : Sys} (h : Inv chan s) {p : Slot} (hs : Sleep.run chan s p = some s') :
    Inv chan s' := by
  have hsh := h.shape p
  have hpl := h.plock p
  unfold Sleep.run at hs
  split at hs
  · cases hs
  · next hp =>
    split at hs
    · next hfree => cases hs; exact h.take hfree (.inl hp) (.inl rfl)
    · cases hs
  · -- the loop's test: out of the loop with `cond` true, into `sleep` without
    next hp =>
    cases hs
    rw [hp] at hsh hpl
    refine h.move p (fun q hq => by simp [hq]) (fun _ _ => rfl) (fun _ _ => rfl) rfl rfl rfl rfl rfl
      rfl ?_ ?_ ?_ ?_ ?_ ?_ (by simp [hp]) ?_
    all_goals cases hc : s.cond <;> simp_all [Shape, Pc.holdsSelf, Pc.holdsLk, Pc.ready, Quiet, Pc.falling]
  · next hp =>
    split at hs
    · cases hs
    · next hfree =>
      cases hs
      rw [hp] at hsh
      refine h.move p (fun q hq => by simp [hq]) (fun _ _ => rfl) (fun q hq => by simp [hq]) rfl rfl rfl
        rfl rfl rfl (by simp [Pc.holdsSelf]) (by simpa [Shape] using hsh) (by simp [hp, Pc.holdsLk])
        (fun _ => h.cond_false p (.inl hp)) (by simp [Pc.ready]) (by simp) (by simp [hp]) ?_
      intro hq; exact ⟨hq.1, by simp [Pc.falling]⟩
  · next hp =>
    split at hs
    · next hlk =>
      cases hs
      rw [hp] at hsh hpl
      exact h.drop (v := s.cond) hlk (by simp [Pc.holdsLk]) (by simp [hp, Pc.holdsSelf])
        (by simpa [Shape] using hsh) id (fun hc => absurd hc (by simp [h.cond_false p (.inr hp)]))
    · cases hs
  · -- `p->chan = chan`
    next hp =>
    cases hs
    rw [hp] at hsh hpl
    refine h.move p (fun q hq => by simp [hq]) (fun q hq => by simp [Ptable.set_proc_ne _ _ hq])
      (fun _ _ => rfl) rfl rfl rfl rfl rfl rfl (by simpa [Pc.holdsSelf] using hpl) ?_
      (by simp [hp, Pc.holdsLk]) (by simp) (by simp [Pc.ready]) (by simp) (by simp [hp]) ?_
    · simp only [Function.update_self, Ptable.set_proc_self]; simpa [Shape] using hsh
    · intro hq; simp [Quiet, hp, Pc.falling] at hq
  · -- `p->state = SLEEPING`
    next hp =>
    cases hs
    rw [hp] at hsh hpl
    refine h.move p (fun q hq => by simp [hq]) (fun q hq => by simp [Ptable.set_proc_ne _ _ hq])
      (fun _ _ => rfl) rfl rfl rfl rfl rfl rfl (by simpa [Pc.holdsSelf] using hpl) ?_
      (by simp [hp, Pc.holdsLk]) (by simp) (by simp [Pc.ready]) (by simp) (by simp [hp]) ?_
    · simp only [Function.update_self, Ptable.set_proc_self]; simpa [Shape] using hsh.2
    · intro hq; simp [Quiet, hp, Pc.falling] at hq
  · -- `sched()`: the scheduler gives `p->lock` back
    next hp =>
    cases hs
    rw [hp] at hsh hpl
    refine h.move p (fun q hq => by simp [hq]) (fun _ _ => rfl) (fun q hq => by simp [hq]) rfl rfl rfl
      rfl rfl rfl (by simp [Pc.holdsSelf]) (by simpa [Shape] using Or.inl hsh) (by simp [hp, Pc.holdsLk])
      (by simp) (by simp [Pc.ready]) (by simp) (by simp [hp]) ?_
    intro hq; simp [Quiet, hp, Pc.falling] at hq
  · -- a scheduler runs the process again
    next hp =>
    split at hs
    · next hrun =>
      cases hs
      rw [hp] at hsh hpl
      refine h.move p (fun q hq => by simp [hq]) (fun q hq => by simp [Ptable.set_proc_ne _ _ hq])
        (fun q hq => by simp [hq]) rfl rfl rfl rfl rfl rfl (by simp [Pc.holdsSelf]) (by simp [Shape])
        (by simp [hp, Pc.holdsLk]) (by simp) (by simp [Pc.ready]) (by simp) (by simp [hp]) ?_
      intro _; simp [Quiet, Pc.falling]
    · cases hs
  · -- `p->chan = 0`
    next hp =>
    cases hs
    rw [hp] at hsh hpl
    refine h.move p (fun q hq => by simp [hq]) (fun q hq => by simp [Ptable.set_proc_ne _ _ hq])
      (fun _ _ => rfl) rfl rfl rfl rfl rfl rfl (by simpa [Pc.holdsSelf] using hpl) ?_
      (by simp [hp, Pc.holdsLk]) (by simp) (by simp [Pc.ready]) (by simp) (by simp [hp]) ?_
    · simp only [Function.update_self, Ptable.set_proc_self]; simpa [Shape] using hsh
    · intro _; simp [Quiet, Pc.falling, show (s.table.proc p).state = .RUNNING by simpa [Shape] using hsh]
  · -- `release(&p->lock)`
    next hp =>
    cases hs
    rw [hp] at hsh hpl
    refine h.move p (fun q hq => by simp [hq]) (fun _ _ => rfl) (fun q hq => by simp [hq]) rfl rfl rfl
      rfl rfl rfl (by simp [Pc.holdsSelf]) (by simpa [Shape] using hsh) (by simp [hp, Pc.holdsLk])
      (by simp) (by simp [Pc.ready]) (by simp) (by simp [hp]) ?_
    intro hq; exact ⟨hq.1, by simp [Pc.falling]⟩
  · cases hs
  · next hp =>
    split at hs
    · next hfree => cases hs; exact h.take hfree (.inr hp) (.inr rfl)
    · cases hs
  · next hp => cases hs; exact h.set hp
  · next i hp =>
    split at hs
    · next hi =>
      split at hs
      · next hself => cases hs; exact h.scan_self hp hi hself
      · next hne =>
        split at hs
        · cases hs
        · next hfree => cases hs; exact h.scan_other hp hi hne (by simpa using hfree)
    · next hi => cases hs; exact h.scan_done hp hi
  · next hp =>
    split at hs
    · next hlk =>
      cases hs
      rw [hp] at hsh hpl
      exact h.drop (v := s.cond) hlk (by simp [Pc.holdsLk]) (by simp [hp, Pc.holdsSelf])
        (by simpa [Shape] using hsh) id (fun _ _ => by simp [Pc.falling])
    · cases hs

theorem Inv.step {s s' : Sys} (h : Inv chan s) {e : Event} (hs : Sleep.step chan s e = some s') :
    Inv chan s' := by
  cases e with
  | run p => exact h.run hs
  | leave p v =>
    simp only [Sleep.step] at hs
    split at hs
    · next hp =>
      split at hs
      · next hlk =>
        cases hs
        have hsh := h.shape p
        rw [hp] at hsh
        have hc := h.cond_true p (by simp [hp, Pc.ready])
        exact h.drop hlk (by simp [Pc.holdsLk]) (by simp [hp, Pc.holdsSelf])
          (by simpa [Shape] using hsh) (fun _ => hc) (fun _ _ => by simp [Pc.falling])
      · cases hs
    · cases hs

theorem Reachable.inv {s : Sys} (hr : Reachable chan s) : Inv chan s := by
  induction hr with
  | init cond hstart => exact inv_init cond hstart
  | step e _ hs ih => exact ih.step hs

end Invariant

/-! ## No lost wakeup -/

section Guarantees

variable {chan : Nat}

/-- One step of `wakeup`'s loop changes at most the slot it visits, and that
only if the process there is not the caller and sleeps on `chan`: it becomes
`RUNNABLE`. -/
theorem scan_step_proc {s s' : Sys} {w : Slot} {i : Nat} (hw : s.pc w = .wScan i)
    (hs : step chan s (.run w) = some s') (j : Slot) :
    s'.table.proc j = s.table.proc j ∨
      (j ≠ w ∧ (s.table.proc j).state = .SLEEPING ∧ (s.table.proc j).chan = chan ∧
        s'.table.proc j = { s.table.proc j with state := .RUNNABLE }) := by
  simp only [step, run, hw] at hs
  split at hs
  · next hi =>
    split at hs
    · cases hs; exact .inl rfl
    · split at hs
      · cases hs
      · cases hs
        rw [wakeupOne_proc]
        split_ifs with hj
        · unfold Proc.woken
          split_ifs with hx
          · subst hj; simp only [Bool.not_eq_true', decide_eq_false_iff_not] at hx
            exact .inr ⟨hx.1, hx.2.1, hx.2.2, rfl⟩
          · exact .inl rfl
        · exact .inl rfl
  · cases hs; exact .inl rfl

theorem wakeup_proc_cases (t : Ptable) (self j : Slot) :
    (wakeup t self chan).proc j = t.proc j ∨
      (j ≠ self ∧ (t.proc j).state = .SLEEPING ∧ (t.proc j).chan = chan ∧
        (wakeup t self chan).proc j = { t.proc j with state := .RUNNABLE }) := by
  rw [wakeup_proc]
  unfold Proc.woken
  split_ifs with hx
  · simp only [Bool.not_eq_true', decide_eq_false_iff_not] at hx
    exact .inr ⟨hx.1, hx.2.1, hx.2.2, rfl⟩
  · exact .inl rfl

/-- Sleep and wakeup lose no wakeup: in a reachable state where `cond` holds
and a `wakeup(chan)` begun since `cond` became true has completed, no
process sleeps on `chan`. And `wakeup(chan)`, step by step in any interleaving
or as one call, changes only processes other than its caller that sleep on
`chan`, and those only to `RUNNABLE`. -/
theorem no_lost_wakeup {s : Sys} (hr : Reachable chan s) :
    (s.cond = true → (∃ st ∈ s.done, s.since ≤ st) →
      ∀ p, ¬((s.table.proc p).state = .SLEEPING ∧ (s.table.proc p).chan = chan)) ∧
    (∀ w i s', s.pc w = .wScan i → step chan s (.run w) = some s' → ∀ j,
      s'.table.proc j = s.table.proc j ∨
        (j ≠ w ∧ (s.table.proc j).state = .SLEEPING ∧ (s.table.proc j).chan = chan ∧
          s'.table.proc j = { s.table.proc j with state := .RUNNABLE })) ∧
    (∀ (t : Ptable) (self j : Slot),
      (wakeup t self chan).proc j = t.proc j ∨
        (j ≠ self ∧ (t.proc j).state = .SLEEPING ∧ (t.proc j).chan = chan ∧
          (wakeup t self chan).proc j = { t.proc j with state := .RUNNABLE })) :=
  ⟨fun hc hst p => (hr.inv.woken hc hst p).1, fun _ _ _ hw hs j => scan_step_proc hw hs j,
    wakeup_proc_cases⟩

/-- `proc[1]`. -/
def slot1 : Slot := ⟨1, Nat.succ_lt_succ (Nat.zero_lt_succ 62)⟩

/-- A start with a sleeper in slot `0` and a waker in slot `1`, `cond` false. -/
def sleepWake : Sys :=
  init (fun p => if p = initSlot then .acquire else if p = slot1 then .wAcquire else .idle)
    (procinit.set initSlot { Proc.zero with state := .RUNNING }
      |>.set slot1 { Proc.zero with state := .RUNNING }) false

theorem sleepWake_reachable : Reachable 5 sleepWake := by
  have h10 : slot1 ≠ initSlot := by decide
  refine .init false fun p => ?_
  by_cases h0 : p = initSlot
  · subst h0
    simp [Ptable.set, Function.update_of_ne h10.symm]
  · by_cases h1 : p = slot1
    · subst h1
      simp [Ptable.set, h10]
    · simp [h0, h1]

/-- The sleeper's `acquire`, its test of `cond` and the five steps of
`sleep`, up to `sched()`. -/
def sleepSteps : List Event := List.replicate 7 (.run initSlot)

/-- The waker's `acquire`, `cond = 1` and `wakeup`'s loop over all `NPROC`
slots. -/
def wakeSteps : List Event := List.replicate (NPROC + 3) (.run slot1)

/-- The sleeper goes to sleep on channel `5`, then the waker sets `cond` and
runs `wakeup(5)` to its end: the guarantee then finds no process asleep on
`5`. -/
theorem no_lost_wakeup_sleepWake :
    ∃ s₁ s : Sys, runAll 5 sleepWake sleepSteps = some s₁ ∧
      (s₁.table.proc initSlot).state = .SLEEPING ∧ (s₁.table.proc initSlot).chan = 5 ∧
      runAll 5 s₁ wakeSteps = some s ∧ s.cond = true ∧ (∃ st ∈ s.done, s.since ≤ st) ∧
      ∀ p, ¬((s.table.proc p).state = .SLEEPING ∧ (s.table.proc p).chan = 5) := by
  obtain ⟨s₁, hs₁⟩ := Option.isSome_iff_exists.mp
    (show (runAll 5 sleepWake sleepSteps).isSome by decide)
  have hasleep : (s₁.table.proc initSlot).state = .SLEEPING ∧
      (s₁.table.proc initSlot).chan = 5 := by
    have h : (runAll 5 sleepWake sleepSteps).map (fun s => decide ((s.table.proc initSlot).state =
        .SLEEPING ∧ (s.table.proc initSlot).chan = 5)) = some true := by decide
    simpa [hs₁] using h
  -- the waker's run, evaluated from the start
  have hnext : (runAll 5 sleepWake sleepSteps).bind (runAll 5 · wakeSteps) = runAll 5 s₁ wakeSteps := by
    rw [hs₁, Option.bind_some]
  obtain ⟨s, hs⟩ := Option.isSome_iff_exists.mp
    (show (runAll 5 s₁ wakeSteps).isSome by rw [← hnext]; decide)
  have hdone : s.cond = true ∧ ∃ st ∈ s.done, s.since ≤ st := by
    have h : ((runAll 5 sleepWake sleepSteps).bind (runAll 5 · wakeSteps)).map
        (fun s => decide (s.cond = true ∧ ∃ st ∈ s.done, s.since ≤ st)) = some true := by decide
    simpa [hnext, hs] using h
  have hr : Reachable 5 s := (sleepWake_reachable.runAll hs₁).runAll hs
  exact ⟨s₁, s, hs₁, hasleep.1, hasleep.2, hs, hdone.1, hdone.2,
    (no_lost_wakeup hr).1 hdone.1 hdone.2⟩

end Guarantees

end Xv6.Sleep
