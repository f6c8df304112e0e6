import Xv6.Param
import Mathlib.Data.List.FinRange

/-!
# The process table (`proc.c`)

`Ptable` is `proc[NPROC]` together with `nextpid` and `initproc`. Each
`struct proc` keeps the fields the table's code reads and writes: `state`,
`chan`, `killed`, `xstate`, `pid` and `parent`. A `struct proc *` is the
index of its slot. `pid`, `xstate` and `nextpid` are C `int`s, so they are
`Int32`s here and wrap.

The memory a process owns, its trapframe page and its page table, is not
modelled in this module. `allocproc` and `fork` take as an argument whether
their `kalloc`s succeed, and `freeproc` only resets the fields.

`kill(pid)` looks for the first slot holding `pid` and does not check the
slot's state. `freeproc` leaves an `UNUSED` slot with pid `0`, and
`allocproc` does not clear `killed`. So `kill(0)` marks a free slot, and
the next process handed that slot starts out killed
(`kill_zero_kills_next_child`).
-/

namespace Xv6

/-- `enum procstate`. -/
inductive Procstate
  | UNUSED | USED | SLEEPING | RUNNABLE | RUNNING | ZOMBIE
  deriving DecidableEq, Repr

/-- The fields of `struct proc` that the process table's code uses. -/
structure Proc where
  state : Procstate
  /-- If non-zero, sleeping on `chan`. -/
  chan : Nat
  /-- If set, the process has been killed. -/
  killed : Bool
  /-- Exit status to be returned to the parent's `wait`. -/
  xstate : Int32
  pid : Int32
  /-- Parent process; `none` is a null pointer. -/
  parent : Option (Fin NPROC)
  deriving DecidableEq

/-- A `struct proc *`: a slot of `proc[]`. -/
abbrev Slot := Fin NPROC

/-- `proc[NPROC]`, `nextpid` and `initproc`. -/
structure Ptable where
  proc : Slot → Proc
  nextpid : Int32
  initproc : Option Slot

namespace Ptable

/-- Slot `i` replaced by `p`. -/
def set (t : Ptable) (i : Slot) (p : Proc) : Ptable := { t with proc := Function.update t.proc i p }

@[simp] theorem set_proc_self (t : Ptable) (i : Slot) (p : Proc) : (t.set i p).proc i = p := by
  simp [set]

@[simp] theorem set_proc_ne (t : Ptable) {i j : Slot} (p : Proc) (h : j ≠ i) :
    (t.set i p).proc j = t.proc j := by
  simp [set, h]

@[simp] theorem set_nextpid (t : Ptable) (i : Slot) (p : Proc) : (t.set i p).nextpid = t.nextpid := rfl

@[simp] theorem set_initproc (t : Ptable) (i : Slot) (p : Proc) : (t.set i p).initproc = t.initproc := rfl

end Ptable

/-- A `struct proc` in static storage: all zero. -/
def Proc.zero : Proc := ⟨.UNUSED, 0, false, 0, 0, none⟩

/-- The table after `procinit()`: every slot `UNUSED`, the rest of static
storage zero, `nextpid = 1`. -/
def procinit : Ptable := ⟨fun _ => Proc.zero, 1, none⟩

/-- `allocpid()`. -/
def allocpid (t : Ptable) : Int32 × Ptable := (t.nextpid, { t with nextpid := t.nextpid + 1 })

/-- `freeproc(p)`: the fields reset and the slot `UNUSED`. -/
def freeproc (t : Ptable) (p : Slot) : Ptable :=
  t.set p { t.proc p with
    pid := 0, parent := none, chan := 0, killed := false, xstate := 0, state := .UNUSED }

/-- `allocproc()`: the first `UNUSED` slot, with a fresh pid and state
`USED`. `ok` says whether the trapframe page and the page table can be
allocated; when they cannot, the slot is freed again. -/
def allocproc (t : Ptable) (ok : Bool) : Option Slot × Ptable :=
  match (List.finRange NPROC).find? fun i => decide ((t.proc i).state = .UNUSED) with
  | none => (none, t)
  | some p =>
    let t' := (allocpid t).2.set p { t.proc p with pid := (allocpid t).1, state := .USED }
    if ok then (some p, t') else (none, freeproc t' p)

/-- `userinit()`: the first process, `RUNNABLE`. -/
def userinit (t : Ptable) : Option Ptable :=
  match allocproc t true with
  | (some p, t') => some ({ t' with initproc := some p }.set p { t'.proc p with state := .RUNNABLE })
  | (none, _) => none

/-- `fork()` by process `p`: the child's pid, or `-1`. `ok` says whether
`allocproc`'s pages can be allocated and `copyOk` whether `uvmcopy`
succeeds. -/
def fork (t : Ptable) (p : Slot) (ok copyOk : Bool) : Int32 × Ptable :=
  match allocproc t ok with
  | (none, t') => (-1, t')
  | (some np, t') =>
    if copyOk then
      ((t'.proc np).pid, t'.set np { t'.proc np with parent := some p, state := .RUNNABLE })
    else (-1, freeproc t' np)

/-- `kill(pid)`: the first slot whose `pid` matches is marked killed and, if
asleep, made `RUNNABLE`. -/
def kill (t : Ptable) (pid : Int32) : Int32 × Ptable :=
  match (List.finRange NPROC).find? fun i => decide ((t.proc i).pid = pid) with
  | none => (-1, t)
  | some p =>
    (0, t.set p { t.proc p with
      killed := true, state := if (t.proc p).state = .SLEEPING then .RUNNABLE else (t.proc p).state })

/-- The body of `wakeup(chan)`'s loop at slot `p`, called by `self`. -/
def wakeupOne (t : Ptable) (self : Slot) (chan : Nat) (p : Slot) : Ptable :=
  if p ≠ self then
    if (t.proc p).state = .SLEEPING ∧ (t.proc p).chan = chan then
      t.set p { t.proc p with state := .RUNNABLE }
    else t
  else t

/-- `wakeup(chan)` called by `self`: the loop over `proc[]` in order. -/
def wakeup (t : Ptable) (self : Slot) (chan : Nat) : Ptable :=
  (List.finRange NPROC).foldl (fun t p => wakeupOne t self chan p) t

/-! ## What `kill`, `allocproc` and `wakeup` do -/

theorem allocproc_killed {t t' : Ptable} {ok : Bool} {p : Slot} (h : allocproc t ok = (some p, t')) :
    (t'.proc p).killed = (t.proc p).killed := by
  unfold allocproc at h
  split at h
  · cases h
  · next q _ =>
    cases ok
    · cases h
    · simp only [if_true, Prod.mk.injEq, Option.some.injEq] at h
      obtain ⟨rfl, rfl⟩ := h
      simp [allocpid]

theorem allocproc_none_state {t t' : Ptable} {ok : Bool} (h : allocproc t ok = (none, t')) (q : Slot) :
    (t'.proc q).state = (t.proc q).state := by
  unfold allocproc at h
  split at h
  · cases h
    rfl
  · next p hp =>
    have hu : (t.proc p).state = .UNUSED := by simpa using List.find?_some hp
    cases ok
    · simp only [Bool.false_eq_true, if_false, Prod.mk.injEq, true_and] at h
      subst h
      by_cases hq : q = p
      · subst hq
        simp [freeproc, hu]
      · simp [freeproc, allocpid, hq]
    · simp at h

theorem allocproc_some_state {t t' : Ptable} {ok : Bool} {p : Slot} (h : allocproc t ok = (some p, t')) :
    (t.proc p).state = .UNUSED ∧ ∀ q, (t'.proc q).state = if q = p then .USED else (t.proc q).state := by
  unfold allocproc at h
  split at h
  · cases h
  · next p' hp =>
    have hu : (t.proc p').state = .UNUSED := by simpa using List.find?_some hp
    cases ok
    · simp at h
    · simp only [if_true, Prod.mk.injEq, Option.some.injEq] at h
      obtain ⟨rfl, rfl⟩ := h
      refine ⟨hu, fun q => ?_⟩
      by_cases hq : q = p' <;> simp [hq, allocpid]

theorem allocproc_fst_unused {t : Ptable} {ok : Bool} {p : Slot} (h : (allocproc t ok).1 = some p) :
    (t.proc p).state = .UNUSED :=
  (allocproc_some_state (show allocproc t ok = (some p, (allocproc t ok).2) from Prod.ext h rfl)).1

theorem fork_state (t : Ptable) (p : Slot) (ok copyOk : Bool) (q : Slot) :
    ((fork t p ok copyOk).2.proc q).state =
      if (allocproc t ok).1 = some q ∧ copyOk = true then .RUNNABLE else (t.proc q).state := by
  unfold fork
  rcases ha : allocproc t ok with ⟨_ | np, t'⟩
  · simp [allocproc_none_state ha]
  · obtain ⟨hu, hs⟩ := allocproc_some_state ha
    cases copyOk <;> by_cases hq : q = np
    · subst hq
      simp [freeproc, hu]
    · simp [freeproc, hs, hq, Ne.symm hq]
    · subst hq
      simp
    · simp [hs, hq, Ne.symm hq]

/-- What `wakeup` does to one slot: a process other than the caller that
sleeps on `chan` becomes `RUNNABLE`. -/
def Proc.woken (x : Proc) (isSelf : Bool) (chan : Nat) : Proc :=
  if !isSelf ∧ x.state = .SLEEPING ∧ x.chan = chan then { x with state := .RUNNABLE } else x

theorem Proc.woken_awake (x : Proc) (chan : Nat) :
    ¬((x.woken false chan).state = .SLEEPING ∧ (x.woken false chan).chan = chan) := by
  unfold Proc.woken
  split_ifs with h
  · simp
  · simpa using h

theorem wakeupOne_proc (t : Ptable) (self : Slot) (chan : Nat) (p j : Slot) :
    (wakeupOne t self chan p).proc j =
      if j = p then (t.proc j).woken (decide (j = self)) chan else t.proc j := by
  unfold wakeupOne Proc.woken
  by_cases hjp : j = p
  · subst hjp
    by_cases hs : j = self <;> by_cases hc : (t.proc j).state = .SLEEPING ∧ (t.proc j).chan = chan <;>
      simp [hs, hc]
  · split_ifs <;> simp [hjp]

theorem foldl_wakeupOne_proc (self : Slot) (chan : Nat) :
    ∀ (l : List Slot) (t : Ptable), l.Nodup → ∀ j,
      (l.foldl (fun t p => wakeupOne t self chan p) t).proc j =
        if j ∈ l then (t.proc j).woken (decide (j = self)) chan else t.proc j
  | [], _, _, _ => rfl
  | p :: l, t, hnd, j => by
    have hpl := (List.nodup_cons.mp hnd).1
    rw [List.foldl_cons, foldl_wakeupOne_proc self chan l _ (List.nodup_cons.mp hnd).2 j,
      wakeupOne_proc]
    by_cases hjp : j = p
    · subst hjp; simp [hpl]
    · simp [hjp]

theorem wakeup_proc (t : Ptable) (self : Slot) (chan : Nat) (j : Slot) :
    (wakeup t self chan).proc j = (t.proc j).woken (decide (j = self)) chan := by
  simpa [wakeup] using foldl_wakeupOne_proc self chan _ t (List.nodup_finRange NPROC) j

/-- The slot `userinit` takes for the first process. -/
def initSlot : Slot := ⟨0, by decide⟩

/-- The slot after it. -/
def secondSlot : Slot := ⟨1, by decide⟩

/-- After `userinit`, `kill(0)` returns `0` although no process that is not
`UNUSED` has pid `0`. It marks the free slot `proc[1]` killed, and `fork`'s
child, which `allocproc` puts in that slot, starts out with `killed` set. -/
theorem kill_zero_kills_next_child :
    ∃ t₁ t₂ t₃ c, userinit procinit = some t₁ ∧
      (∀ i, (t₁.proc i).state ≠ .UNUSED → (t₁.proc i).pid ≠ 0) ∧
      kill t₁ 0 = (0, t₂) ∧ (t₂.proc secondSlot).state = .UNUSED ∧
      fork t₂ initSlot true true = (c, t₃) ∧ c = 2 ∧
      (t₃.proc secondSlot).pid = c ∧ (t₃.proc secondSlot).state = .RUNNABLE ∧
      (t₃.proc secondSlot).killed = true :=
  ⟨_, _, _, _, rfl, by decide, rfl, rfl, rfl, rfl, rfl, rfl, rfl⟩

end Xv6
