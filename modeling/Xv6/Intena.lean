import Xv6.Sched

/-!
# `intena` across `sched` (`spinlock.c`, `proc.c`)

`push_off` records `intr_get()` in `c->intena` when a CPU's `noff` goes from
`0` to `1`, and the `pop_off` that brings `noff` back to `0` turns interrupts
on when `intena` says so. `intena` belongs to the kernel thread, not to the
CPU: `sched` saves it before `swtch` and restores it after, and a thread can
be switched out inside its outermost pair and back in on another CPU.

Over the system of `Xv6.Sched`, `noff` is the nesting depth of `push_off`:
the spinlocks a CPU holds and the lock-free `push_off`s open on it.
Interrupts are off while it is positive, and no step panics (`Inv`). A
process's thread that takes a lock or enters `push_off` where it holds none
opens a pair of its own (`Pending`, with the `intr_get()` it found); every
step of every CPU keeps that pair open, across further locks and
`push_off`s, across `sched` and a move to another CPU, until the `release`
or `pop_off` that brings the thread's depth back to `0`, which leaves
interrupts as they were before the pair (`Pending.next`), or until the slot
is freed after `exit`; `Pending.run` carries this along whole runs.

The pairs a CPU sees are not matched that way: the scheduler takes
`p->lock` with interrupts on, and the `pop_off` that brings that CPU's
`noff` back to `0`, in the process it switched to, restores the process's
`intena` instead, as does the scheduler's own `release` after the process
switches back (`intena_trace`).
-/

namespace Xv6.Sched

/-! ## The pairs of a process's thread -/

/-- The places inside an outermost pair that a process's thread opened
itself, from the `acquire` or `push_off` it made holding no lock. -/
def At.own : At → Bool
  | .holding _ _ | .nested _ _ | .yield _ | .sleepLk _ _ | .sleep _ | .exitWait | .exitLk | .exit
  | .resumed _ => true
  | .forkret | .user | .relock _ => false

/-- The places where a process's thread holds no lock. -/
def At.free : At → Bool
  | .user | .relock _ => true
  | _ => false

/-- Process `p`'s thread is inside an outermost pair of its own that began
with `intr_get() = b`: it runs with that `intena`, or `sched` saved it. -/
def Pending (p : Slot) (b : Bool) (s : Sys) : Prop :=
  match s.pc p with
  | .off _ e => e = b
  | .on a => a.own = true ∧ ∃ c, s.running c = some (p, a) ∧ (s.cpu c).intena = b
  | _ => False

/-- Process `p`'s thread holds no lock, on a CPU whose `intr_get()` is `b`. -/
def Done (p : Slot) (b : Bool) (s : Sys) : Prop :=
  ∃ c a, s.running c = some (p, a) ∧ a.free = true ∧ (s.cpu c).intr = b

section Pairs

variable {s s' t : Sys} {c c' : CpuId} {p q : Slot} {b : Bool} {x : Lock}

theorem depth_pos_of_own {a : At} (ha : a.own = true) (p : Slot) : 0 < (a.holds p).length + a.pushes := by
  cases a <;> simp only [At.own, At.holds, At.pushes, List.length_cons, List.length_map, List.length_nil,
    Bool.false_eq_true] at ha ⊢ <;> omega

theorem Inv.state_ne_unused (h : Inv s) (hp : Pending p b s) : s.state p ≠ .UNUSED := by
  intro hu
  have hs := h.shape p
  rw [hu] at hs
  unfold Pending at hp
  rw [shape_unused hs] at hp
  exact hp

theorem Pending.keep (hp : Pending p b s) (hpc : s'.pc p = s.pc p)
    (hcpu : ∀ c a, s.running c = some (p, a) → (s'.cpu c).sch = (s.cpu c).sch ∧
      (s'.cpu c).proc = (s.cpu c).proc ∧ (s'.cpu c).intena = (s.cpu c).intena) :
    Pending p b s' := by
  unfold Pending at hp ⊢
  rw [hpc]
  split at hp
  · exact hp
  · obtain ⟨hown, c, hrun, hint⟩ := hp
    obtain ⟨hsch, hproc, hint'⟩ := hcpu c _ hrun
    refine ⟨hown, c, ?_, by rw [hint', hint]⟩
    rw [running_congr hsch hproc (fun q hq => ?_), hrun]
    rw [(running_eq_some.mp hrun).2.1] at hq
    cases hq
    exact hpc
  · exact hp.elim

theorem Pending.other (hp : Pending p b s) (hpc : s'.pc p = s.pc p)
    (hcpu : ∀ c, c ≠ c' → s'.cpu c = s.cpu c) (hnot : ∀ a, s.running c' ≠ some (p, a)) :
    Pending p b s' :=
  hp.keep hpc fun c a hrun => by
    have hc : c ≠ c' := by
      rintro rfl
      exact hnot a hrun
    simp [hcpu c hc]

theorem acquire_fields (h : s.acquire c x = .ok (some t)) :
    t.cpu = Function.update s.cpu c (s.cpu c).pushOff ∧ t.pc = s.pc ∧ t.state = s.state := by
  obtain ⟨-, rfl⟩ := acquire_eq_some h
  exact ⟨rfl, rfl, rfl⟩

theorem release_fields (h : s.release c x = .ok t) :
    ∃ y, (s.cpu c).popOff = .ok y ∧ t.cpu = Function.update s.cpu c y ∧ t.pc = s.pc ∧
      t.state = s.state := by
  obtain ⟨-, y, hy, rfl⟩ := release_eq_ok h
  exact ⟨y, hy, rfl, rfl, rfl⟩

theorem Inv.critical_fields (h : Inv s) {f : Sys → Sys} (hf : ∀ t, (f t).cpu = t.cpu)
    (hs : s.critical c x f = .ok (some s')) :
    ∃ t, s.acquire c x = .ok (some t) ∧ t.pc = s.pc ∧ t.state = s.state ∧ s'.pc = (f t).pc ∧
      s'.cpu = Function.update s.cpu c
        { s.cpu c with intena := if (s.cpu c).noff = 0 then (s.cpu c).intr else (s.cpu c).intena } := by
  obtain ⟨t, hacq, hrel⟩ := critical_eq_some hs
  obtain ⟨htcpu, htpc, htstate⟩ := acquire_fields hacq
  obtain ⟨y, hpop, hcpu, hpc, -⟩ := release_fields hrel
  rw [hf, htcpu, Function.update_self, pushOff_popOff (h.intr c)] at hpop
  cases hpop
  refine ⟨t, hacq, htpc, htstate, hpc, ?_⟩
  rw [hcpu, hf, htcpu, Function.update_idem]

theorem Pending.not_running (hp : Pending p b s) {a : At} (ha : a.own = false) :
    s.running c ≠ some (p, a) := by
  intro hrun
  unfold Pending at hp
  rw [(running_eq_some.mp hrun).2.2] at hp
  simp [ha] at hp

theorem running_other {a : At} (hrun : s.running c' = some (q, a)) (hqp : q ≠ p) :
    ∀ a', s.running c' ≠ some (p, a') :=
  fun _ h => hqp (Prod.mk.inj (Option.some.inj (hrun.symm.trans h))).1

theorem Pending.not_runner (hp : Pending p b s) {a : At} (hrun : s.running c' = some (q, a))
    (ha : a.own = false) : q ≠ p ∧ ∀ a', s.running c' ≠ some (p, a') := by
  have hqp : q ≠ p := by
    rintro rfl
    exact hp.not_running ha hrun
  exact ⟨hqp, running_other hrun hqp⟩

theorem Pending.other_sch (hp : Pending p b s) (hsch : (s.cpu c').sch ≠ .out) (hpc : s'.pc p = s.pc p)
    (hcpu : ∀ c, c ≠ c' → s'.cpu c = s.cpu c) : Pending p b s' :=
  hp.other hpc hcpu fun _ hrun => hsch (running_eq_some.mp hrun).1

theorem Inv.intena_of_pending (h : Inv s) (hp : Pending p b s) {a : At} (hrun : s.running c = some (p, a)) :
    a.own = true ∧ (s.cpu c).intena = b := by
  unfold Pending at hp
  rw [(running_eq_some.mp hrun).2.2] at hp
  obtain ⟨hown, c', hrun', hint⟩ := hp
  have hcc : c' = c := h.proc c' c p (running_eq_some.mp hrun').2.1 (running_eq_some.mp hrun).2.1
  subst hcc
  exact ⟨hown, hint⟩

theorem Inv.noff_pos_of_own (h : Inv s) {a : At} (hrun : s.running c = some (p, a)) (ha : a.own = true) :
    0 < (s.cpu c).noff := by
  rw [h.noff, held_of_running hrun, nest_of_running hrun]
  exact depth_pos_of_own ha p

theorem Inv.pending_critical (h : Inv s) (hp : Pending p b s) {f : Sys → Sys}
    (hf : ∀ t, (f t).cpu = t.cpu) (hfp : ∀ t, t.state = s.state → (f t).pc p = t.pc p)
    (hs : s.critical c' x f = .ok (some s')) : Pending p b s' := by
  obtain ⟨t, -, htpc, htstate, hpc, hcpu⟩ := h.critical_fields hf hs
  refine hp.keep (by rw [hpc, hfp t htstate, htpc]) fun c a hrun => ?_
  by_cases hc : c = c'
  · -- `p` runs the section: its CPU already held a lock, so `intena` stays
    subst hc
    have hpos := h.noff_pos_of_own hrun (h.intena_of_pending hp hrun).1
    simp [hcpu, Nat.pos_iff_ne_zero.mp hpos]
  · simp [hcpu, hc]

end Pairs

/-! ## One step keeps a pair open, or closes it -/

section Steps

variable {s s' t : Sys} {c c' : CpuId} {p q : Slot} {b : Bool} {x : Lock} {a a' : At}

theorem pushOff_intena_of_ne {y : Cpu} (hy : y.noff ≠ 0) : y.pushOff.intena = y.intena := by
  simp [Cpu.pushOff, hy]

theorem pushOff_intena_of_eq {y : Cpu} (hy : y.noff = 0) : y.pushOff.intena = y.intr := by
  simp [Cpu.pushOff, hy]

theorem popOff_fields {y z : Cpu} (h : y.popOff = .ok z) :
    z.intena = y.intena ∧ z.sch = y.sch ∧ z.proc = y.proc := by
  obtain ⟨-, -, rfl⟩ := popOff_eq_ok h
  exact ⟨rfl, rfl, rfl⟩

theorem popOff_last {y z : Cpu} (h : y.popOff = .ok z) (h1 : y.noff = 1) : z.intr = y.intena := by
  obtain ⟨hi, -, rfl⟩ := popOff_eq_ok h
  cases y.intena <;> simp [h1, hi]

theorem running_same (h₁ : s.running c = some (p, a)) (h₂ : s.running c = some (q, a')) : q = p ∧ a' = a :=
  Prod.mk.inj (Option.some.inj (h₂.symm.trans h₁))

/-- A `push_off` of `p`'s thread, in `acquire` or not, that leaves it at a
place of its own: the pair it is in has the `intena` that `push_off` left. -/
theorem pushOff_pending (hrun : s.running c = some (p, a)) (ha' : a'.own = true)
    (hcpu : s'.cpu c = (s.cpu c).pushOff) (hpc : s'.pc p = .on a') : Pending p (s.cpu c).pushOff.intena s' := by
  obtain ⟨hsch, hproc, -⟩ := running_eq_some.mp hrun
  unfold Pending
  rw [hpc]
  exact ⟨ha', c, running_eq_some.mpr ⟨by rw [hcpu, ← hsch]; rfl, by rw [hcpu, ← hproc]; rfl, hpc⟩,
    by rw [hcpu]⟩

theorem acquire_moveTo_fields {f : Sys → Sys} (hf : ∀ t, (f t).cpu = t.cpu)
    (hs : (s.acquire c x).map (Option.map fun t => (f t).moveTo p a') = .ok (some s')) :
    s'.cpu c = (s.cpu c).pushOff ∧ s'.pc p = .on a' := by
  obtain ⟨t, hacq, rfl⟩ := map_some_eq hs
  obtain ⟨htcpu, -, -⟩ := acquire_fields hacq
  exact ⟨by simp [Sys.moveTo, Sys.setPc, hf, htcpu], by simp [Sys.moveTo, Sys.setPc]⟩

theorem acquire_pending (hrun : s.running c = some (p, a)) (ha' : a'.own = true) {f : Sys → Sys}
    (hf : ∀ t, (f t).cpu = t.cpu)
    (hs : (s.acquire c x).map (Option.map fun t => (f t).moveTo p a') = .ok (some s')) :
    Pending p (s.cpu c).pushOff.intena s' :=
  pushOff_pending hrun ha' (acquire_moveTo_fields hf hs).1 (acquire_moveTo_fields hf hs).2

theorem Inv.pending_move (h : Inv s) (hp : Pending p b s) (hrun : s.running c = some (p, a))
    (ha' : a'.own = true) (hpc : s'.pc p = .on a') (hsch : (s'.cpu c).sch = (s.cpu c).sch)
    (hproc : (s'.cpu c).proc = (s.cpu c).proc) (hint : (s'.cpu c).intena = (s.cpu c).intena) :
    Pending p b s' := by
  obtain ⟨hsch0, hproc0, -⟩ := running_eq_some.mp hrun
  unfold Pending
  rw [hpc]
  refine ⟨ha', c, running_eq_some.mpr ⟨by rw [hsch, hsch0], by rw [hproc, hproc0], hpc⟩, ?_⟩
  rw [hint]
  exact (h.intena_of_pending hp hrun).2

theorem Inv.done_move (h : Inv s) (hp : Pending p b s) (hrun : s.running c = some (p, a))
    (ha' : a'.free = true) (hpc : s'.pc p = .on a') (hsch : (s'.cpu c).sch = (s.cpu c).sch)
    (hproc : (s'.cpu c).proc = (s.cpu c).proc) (hintr : (s'.cpu c).intr = (s.cpu c).intena) :
    Done p b s' := by
  obtain ⟨hsch0, hproc0, -⟩ := running_eq_some.mp hrun
  refine ⟨c, a', running_eq_some.mpr ⟨by rw [hsch, hsch0], by rw [hproc, hproc0], hpc⟩, ha', ?_⟩
  rw [hintr]
  exact (h.intena_of_pending hp hrun).2

/-- A nested `push_off` of `p`'s thread keeps its pair's `intena`. -/
theorem Inv.pending_pushOff (h : Inv s) (hp : Pending p b s) (hrun : s.running c = some (p, a))
    (ha' : a'.own = true) (hcpu : s'.cpu c = (s.cpu c).pushOff) (hpc : s'.pc p = .on a') : Pending p b s' := by
  obtain ⟨hown, hint⟩ := h.intena_of_pending hp hrun
  have hpos := h.noff_pos_of_own hrun hown
  have hp' := pushOff_pending hrun ha' hcpu hpc
  rwa [pushOff_intena_of_ne (Nat.pos_iff_ne_zero.mp hpos), hint] at hp'

theorem Inv.pending_acquire (h : Inv s) (hp : Pending p b s) (hrun : s.running c = some (p, a))
    (ha' : a'.own = true) {f : Sys → Sys} (hf : ∀ t, (f t).cpu = t.cpu)
    (hs : (s.acquire c x).map (Option.map fun t => (f t).moveTo p a') = .ok (some s')) :
    Pending p b s' :=
  h.pending_pushOff hp hrun ha' (acquire_moveTo_fields hf hs).1 (acquire_moveTo_fields hf hs).2

/-- A `pop_off` of `p`'s thread, in `release` or not: the pair stays open
at a place of its own, or the last one closes it. -/
theorem Inv.pop_move (h : Inv s) (hp : Pending p b s) (hrun : s.running c = some (p, a)) {y : Cpu}
    (hpop : (s.cpu c).popOff = .ok y) (hcpu : s'.cpu c = y) (hpc : s'.pc p = .on a') :
    (a'.own = true → Pending p b s') ∧ (a'.free = true → (s.cpu c).noff = 1 → Done p b s') := by
  obtain ⟨hint, hsch, hproc⟩ := popOff_fields hpop
  exact ⟨fun ha' => h.pending_move hp hrun ha' hpc (by rw [hcpu, hsch]) (by rw [hcpu, hproc])
      (by rw [hcpu, hint]),
    fun ha' h1 => h.done_move hp hrun ha' hpc (by rw [hcpu, hsch]) (by rw [hcpu, hproc])
      (by rw [hcpu, popOff_last hpop h1])⟩

theorem Inv.release_move (h : Inv s) (hp : Pending p b s) (hrun : s.running c = some (p, a))
    {s₀ : Sys} (hcpu₀ : s₀.cpu = s.cpu) {f : Sys → Sys} (hf : ∀ t, (f t).cpu = t.cpu)
    (hs : (s₀.release c x).map (fun t => some ((f t).moveTo p a')) = .ok (some s')) :
    (a'.own = true → Pending p b s') ∧ (a'.free = true → (s.cpu c).noff = 1 → Done p b s') := by
  obtain ⟨t, hrel, rfl⟩ := map_eq_some hs
  obtain ⟨y, hpop, htcpu, -, -⟩ := release_fields hrel
  rw [hcpu₀] at hpop htcpu
  exact h.pop_move hp hrun hpop (by simp [Sys.moveTo, Sys.setPc, hf, htcpu]) (by simp [Sys.moveTo, Sys.setPc])

theorem Pending.other_acquire (hp : Pending p b s) (hqp : q ≠ p) (hnot : ∀ a, s.running c' ≠ some (p, a))
    {f : Sys → Sys} (hf : ∀ t, (f t).cpu = t.cpu ∧ (f t).pc = t.pc)
    (hs : (s.acquire c' x).map (Option.map fun t => (f t).moveTo q a') = .ok (some s')) :
    Pending p b s' := by
  obtain ⟨t, hacq, rfl⟩ := map_some_eq hs
  obtain ⟨htcpu, htpc, -⟩ := acquire_fields hacq
  exact hp.other (by simp [Sys.moveTo, Sys.setPc, (hf t).2, htpc, Function.update_of_ne hqp.symm])
    (fun c hc => by simp [Sys.moveTo, Sys.setPc, (hf t).1, htcpu, hc]) hnot

theorem Pending.other_release (hp : Pending p b s) (hqp : q ≠ p) (hnot : ∀ a, s.running c' ≠ some (p, a))
    {s₀ : Sys} (hcpu₀ : s₀.cpu = s.cpu) (hpc₀ : s₀.pc = s.pc) {f : Sys → Sys}
    (hf : ∀ t, (f t).cpu = t.cpu ∧ (f t).pc = t.pc)
    (hs : (s₀.release c' x).map (fun t => some ((f t).moveTo q a')) = .ok (some s')) :
    Pending p b s' := by
  obtain ⟨t, hrel, rfl⟩ := map_eq_some hs
  obtain ⟨y, -, htcpu, htpc, -⟩ := release_fields hrel
  exact hp.other (by simp [Sys.moveTo, Sys.setPc, (hf t).2, htpc, hpc₀, Function.update_of_ne hqp.symm])
    (fun c hc => by simp [Sys.moveTo, Sys.setPc, (hf t).1, htcpu, hcpu₀, hc]) hnot

theorem Pending.step_schedAcquire (hp : Pending p b s) {i : Slot}
    (hs : step s (.schedAcquire c i) = .ok (some s')) : Pending p b s' := by
  simp only [step] at hs
  split_ifs at hs with hidle
  · obtain ⟨t, hacq, rfl⟩ := map_some_eq hs
    obtain ⟨htcpu, htpc, -⟩ := acquire_fields hacq
    exact hp.other_sch (by rw [hidle]; simp) (by simp [Sys.setCpu, htpc])
      (fun c' hc => by simp [Sys.setCpu, htcpu, hc])
  · cases hs

theorem Pending.step_schedPick (hp : Pending p b s) (hs : step s (.schedPick c) = .ok (some s')) :
    Pending p b s' := by
  simp only [step] at hs
  split at hs
  · rename_i i hsch
    have hout : (s.cpu c).sch ≠ .out := by rw [hsch]; simp
    have hother : ∀ {a e}, i ≠ p → Pending p b (switchIn s c i a e) := fun hip =>
      hp.other_sch hout (by simp [switchIn, Sys.setCpu, Sys.setPc, Sys.setState, Function.update_of_ne hip.symm])
        (fun c' hc => by simp [switchIn, Sys.setCpu, Sys.setPc, Sys.setState, hc])
    split_ifs at hs with hst
    · split at hs
      · -- a process about to enter `forkret` has opened no pair
        rename_i hf
        cases hs
        refine hother fun hip => ?_
        subst hip
        unfold Pending at hp
        rw [hf] at hp
        exact hp
      · rename_i k e hk
        cases hs
        by_cases hip : i = p
        · -- the `swtch` back into `p` restores the `intena` its `sched` saved
          subst hip
          unfold Pending at hp ⊢
          rw [hk] at hp
          have hrun : (switchIn s c i (.resumed k) e).running c = some (i, .resumed k) :=
            running_eq_some.mpr ⟨by simp [switchIn, Sys.setCpu], by simp [switchIn, Sys.setCpu],
              by simp [switchIn, Sys.setCpu, Sys.setPc]⟩
          rw [(running_eq_some.mp hrun).2.2]
          exact ⟨rfl, c, hrun, by simp [switchIn, Sys.setCpu, hp]⟩
        · exact hother hip
      · cases hs
    · obtain ⟨t, hrel, rfl⟩ := map_eq_some hs
      obtain ⟨y, -, htcpu, htpc, -⟩ := release_fields hrel
      exact hp.other_sch hout (by simp [Sys.setCpu, htpc]) (fun c' hc => by simp [Sys.setCpu, htcpu, hc])
  · cases hs

theorem Pending.step_schedBack (hp : Pending p b s) (hs : step s (.schedBack c) = .ok (some s')) :
    Pending p b s' := by
  simp only [step] at hs
  split at hs
  · rename_i i hsch
    obtain ⟨t, hrel, rfl⟩ := map_eq_some hs
    obtain ⟨y, -, htcpu, htpc, -⟩ := release_fields hrel
    exact hp.other_sch (by rw [hsch]; simp) (by simp [Sys.setCpu, htpc])
      (fun c' hc => by simp [Sys.setCpu, htcpu, hc])
  · cases hs

theorem Pending.setIntr (hp : Pending p b s) (v : Bool) :
    Pending p b (s.setCpu c { s.cpu c with intr := v }) :=
  hp.keep rfl fun c' _ _ => by
    by_cases hc : c' = c
    · subst hc
      simp [Sys.setCpu]
    · simp [Sys.setCpu, hc]

theorem Pending.step_intrOn (hp : Pending p b s) (hs : step s (.intrOn c) = .ok (some s')) :
    Pending p b s' := by
  simp only [step] at hs
  split_ifs at hs
  · cases hs
    exact hp.setIntr true
  · cases hs

theorem Pending.step_intrOff (hp : Pending p b s) (hs : step s (.intrOff c) = .ok (some s')) :
    Pending p b s' := by
  rw [step_intrOff_eq] at hs
  cases hs
  exact hp.setIntr false

theorem Pending.step_yield (hp : Pending p b s) (hs : step s (.yield c) = .ok (some s')) :
    Pending p b s' := by
  simp only [step] at hs
  split at hs
  · unfold yieldFrom at hs
    obtain ⟨hqp, hnot⟩ := hp.not_runner ‹_› rfl
    exact hp.other_acquire hqp hnot (f := fun t => t.setState _ .RUNNABLE) (fun _ => ⟨rfl, rfl⟩) hs
  · unfold yieldFrom at hs
    obtain ⟨hqp, hnot⟩ := hp.not_runner ‹_› rfl
    exact hp.other_acquire hqp hnot (f := fun t => t.setState _ .RUNNABLE) (fun _ => ⟨rfl, rfl⟩) hs
  · cases hs

theorem Pending.step_sched (h : Inv s) (hp : Pending p b s) (hs : step s (.sched c) = .ok (some s')) :
    Pending p b s' := by
  simp only [step] at hs
  split at hs
  · rename_i q a hrun
    split at hs
    · rename_i k hk
      unfold schedOut at hs
      split_ifs at hs
      cases hs
      by_cases hqp : q = p
      · -- `sched` saves the `intena` of `p`'s pair with its context
        subst hqp
        unfold Pending
        simp [Sys.setCpu, Sys.setPc, (h.intena_of_pending hp hrun).2]
      · exact hp.other (by simp [Sys.setCpu, Sys.setPc, Function.update_of_ne (Ne.symm hqp)])
          (fun c' hc => by simp [Sys.setCpu, Sys.setPc, hc]) (running_other hrun hqp)
    · cases hs
  · cases hs

theorem Inv.noff_one (h : Inv s) (hrun : s.running c = some (p, a)) (h1 : (a.holds p).length + a.pushes = 1) :
    (s.cpu c).noff = 1 := by
  rw [h.noff, held_of_running hrun, nest_of_running hrun, h1]

theorem Pending.step_resume (h : Inv s) (hp : Pending p b s) (hs : step s (.resume c) = .ok (some s')) :
    Pending p b s' ∨ Done p b s' := by
  simp only [step] at hs
  split at hs
  · -- `forkret`, outside any pair of a process's own
    obtain ⟨hqp, hnot⟩ := hp.not_runner ‹_› rfl
    exact .inl (hp.other_release hqp hnot rfl rfl (fun _ => ⟨rfl, rfl⟩) hs)
  · rename_i q r hrun
    by_cases hqp : q = p
    · -- back in `yield`: its `release(&p->lock)` closes the pair
      subst hqp
      exact .inr ((h.release_move hp hrun rfl (fun _ => rfl) hs).2 (by cases r <;> rfl) (h.noff_one hrun rfl))
    · exact .inl (hp.other_release hqp (running_other hrun hqp) rfl rfl (fun _ => ⟨rfl, rfl⟩) hs)
  · rename_i q l hrun
    by_cases hqp : q = p
    · subst hqp
      exact .inr ((h.release_move hp hrun (by rfl) (fun _ => rfl) hs).2 rfl (h.noff_one hrun rfl))
    · exact .inl (hp.other_release hqp (running_other hrun hqp) (by rfl) (by rfl)
        (fun _ => ⟨rfl, rfl⟩) hs)
  · cases hs
  · cases hs

theorem Pending.step_lock (h : Inv s) (hp : Pending p b s) {l : Nat} (hs : step s (.lock c l) = .ok (some s')) :
    Pending p b s' := by
  simp only [step] at hs
  split at hs
  · obtain ⟨hqp, hnot⟩ := hp.not_runner ‹_› rfl
    exact hp.other_acquire hqp hnot (f := id) (fun _ => ⟨rfl, rfl⟩) hs
  · -- a further lock, taken holding others
    rename_i q l' ls hrun
    split_ifs at hs
    · cases hs
    · by_cases hqp : q = p
      · subst hqp
        exact h.pending_acquire hp hrun rfl (f := id) (fun _ => rfl) hs
      · exact hp.other_acquire hqp (running_other hrun hqp) (f := id) (fun _ => ⟨rfl, rfl⟩) hs
  · cases hs

theorem Pending.step_unlock (h : Inv s) (hp : Pending p b s) (hs : step s (.unlock c) = .ok (some s')) :
    Pending p b s' ∨ Done p b s' := by
  simp only [step] at hs
  split at hs
  · rename_i q l ls hrun
    by_cases hqp : q = p
    · subst hqp
      have hmove := h.release_move hp hrun rfl (f := id) (fun _ => rfl) hs
      cases ls with
      | nil =>
        -- `release(lk)` of the last lock `p` holds, outside any `push_off`
        exact .inr (hmove.2 rfl (h.noff_one hrun rfl))
      | cons l' ls => exact .inl (hmove.1 rfl)
    · exact .inl (hp.other_release hqp (running_other hrun hqp) rfl rfl (f := id) (fun _ => ⟨rfl, rfl⟩) hs)
  · cases hs

theorem nestIn_own {a a' : At} (h : a.nestIn = some a') : a'.own = true := by
  cases a <;> simp only [At.nestIn, Option.some.injEq, reduceCtorEq] at h <;> subst h <;> rfl

theorem nest_cpu (s : Sys) (y : Cpu) (q : Slot) (a' : At) : ((s.setCpu c y).moveTo q a').cpu c = y := by
  simp [Sys.moveTo, Sys.setPc, Sys.setCpu]

theorem nest_pc (s : Sys) (y : Cpu) (q : Slot) (a' : At) : ((s.setCpu c y).moveTo q a').pc q = .on a' := by
  simp [Sys.moveTo, Sys.setPc]

/-- Another thread's lock-free `push_off` or `pop_off` leaves `p`'s pair alone. -/
theorem Pending.other_nest (hp : Pending p b s) (hrun : s.running c = some (q, a)) (hqp : q ≠ p) (y : Cpu)
    (a' : At) : Pending p b ((s.setCpu c y).moveTo q a') :=
  hp.other (by simp [Sys.moveTo, Sys.setPc, Sys.setCpu, Function.update_of_ne (Ne.symm hqp)])
    (fun c' hc => by simp [Sys.moveTo, Sys.setPc, Sys.setCpu, hc]) (running_other hrun hqp)

theorem Pending.step_pushOff (h : Inv s) (hp : Pending p b s) (hs : step s (.pushOff c) = .ok (some s')) :
    Pending p b s' := by
  simp only [step] at hs
  split at hs
  · rename_i q a hrun
    split at hs
    · rename_i a' ha
      cases hs
      by_cases hqp : q = p
      · subst hqp
        exact h.pending_pushOff hp hrun (nestIn_own ha) (nest_cpu ..) (nest_pc ..)
      · exact hp.other_nest hrun hqp _ _
    · cases hs
  · cases hs

theorem Pending.step_popOff (h : Inv s) (hp : Pending p b s) (hs : step s (.popOff c) = .ok (some s')) :
    Pending p b s' ∨ Done p b s' := by
  simp only [step] at hs
  split at hs
  · rename_i q k ls hrun
    obtain ⟨y, hpop, rfl⟩ := map_eq_some hs
    by_cases hqp : q = p
    · subst hqp
      have hmove := h.pop_move hp hrun hpop (nest_cpu s y q (At.unnest k ls)) (nest_pc s y q (At.unnest k ls))
      rcases k with _ | k
      · cases ls with
        | nil =>
          -- the outermost `pop_off`, holding no lock
          exact .inr (hmove.2 rfl (h.noff_one hrun rfl))
        | cons l ls => exact .inl (hmove.1 rfl)
      · exact .inl (hmove.1 rfl)
    · exact .inl (hp.other_nest hrun hqp _ _)
  · cases hs

theorem Pending.step_sleep (h : Inv s) (hp : Pending p b s) {ch : Nat}
    (hs : step s (.sleep c ch) = .ok (some s')) : Pending p b s' := by
  simp only [step] at hs
  split at hs
  · rename_i q l hrun
    by_cases hqp : q = p
    · subst hqp
      exact h.pending_acquire hp hrun rfl (f := id) (fun _ => rfl) hs
    · exact hp.other_acquire hqp (running_other hrun hqp) (f := id) (fun _ => ⟨rfl, rfl⟩) hs
  · cases hs

theorem Pending.step_sleepRelease (h : Inv s) (hp : Pending p b s) (hs : step s (.sleepRelease c) = .ok (some s')) :
    Pending p b s' := by
  simp only [step] at hs
  split at hs
  · rename_i q l ch hrun
    by_cases hqp : q = p
    · subst hqp
      exact (h.release_move hp hrun rfl (f := fun t => { t with chan := Function.update t.chan q ch }.setState q .SLEEPING)
        (fun _ => rfl) hs).1 rfl
    · exact hp.other_release hqp (running_other hrun hqp) rfl rfl
        (f := fun t => { t with chan := Function.update t.chan q ch }.setState q .SLEEPING) (fun _ => ⟨rfl, rfl⟩) hs
  · cases hs

theorem Pending.step_relock (hp : Pending p b s) (hs : step s (.relock c) = .ok (some s')) :
    Pending p b s' := by
  simp only [step] at hs
  split at hs
  · obtain ⟨hqp, hnot⟩ := hp.not_runner ‹_› rfl
    exact hp.other_acquire hqp hnot (f := id) (fun _ => ⟨rfl, rfl⟩) hs
  · cases hs

theorem Pending.step_exitLock (hp : Pending p b s) (hs : step s (.exitLock c) = .ok (some s')) :
    Pending p b s' := by
  simp only [step] at hs
  split at hs
  · obtain ⟨hqp, hnot⟩ := hp.not_runner ‹_› rfl
    exact hp.other_acquire hqp hnot (f := id) (fun _ => ⟨rfl, rfl⟩) hs
  · cases hs

theorem Pending.step_exitZombie (h : Inv s) (hp : Pending p b s) (hs : step s (.exitZombie c) = .ok (some s')) :
    Pending p b s' := by
  simp only [step] at hs
  split at hs
  · rename_i q hrun
    by_cases hqp : q = p
    · subst hqp
      exact h.pending_acquire hp hrun rfl (f := fun t => t.setState q .ZOMBIE) (fun _ => rfl) hs
    · exact hp.other_acquire hqp (running_other hrun hqp) (f := fun t => t.setState q .ZOMBIE)
        (fun _ => ⟨rfl, rfl⟩) hs
  · cases hs

theorem Pending.step_exitRelease (h : Inv s) (hp : Pending p b s) (hs : step s (.exitRelease c) = .ok (some s')) :
    Pending p b s' := by
  simp only [step] at hs
  split at hs
  · rename_i q hrun
    by_cases hqp : q = p
    · subst hqp
      exact (h.release_move hp hrun rfl (f := id) (fun _ => rfl) hs).1 rfl
    · exact hp.other_release hqp (running_other hrun hqp) rfl rfl (f := id) (fun _ => ⟨rfl, rfl⟩) hs
  · cases hs

theorem Pending.step_wakeup (h : Inv s) (hp : Pending p b s) {q : Slot} {ch : Nat}
    (hs : step s (.wakeup c q ch) = .ok (some s')) : Pending p b s' := by
  simp only [step] at hs
  split_ifs at hs
  · refine h.pending_critical hp (fun t => ?_) (fun t _ => ?_) hs <;> split_ifs <;> rfl
  · cases hs

theorem Pending.step_kill (h : Inv s) (hp : Pending p b s) {q : Slot} (hs : step s (.kill c q) = .ok (some s')) :
    Pending p b s' := by
  simp only [step] at hs
  split at hs
  · refine h.pending_critical hp (fun t => ?_) (fun t _ => ?_) hs <;> split_ifs <;> rfl
  · cases hs

theorem Pending.step_allocproc (h : Inv s) (hp : Pending p b s) {q : Slot}
    (hs : step s (.allocproc c q) = .ok (some s')) : Pending p b s' := by
  simp only [step] at hs
  split at hs
  · refine h.pending_critical hp (fun t => ?_) (fun t ht => ?_) hs
    · split_ifs <;> rfl
    · split_ifs with hu
      · -- the slot `allocproc` takes is `UNUSED`, so not `p`
        have hqp : q ≠ p := by
          rintro rfl
          exact h.state_ne_unused hp (ht ▸ hu)
        simp [Sys.setPc, Sys.setState, Function.update_of_ne hqp.symm]
      · rfl
  · cases hs

theorem Pending.step_forkRun (h : Inv s) (hp : Pending p b s) {q : Slot}
    (hs : step s (.forkRun c q) = .ok (some s')) : Pending p b s' := by
  simp only [step] at hs
  split at hs
  · refine h.pending_critical hp (fun t => ?_) (fun t _ => ?_) hs <;> split_ifs <;> rfl
  · cases hs

theorem Pending.step_freeproc (h : Inv s) (hp : Pending p b s) {q : Slot}
    (hs : step s (.freeproc c q) = .ok (some s')) : Pending p b s' ∨ s'.pc p = .unused := by
  simp only [step] at hs
  split at hs
  case h_3 => cases hs
  all_goals
    by_cases hq : q = p ∧ (s.state p = .ZOMBIE ∨ s.state p = .USED)
    · obtain ⟨rfl, hst⟩ := hq
      refine .inr ?_
      obtain ⟨t, -, -, htstate, hpc, -⟩ := h.critical_fields (fun t => by split_ifs <;> rfl) hs
      rw [hpc, if_pos (htstate ▸ hst)]
      simp [Sys.setPc]
    · refine .inl (h.pending_critical hp (fun t => by split_ifs <;> rfl) (fun t ht => ?_) hs)
      split_ifs with hst
      · have hqp : q ≠ p := fun hqp => hq ⟨hqp, hqp ▸ ht ▸ hst⟩
        simp [Sys.setPc, Sys.setState, Function.update_of_ne hqp.symm]
      · rfl

/-- Every event keeps `p`'s pair open, closes it with `intr_get() = b`, or
frees `p`'s slot. -/
theorem Pending.next (h : Inv s) (hp : Pending p b s) {e : Event} (hs : step s e = .ok (some s')) :
    Pending p b s' ∨ Done p b s' ∨ s'.pc p = .unused := by
  cases e with
  | schedAcquire c i => exact .inl (hp.step_schedAcquire hs)
  | schedPick c => exact .inl (hp.step_schedPick hs)
  | schedBack c => exact .inl (hp.step_schedBack hs)
  | intrOn c => exact .inl (hp.step_intrOn hs)
  | intrOff c => exact .inl (hp.step_intrOff hs)
  | yield c => exact .inl (hp.step_yield hs)
  | sched c => exact .inl (hp.step_sched h hs)
  | resume c => exact (hp.step_resume h hs).imp_right .inl
  | lock c l => exact .inl (hp.step_lock h hs)
  | unlock c => exact (hp.step_unlock h hs).imp_right .inl
  | pushOff c => exact .inl (hp.step_pushOff h hs)
  | popOff c => exact (hp.step_popOff h hs).imp_right .inl
  | sleep c ch => exact .inl (hp.step_sleep h hs)
  | sleepRelease c => exact .inl (hp.step_sleepRelease h hs)
  | relock c => exact .inl (hp.step_relock hs)
  | exitLock c => exact .inl (hp.step_exitLock hs)
  | exitZombie c => exact .inl (hp.step_exitZombie h hs)
  | exitRelease c => exact .inl (hp.step_exitRelease h hs)
  | wakeup c q ch => exact .inl (hp.step_wakeup h hs)
  | kill c q => exact .inl (hp.step_kill h hs)
  | allocproc c q => exact .inl (hp.step_allocproc h hs)
  | forkRun c q => exact .inl (hp.step_forkRun h hs)
  | freeproc c q => exact (hp.step_freeproc h hs).imp_right .inr

end Steps

/-! ## Along a run -/

section Runs

variable {s s' : Sys} {c : CpuId} {p : Slot} {b : Bool} {a : At}

/-- Along the run `es` from `s`, `p`'s pair stays open, or one step, out of
a state where it is still open, closes it with `intr_get() = b` or frees
`p`'s slot. -/
def Brackets (p : Slot) (b : Bool) (s : Sys) (es : List Event) : Prop :=
  ∀ s', steps s es = some s' → Pending p b s' ∨
    ∃ es₁ e es₂ t t', es = es₁ ++ e :: es₂ ∧ steps s es₁ = some t ∧ Pending p b t ∧
      step t e = .ok (some t') ∧ (Done p b t' ∨ t'.pc p = .unused)

theorem Pending.run (h : Inv s) (hp : Pending p b s) (es : List Event) : Brackets p b s es := by
  induction es generalizing s with
  | nil =>
    intro s' hs
    cases hs
    exact .inl hp
  | cons e es ih =>
    intro s' hs
    simp only [steps] at hs
    split at hs
    · rename_i t ht
      rcases hp.next h ht with hp' | hclose
      · rcases ih (h.next ht) hp' s' hs with hend | ⟨es₁, e', es₂, u, u', rfl, hu, hpu, hstep, hcl⟩
        · exact .inl hend
        · exact .inr ⟨e :: es₁, e', es₂, u, u', rfl, by simp only [steps, ht, hu], hpu, hstep, hcl⟩
      · exact .inr ⟨[], e, es, s, t, rfl, rfl, hp, ht, hclose⟩
    · cases hs

/-- The `push_off`s a process's thread makes on CPU `c` where it holds no
lock: in `yield`'s `acquire`, `acquire(lk)` from system-call code, `exit`'s
`acquire(&wait_lock)`, `sleep`'s `acquire(lk)` once awake, and the
lock-free `push_off` of `myproc` and `uartputc_sync`. -/
def Event.opens (c : CpuId) : Event → Bool
  | .yield c' | .lock c' _ | .exitLock c' | .relock c' | .pushOff c' => c' == c
  | _ => false

theorem holds_of_free (ha : a.free = true) (p : Slot) : a.holds p = [] := by
  cases a <;> simp_all [At.free, At.holds]

theorem pushes_of_free (ha : a.free = true) : a.pushes = 0 := by
  cases a <;> simp_all [At.free, At.pushes]

/-- A process's thread that takes a lock holding none opens a pair with the
`intr_get()` of the CPU it runs on. -/
theorem Inv.pending_open (h : Inv s) (hrun : s.running c = some (p, a)) (ha : a.free = true)
    {e : Event} (he : e.opens c = true) (hs : step s e = .ok (some s')) : Pending p (s.cpu c).intr s' := by
  have h0 : (s.cpu c).noff = 0 := by
    rw [h.noff, held_of_running hrun, nest_of_running hrun, holds_of_free ha p, pushes_of_free ha]
    rfl
  rw [← pushOff_intena_of_eq h0]
  cases e with
  | yield c' =>
    obtain rfl : c' = c := by simpa [Event.opens] using he
    simp only [step] at hs
    split at hs
    · rename_i q hq
      obtain ⟨rfl, -⟩ := running_same hrun hq
      exact acquire_pending hq rfl (f := fun t => t.setState q .RUNNABLE) (fun _ => rfl) hs
    · rename_i q l hq
      obtain ⟨rfl, -⟩ := running_same hrun hq
      exact acquire_pending hq rfl (f := fun t => t.setState q .RUNNABLE) (fun _ => rfl) hs
    · cases hs
  | lock c' l =>
    obtain rfl : c' = c := by simpa [Event.opens] using he
    simp only [step] at hs
    split at hs
    · rename_i q hq
      obtain ⟨rfl, -⟩ := running_same hrun hq
      exact acquire_pending hq rfl (f := id) (fun _ => rfl) hs
    · -- a thread that holds a lock is not at a free place
      rename_i q l' ls hq
      obtain ⟨-, rfl⟩ := running_same hrun hq
      cases ha
    · cases hs
  | exitLock c' =>
    obtain rfl : c' = c := by simpa [Event.opens] using he
    simp only [step] at hs
    split at hs
    · rename_i q hq
      obtain ⟨rfl, -⟩ := running_same hrun hq
      exact acquire_pending hq rfl (f := id) (fun _ => rfl) hs
    · cases hs
  | relock c' =>
    obtain rfl : c' = c := by simpa [Event.opens] using he
    simp only [step] at hs
    split at hs
    · rename_i q l hq
      obtain ⟨rfl, -⟩ := running_same hrun hq
      exact acquire_pending hq rfl (f := id) (fun _ => rfl) hs
    · cases hs
  | pushOff c' =>
    obtain rfl : c' = c := by simpa [Event.opens] using he
    simp only [step] at hs
    split at hs
    · rename_i q a₀ hq
      split at hs
      · rename_i a' ha'
        cases hs
        obtain ⟨rfl, -⟩ := running_same hrun hq
        exact pushOff_pending hq (nestIn_own ha') (nest_cpu ..) (nest_pc ..)
      · cases hs
    · cases hs
  | _ => cases he

end Runs

/-! ## The pairs a CPU sees -/

/-- `noff` and `intr_get()` of CPU `c` before a run and after each of its
events, up to the first that fails. -/
def intrTrace (c : CpuId) (s : Sys) : List Event → List (Nat × Bool)
  | [] => [((s.cpu c).noff, (s.cpu c).intr)]
  | e :: es =>
    ((s.cpu c).noff, (s.cpu c).intr) ::
      match step s e with
      | .ok (some s') => intrTrace c s' es
      | _ => []

/-- The first process runs on `cpu0` until a timer interrupt makes it
`yield`, and is switched back in once the scheduler has turned interrupts
on again. -/
def intenaRun : List Event :=
  [.intrOn cpu0, .schedAcquire cpu0 initSlot, .schedPick cpu0, .resume cpu0, .intrOff cpu0, .yield cpu0,
    .sched cpu0, .schedBack cpu0, .intrOn cpu0, .schedAcquire cpu0 initSlot, .schedPick cpu0, .resume cpu0]

/-- On `cpu0` the scheduler's `acquire(&p->lock)` takes `noff` from `0` to
`1` with interrupts on, and the process's `release` that takes it back to
`0` leaves them off: `sched` has restored the `intena` the process saved
in `yield`, where interrupts were off. -/
theorem intena_trace : (steps init intenaRun).isSome ∧ intrTrace cpu0 init intenaRun =
    [(0, false), (0, true), (1, false), (1, false), (0, true), (0, false), (1, false), (1, false),
      (0, false), (0, true), (1, false), (1, false), (0, false)] := by
  decide

/-- What holds of `push_off` and `pop_off` in every state an interleaving
reaches. -/
structure IntenaLaw (s : Sys) : Prop where
  /-- `noff` is the nesting depth: the spinlocks the CPU holds, and the
  lock-free `push_off`s open in the process it runs. -/
  noff : ∀ c, (s.cpu c).noff = (s.held c).length + s.nest c
  /-- Interrupts are off while `noff > 0`. -/
  intr : ∀ c, 0 < (s.cpu c).noff → (s.cpu c).intr = false
  /-- No step panics, `pop_off`'s two checks included. -/
  no_panic : ∀ e msg, step s e ≠ .error msg
  /-- A pair that a process's thread opens holding no lock stays open, across
  `sched` and onto any CPU, until the step that closes it with `intr_get()`
  as it was before its outermost `push_off`, or until the slot is freed. -/
  pairs : ∀ c p a e s', s.running c = some (p, a) → a.free = true → e.opens c = true →
    step s e = .ok (some s') → ∀ es, Brackets p (s.cpu c).intr s' es

theorem intena_thread_pairs {s : Sys} (hr : Reachable s) : IntenaLaw s := by
  have h := hr.inv
  refine ⟨h.noff, h.intr, h.no_panic, fun c p a e s' hrun ha he hs es => ?_⟩
  exact (h.pending_open hrun ha he hs).run (h.next hs) es

/-- The first process, started with interrupts on, takes two locks and runs
`myproc` inside them: `noff` counts `1, 2, 3, 2, 1, 0`, and the last
`release` turns interrupts back on. -/
example : intrTrace cpu0 init
    [.intrOn cpu0, .schedAcquire cpu0 initSlot, .schedPick cpu0, .resume cpu0, .lock cpu0 1, .lock cpu0 2,
      .pushOff cpu0, .popOff cpu0, .unlock cpu0, .unlock cpu0] =
    [(0, false), (0, true), (1, false), (1, false), (0, true), (1, false), (2, false), (3, false),
      (2, false), (1, false), (0, true)] := by
  decide

def intenaState : Sys := (steps init intenaRun).getD init

theorem reachable_intenaState : Reachable intenaState :=
  Reachable.init.of_steps intenaRun rfl

theorem intena_thread_pairs_intenaState : IntenaLaw intenaState :=
  intena_thread_pairs reachable_intenaState

end Xv6.Sched
