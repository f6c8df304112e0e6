import Xv6.Log.Crash
import Mathlib.Data.Finset.Card

/-!
# The log under concurrent system calls

`LogSys` is the log, the buffer cache and the processes inside a file-system
system call: those between `begin_op` and `end_op` (`active`), and the one
whose `end_op` runs `commit()` (`committer`). An `Event` is one step of one
process, taken under `log.lock` as in `log.c`; `LogSys.step` returns `none`
when the step is not enabled (the process is elsewhere, or `begin_op`
sleeps) and `Except.error` when it panics.

A system call writes a block by `bread`, a change to the buffer's data and
`log_write` (`Event.write`). The blocks it writes lie off the log region:
`fs.c` writes bitmap, inode and data blocks, which `mkfs` places after it.

`Inv` holds in every reachable state (`reachable_inv`). From it:
`commit_atomic` (every commit of every run is crash-atomic, and runs with no
system call in flight).
-/

namespace Xv6.Log

open WriteList Bcache

/-- The log and the system calls using it. -/
structure LogSys where
  log : Log
  bc : Bcache
  /-- Processes between `begin_op` and `end_op`. -/
  active : Finset Nat
  /-- The process whose `end_op` is running `commit()`. -/
  committer : Option Nat

/-- One step of one process. -/
inductive Event where
  /-- `begin_op()`. -/
  | begin (p : Nat)
  /-- `bp = bread(b)`, `bp->data` set to `x`, `log_write(bp)`, `brelse(bp)`. -/
  | write (p b : Nat) (x : Blk)
  /-- `end_op()` up to its call of `commit()`. -/
  | finish (p : Nat)
  /-- `commit()` and the rest of `end_op()`. -/
  | commit (p : Nat)
  /-- `bget` recycling the buffer of block `b`. -/
  | evict (b : Nat)

namespace LogSys

/-- After `initlog`: the log at `sb.logstart` of `sb.nlog` blocks, recovered. -/
def init (start size : Nat) (d : Nat → Blk) : LogSys :=
  let r := ({ start, size, outstanding := 0, committing := false, lh := [] } : Log).recoverFromLog
    (Bcache.boot d)
  ⟨r.1, r.2, ∅, none⟩

/-- A block a system call may write: a `uint` off the log region. -/
def Writable (s : LogSys) (b : Nat) : Prop :=
  b < 2 ^ 32 ∧ (b < s.log.start ∨ s.log.start + s.log.size ≤ b)

instance (s : LogSys) (b : Nat) : Decidable (s.Writable b) :=
  inferInstanceAs (Decidable (_ ∧ _))

/-- One step. -/
def step (s : LogSys) : Event → Except String (Option LogSys)
  | .begin p =>
    if p ∈ s.active ∨ s.committer = some p then .ok none
    else
      match s.log.beginOp with
      | none => .ok none
      | some lg => .ok (some { s with log := lg, active := insert p s.active })
  | .write p b x =>
    if p ∉ s.active ∨ ¬ s.Writable b then .ok none
    else
      match s.log.logWrite ((s.bc.bread b).2.bset b x) b with
      | .error e => .error e
      | .ok r => .ok (some { s with log := r.1, bc := r.2 })
  | .finish p =>
    if p ∉ s.active then .ok none
    else
      match s.log.endOp with
      | .error e => .error e
      | .ok r =>
        .ok (some { s with
          log := r.1
          active := s.active.erase p
          committer := if r.2 then some p else s.committer })
  | .commit p =>
    if s.committer ≠ some p then .ok none
    else
      let r := s.log.commit s.bc
      .ok (some { s with log := r.1.commitDone, bc := r.2, committer := none })
  | .evict b => .ok ((s.bc.evict b).map fun c => { s with bc := c })

theorem step_evict_eq (s : LogSys) (b : Nat) :
    s.step (.evict b) = .ok ((s.bc.evict b).map fun c => { s with bc := c }) := by
  simp only [LogSys.step]

/-- Run the events in order: the first panic, `none` at the first event not
enabled, or the end state. -/
def run (s : LogSys) : List Event → Except String (Option LogSys)
  | [] => .ok (some s)
  | e :: es =>
    match s.step e with
    | .error m => .error m
    | .ok none => .ok none
    | .ok (some s') => s'.run es

end LogSys

/-- The states a booted log reaches. -/
inductive Reachable (start size : Nat) (d : Nat → Blk) : LogSys → Prop
  | init : Reachable start size d (LogSys.init start size d)
  | step {s s' : LogSys} (e : Event) :
      Reachable start size d s → s.step e = .ok (some s') → Reachable start size d s'

/-- The invariant of the log protocol. -/
structure Inv (s : LogSys) : Prop where
  /-- `log_write`'s guard keeps the header within the log. -/
  lh_size : s.log.lh ≠ [] → s.log.lh.length + 1 ≤ s.log.size
  lh_le : s.log.lh.length ≤ LOGSIZE
  /-- Logged blocks are writable blocks. -/
  lh_blk : ∀ b ∈ s.log.lh, s.Writable b
  /-- Logged buffers stay cached, pinned. -/
  lh_pinned : ∀ b ∈ s.log.lh, s.bc.buf b ≠ none ∧ 0 < s.bc.refcnt b
  /-- Outside a commit the on-disk header is clear. -/
  clean : headN (s.bc.disk s.log.start) = 0
  outstanding_eq : s.log.outstanding = s.active.card
  committing_iff : s.log.committing = s.committer.isSome
  /-- No system call is in flight during a commit. -/
  committer_alone : s.committer.isSome → s.active = ∅

/-! ## The invariant holds along every run -/

theorem inv_init (start size : Nat) (d : Nat → Blk) : Inv (LogSys.init start size d) where
  lh_size h := by simp [LogSys.init, recoverFromLog_fst] at h
  lh_le := by simp [LogSys.init, recoverFromLog_fst]
  lh_blk b hb := by simp [LogSys.init, recoverFromLog_fst] at hb
  lh_pinned b hb := by simp [LogSys.init, recoverFromLog_fst] at hb
  clean := by
    have := recoverFromLog_clean ({ start, size, outstanding := 0, committing := false, lh := [] })
      (Bcache.boot d)
    simpa [LogSys.init, recoverFromLog_fst] using this
  outstanding_eq := by simp [LogSys.init, recoverFromLog_fst]
  committing_iff := by simp [LogSys.init, recoverFromLog_fst]
  committer_alone h := by simp [LogSys.init] at h

section Steps

variable {s s' : LogSys}

theorem inv_begin {p : Nat} (hi : Inv s) (h : s.step (.begin p) = .ok (some s')) : Inv s' := by
  simp only [LogSys.step] at h
  split at h
  · cases h
  · rename_i hp
    split at h
    · cases h
    · rename_i lg hlg
      cases h
      obtain ⟨hc, rfl⟩ := beginOp_eq_some hlg
      have hnone : s.committer = none := by
        have := hi.committing_iff; rw [hc] at this; exact Option.not_isSome_iff_eq_none.1 (by simp [← this])
      refine ⟨hi.lh_size, hi.lh_le, hi.lh_blk, hi.lh_pinned, hi.clean, ?_, hi.committing_iff, ?_⟩
      · have hpa : p ∉ s.active := fun h' => hp (.inl h')
        simp only [Finset.card_insert_of_notMem hpa, hi.outstanding_eq]
        push_cast; rfl
      · simp [hnone]

theorem inv_write {p b : Nat} {x : Blk} (hi : Inv s) (h : s.step (.write p b x) = .ok (some s')) :
    Inv s' := by
  simp only [LogSys.step] at h
  split at h
  · cases h
  · rename_i hg
    simp only [not_or, not_not] at hg
    split at h
    · cases h
    · rename_i r hr
      cases h
      obtain ⟨hlt, hsz, -, habs⟩ := logWrite_eq_ok hr
      -- the buffer of `b` is cached after `bread` and the change to its data
      have hbuf : ∀ y, (y = b ∨ s.bc.buf y ≠ none) → ((s.bc.bread b).2.bset b x).buf y ≠ none :=
        fun y hy => bset_buf_ne_none _ _ _ (hy.imp_right (bread_buf_ne_none _ _))
      rcases habs with ⟨hb, hlg, hc⟩ | ⟨hb, hlg, hc⟩
      · rw [hlg, hc]
        refine ⟨hi.lh_size, hi.lh_le, hi.lh_blk, fun y hy => ⟨hbuf y (.inr (hi.lh_pinned y hy).1),
          by simpa using (hi.lh_pinned y hy).2⟩, by simpa using hi.clean, hi.outstanding_eq,
          hi.committing_iff, hi.committer_alone⟩
      · rw [hlg, hc]
        refine ⟨fun _ => by simp; omega, by simp; omega, fun y hy => ?_, fun y hy => ?_,
          by simpa using hi.clean, hi.outstanding_eq, hi.committing_iff, hi.committer_alone⟩
        · rcases List.mem_append.1 hy with hy | hy
          · exact hi.lh_blk y hy
          · rw [List.mem_singleton.1 hy]; exact hg.2
        · rcases List.mem_append.1 hy with hy | hy
          · refine ⟨by simpa using hbuf y (.inr (hi.lh_pinned y hy).1), ?_⟩
            have := (hi.lh_pinned y hy).2
            by_cases hyb : y = b
            · subst hyb; simp
            · simpa [Function.update_of_ne hyb] using this
          · rw [List.mem_singleton.1 hy]
            exact ⟨by simpa using hbuf b (.inl rfl), by simp⟩

theorem inv_finish {p : Nat} (hi : Inv s) (h : s.step (.finish p) = .ok (some s')) : Inv s' := by
  simp only [LogSys.step] at h
  split at h
  · cases h
  · rename_i hp
    simp only [not_not] at hp
    split at h
    · cases h
    · rename_i r hr
      cases h
      obtain ⟨lg', dc⟩ := r
      obtain ⟨hc, rfl, rfl⟩ := endOp_eq_ok hr
      have hnone : s.committer = none := by
        have := hi.committing_iff; rw [hc] at this; exact Option.not_isSome_iff_eq_none.1 (by simp [← this])
      have hcard : ((s.active.erase p).card : Int) = s.log.outstanding - 1 := by
        rw [Finset.card_erase_of_mem hp, hi.outstanding_eq]
        have : 0 < s.active.card := Finset.card_pos.2 ⟨p, hp⟩
        omega
      refine ⟨hi.lh_size, hi.lh_le, hi.lh_blk, hi.lh_pinned, hi.clean, hcard.symm, ?_, ?_⟩
      · by_cases h0 : s.log.outstanding - 1 = 0 <;> simp [h0, hnone]
      · intro hsome
        by_cases h0 : s.log.outstanding - 1 = 0
        · show s.active.erase p = ∅
          rw [← Finset.card_eq_zero]; omega
        · simp [h0, hnone] at hsome

theorem inv_commit {p : Nat} (hi : Inv s) (h : s.step (.commit p) = .ok (some s')) : Inv s' := by
  simp only [LogSys.step] at h
  split at h
  · cases h
  · rename_i hp
    simp only [not_not] at hp
    cases h
    have hlog : (s.log.commit s.bc).1.commitDone = { s.log with lh := [], committing := false } := by
      rw [commit_fst]; rfl
    -- the commit ends with a clear header
    have hclean : headN ((s.log.commit s.bc).2.disk s.log.start) = 0 := by
      by_cases hn : 0 < s.log.lh.length
      · rw [commit_snd _ _ hn, writeHead_disk_start]
        simp only
        rw [headN_setHead (by simp), List.length_nil]
      · rw [commit_of_nil _ _ (List.eq_nil_of_length_eq_zero (by omega))]
        exact hi.clean
    refine ⟨?_, ?_, ?_, ?_, ?_, ?_, ?_, ?_⟩ <;> simp only [hlog]
    · simp
    · simp
    · simp
    · simp
    · exact hclean
    · exact hi.outstanding_eq
    · rfl
    · simp

theorem inv_evict {b : Nat} (hi : Inv s) (h : s.step (.evict b) = .ok (some s')) : Inv s' := by
  rw [LogSys.step_evict_eq] at h
  cases he : s.bc.evict b with
  | none => simp [he] at h
  | some c =>
    simp only [he, Option.map_some, Except.ok.injEq, Option.some.injEq] at h
    subst h
    obtain ⟨h0, rfl⟩ := evict_eq_some he
    refine ⟨hi.lh_size, hi.lh_le, hi.lh_blk, fun y hy => ?_, hi.clean, hi.outstanding_eq,
      hi.committing_iff, hi.committer_alone⟩
    -- a pinned buffer is not the one recycled
    have hyb : y ≠ b := fun e => by have := (hi.lh_pinned y hy).2; rw [e, h0] at this; omega
    exact ⟨by simpa [Function.update_of_ne hyb] using (hi.lh_pinned y hy).1, (hi.lh_pinned y hy).2⟩

theorem inv_step {e : Event} (hi : Inv s) (h : s.step e = .ok (some s')) : Inv s' := by
  cases e with
  | begin p => exact inv_begin hi h
  | write p b x => exact inv_write hi h
  | finish p => exact inv_finish hi h
  | commit p => exact inv_commit hi h
  | evict b => exact inv_evict hi h

end Steps

theorem reachable_inv {start size : Nat} {d : Nat → Blk} {s : LogSys}
    (h : Reachable start size d s) : Inv s := by
  induction h with
  | init => exact inv_init start size d
  | step e _ hs ih => exact inv_step ih hs

theorem Reachable.run {start size : Nat} {d : Nat → Blk} {s s' : LogSys}
    (h : Reachable start size d s) {es : List Event} (hr : s.run es = .ok (some s')) :
    Reachable start size d s' := by
  induction es generalizing s with
  | nil => simp only [LogSys.run, Except.ok.injEq, Option.some.injEq] at hr; exact hr ▸ h
  | cons e es ih =>
    simp only [LogSys.run] at hr
    split at hr
    · cases hr
    · cases hr
    · rename_i s₁ hs₁
      exact ih (h.step e hs₁) hr

/-- The log's place never changes. -/
theorem reachable_geometry {start size : Nat} {d : Nat → Blk} {s : LogSys}
    (h : Reachable start size d s) : s.log.start = start ∧ s.log.size = size := by
  induction h with
  | init => simp [LogSys.init, recoverFromLog_fst]
  | step e _ hs ih =>
    rename_i s₀ s₁ _
    cases e with
    | begin p =>
      simp only [LogSys.step] at hs
      split at hs
      · cases hs
      · split at hs
        · cases hs
        · rename_i lg hlg; cases hs; rw [(beginOp_eq_some hlg).2]; exact ih
    | write p b x =>
      simp only [LogSys.step] at hs
      split at hs
      · cases hs
      · split at hs
        · cases hs
        · rename_i r hr
          cases hs
          obtain ⟨-, -, -, ⟨-, hlg, -⟩ | ⟨-, hlg, -⟩⟩ := logWrite_eq_ok hr <;> rw [hlg] <;> exact ih
    | finish p =>
      simp only [LogSys.step] at hs
      split at hs
      · cases hs
      · split at hs
        · cases hs
        · rename_i r hr; cases hs; rw [(endOp_eq_ok hr).2.2]; exact ih
    | commit p =>
      simp only [LogSys.step] at hs
      split at hs
      · cases hs
      · cases hs; rw [commit_fst]; exact ih
    | evict b =>
      rw [LogSys.step_evict_eq] at hs
      cases he : s₀.bc.evict b with
      | none => simp [he] at hs
      | some c =>
        simp only [he, Option.map_some, Except.ok.injEq, Option.some.injEq] at hs
        subst hs; exact ih

/-- **Every commit of every run is crash-atomic.** In any state the protocol
reaches from boot, a process about to run `commit()` does so with no system
call between `begin_op` and `end_op` and every logged buffer in the cache;
and stopping the machine after any number of the commit's writes, then
recovering, leaves every logged block with the cache's data or every one
with its data from before, and every block outside the transaction and the
log region as before. A commit that gets to its last write leaves the
cache's data. -/
theorem commit_atomic {start size : Nat} (hsize : 1 ≤ size) {d : Nat → Blk} {s : LogSys}
    (hs : Reachable start size d s) {p : Nat} (hp : s.committer = some p) (k : Nat) :
    s.log.outstanding = 0 ∧ s.active = ∅ ∧ (∀ b ∈ s.log.lh, s.bc.buf b ≠ none) ∧
    let R := recovered s.log (crashAt s.bc (s.log.commit s.bc).2 k)
    ((∀ b ∈ s.log.lh, R b = s.bc.read b) ∨ (∀ b ∈ s.log.lh, R b = s.bc.disk b)) ∧
      (∀ b, b ∉ s.log.lh → (b < start ∨ start + size ≤ b) → R b = s.bc.disk b) ∧
      (2 * s.log.lh.length + 2 ≤ k → ∀ b ∈ s.log.lh, R b = s.bc.read b) := by
  have hi := reachable_inv hs
  obtain ⟨hstart, hsz⟩ := reachable_geometry hs
  have hempty : s.active = ∅ := hi.committer_alone (by simp [hp])
  refine ⟨by rw [hi.outstanding_eq, hempty]; rfl, hempty, fun b hb => (hi.lh_pinned b hb).1, ?_⟩
  have hsize' : s.log.lh.length + 1 ≤ s.log.size := by
    by_cases hl : s.log.lh = []
    · simp [hl, hsz, hsize]
    · exact hi.lh_size hl
  have h := commit_crash_atomic s.log s.bc hi.lh_le hsize' (fun b hb => hi.lh_blk b hb) hi.clean k
  have hdone := fun hk : 2 * s.log.lh.length + 2 ≤ k =>
    commit_crash_done s.log s.bc hsize' (fun b hb => hi.lh_blk b hb) hk
  rw [hstart, hsz] at h
  exact ⟨h.1, h.2, hdone⟩

/-- **The log is all-or-nothing**: every commit of every run of the protocol
is crash-atomic, happens with no system call in flight, and once all its
writes are on disk leaves the cache's data; and recovery redone after a
crash during recovery ends as one recovery does. -/
theorem log_all_or_nothing :
    (∀ start size : Nat, 1 ≤ size → ∀ (d : Nat → Blk) (s : LogSys), Reachable start size d s →
      ∀ p, s.committer = some p → ∀ k : Nat,
        s.log.outstanding = 0 ∧ s.active = ∅ ∧ (∀ b ∈ s.log.lh, s.bc.buf b ≠ none) ∧
        let R := recovered s.log (crashAt s.bc (s.log.commit s.bc).2 k)
        ((∀ b ∈ s.log.lh, R b = s.bc.read b) ∨ (∀ b ∈ s.log.lh, R b = s.bc.disk b)) ∧
          (∀ b, b ∉ s.log.lh → (b < start ∨ start + size ≤ b) → R b = s.bc.disk b) ∧
          (2 * s.log.lh.length + 2 ≤ k → ∀ b ∈ s.log.lh, R b = s.bc.read b)) ∧
    (∀ (lg : Log) (d : Nat → Blk),
      (∀ b ∈ headBlocks (d lg.start), OffLog lg.start (headBlocks (d lg.start)).length b) →
      ∀ k : Nat, recovered lg (crashAt (Bcache.boot d) (lg.recoverFromLog (Bcache.boot d)).2 k) =
        recovered lg d) :=
  ⟨fun _ _ hsize _ _ hs _ hp k => commit_atomic hsize hs hp k,
    fun lg d hoff k => recover_crash_idem lg d hoff k⟩

/-- A block of ones. -/
def onesBlk : Blk := fun _ => 1

/-- One system call logging block 100 and ending, on the `mkfs` log. -/
def oneWriteRun : List Event := [.begin 0, .write 0 100 onesBlk, .finish 0]

/-- The state of `oneWriteRun`, about to commit. -/
def oneWriteState : LogSys :=
  match (LogSys.init logstart nlog fun _ _ => 0).run oneWriteRun with
  | .ok (some s) => s
  | _ => LogSys.init logstart nlog fun _ _ => 0

theorem oneWriteState_run :
    (LogSys.init logstart nlog fun _ _ => 0).run oneWriteRun = .ok (some oneWriteState) := rfl

/-- The disk when the machine stops during `oneWriteState`'s commit, after
its log copy and its header write: the header names block `100`. -/
def oneWriteCrash : Nat → Blk := crashAt oneWriteState.bc (oneWriteState.log.commit oneWriteState.bc).2 2

theorem log_all_or_nothing_oneWrite :
    oneWriteState.committer = some 0 ∧
    (∀ k ∈ [3, 4], oneWriteState.log.outstanding = 0 ∧ oneWriteState.active = ∅ ∧
      (∀ b ∈ oneWriteState.log.lh, oneWriteState.bc.buf b ≠ none) ∧
      let R := recovered oneWriteState.log
        (crashAt oneWriteState.bc (oneWriteState.log.commit oneWriteState.bc).2 k)
      ((∀ b ∈ oneWriteState.log.lh, R b = oneWriteState.bc.read b) ∨
        (∀ b ∈ oneWriteState.log.lh, R b = oneWriteState.bc.disk b)) ∧
        (∀ b, b ∉ oneWriteState.log.lh → (b < logstart ∨ logstart + nlog ≤ b) →
          R b = oneWriteState.bc.disk b) ∧
        (2 * oneWriteState.log.lh.length + 2 ≤ k → ∀ b ∈ oneWriteState.log.lh,
          R b = oneWriteState.bc.read b)) ∧
    headBlocks (oneWriteCrash oneWriteState.log.start) = [100] ∧
    recovered oneWriteState.log (crashAt (Bcache.boot oneWriteCrash)
      (oneWriteState.log.recoverFromLog (Bcache.boot oneWriteCrash)).2 1) =
      recovered oneWriteState.log oneWriteCrash := by
  have hhead : headBlocks (oneWriteCrash oneWriteState.log.start) = [100] := by decide
  have hstart : oneWriteState.log.start = logstart := rfl
  refine ⟨rfl, fun k _ => log_all_or_nothing.1 logstart nlog (by decide) _ _
      (Reachable.init.run oneWriteState_run) 0 rfl k, hhead,
    log_all_or_nothing.2 oneWriteState.log oneWriteCrash (fun b hb => ?_) 1⟩
  -- the committed header names block `100`, off the log region
  rw [hhead, List.mem_singleton] at hb
  rw [hhead, hb, hstart]
  exact .inr (by decide)

/-! ## Log space -/

/-- The blocks process `p` passes to `log_write` in a list of events. -/
def blocksOf (p : Nat) : List Event → List Nat
  | [] => []
  | .write q b _ :: es => if q = p then b :: blocksOf p es else blocksOf p es
  | _ :: es => blocksOf p es

theorem blocksOf_append (p : Nat) (es es' : List Event) :
    blocksOf p (es ++ es') = blocksOf p es ++ blocksOf p es' := by
  induction es with
  | nil => rfl
  | cons e es ih =>
    cases e with
    | write q b x => simp only [List.cons_append, blocksOf, ih]; split <;> simp
    | _ => simp only [List.cons_append, blocksOf, ih]

/-- Process `p` writing each of the blocks `bs` (the data does not matter). -/
def writesBy (p : Nat) (bs : List Nat) : List Event := bs.map fun b => .write p b onesBlk

theorem blocksOf_writesBy (p q : Nat) (bs : List Nat) :
    blocksOf p (writesBy q bs) = if q = p then bs else [] := by
  induction bs with
  | nil => simp [writesBy, blocksOf]
  | cons b bs ih =>
    simp only [writesBy, List.map_cons, blocksOf] at ih ⊢
    rw [ih]; split <;> simp

/-- Three system calls admitted together, each logging `MAXOPBLOCKS`
distinct blocks of the data area. -/
def threeOpsRun : List Event :=
  [.begin 0, .begin 1, .begin 2] ++ writesBy 0 (List.range' 100 MAXOPBLOCKS) ++
    writesBy 1 (List.range' 110 MAXOPBLOCKS) ++ writesBy 2 (List.range' 120 MAXOPBLOCKS)

/-- **`log_write` panics within its reservation.** On the log `mkfs` lays out
(`sb.nlog = LOGSIZE`, so `log.size - 1 = LOGSIZE - 1` slots), `begin_op`
admits three system calls at once (`3 * MAXOPBLOCKS ≤ LOGSIZE`); each logs
`MAXOPBLOCKS` distinct blocks, and the last one's tenth `log_write` finds
`lh.n = log.size - 1` and panics. -/
theorem threeOps_too_big :
    (∀ p, (blocksOf p threeOpsRun).Nodup ∧ (blocksOf p threeOpsRun).length ≤ MAXOPBLOCKS) ∧
    (LogSys.init logstart nlog fun _ _ => 0).run threeOpsRun = .error "too big a transaction" := by
  refine ⟨fun p => ?_, rfl⟩
  simp only [threeOpsRun, blocksOf_append, blocksOf_writesBy]
  have h0 : blocksOf p [.begin 0, .begin 1, .begin 2] = [] := rfl
  rw [h0]
  rcases p with _ | _ | _ | p
  · decide
  · decide
  · decide
  · simp

end Xv6.Log
