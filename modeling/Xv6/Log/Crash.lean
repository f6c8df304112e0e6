import Xv6.Log.Basic

/-!
# Crash atomicity of a commit

`commit` issues its `bwrite`s in the order `write_log` (each logged block's
cached data to its log slot), `write_head` (the header naming them: the
commit point), `install_trans` (each log slot to its home block) and the
second `write_head` (the header cleared). A crash leaves the disk with a
prefix of these writes applied (`Bcache.Extends`); the reboot starts with an
empty cache and runs `recover_from_log`.

* `commit_extends`, `recoverFromLog_extends`: the write lists of the two
  procedures, from the state-passing model.
* `recover_of_clean`, `recover_of_committed`: what recovery leaves on a
  disk whose header is clear, or names blocks off the log.
* `commit_crash_atomic`: after a crash at any write of a commit and the
  recovery, either every logged block holds the data the cache held at the
  commit or every one holds its data from before, and no block outside the
  transaction and the log region changed.
* `recover_crash_idem`: a crash during recovery and a second recovery end
  with the disk one recovery gives.

The home blocks must lie off the log region; nothing else about them is
needed (absorption keeps them distinct, but a repeated block would be
written twice with the same data).
-/

namespace Xv6.Log

open WriteList Bcache

/-! ## The writes of each loop -/

/-- The writes `write_log` issues from slot `tail` on: the data `bread`
returns for each logged block, to its log slot. -/
def logCopies (start : Nat) (r : Nat → Blk) : Nat → List Nat → List (Nat × Blk)
  | _, [] => []
  | tail, b :: bs => (start + tail + 1, r b) :: logCopies start r (tail + 1) bs

/-- The writes `install_trans` issues from slot `tail` on: each log slot's
data to its home block. -/
def homeCopies (start : Nat) (r : Nat → Blk) : Nat → List Nat → List (Nat × Blk)
  | _, [] => []
  | tail, b :: bs => (b, r (start + tail + 1)) :: homeCopies start r (tail + 1) bs

/-- Block `b` is off the header and the first `N` log slots. -/
def OffLog (start N b : Nat) : Prop := b < start ∨ start + N < b

theorem OffLog.ne_slot {start N b j : Nat} (h : OffLog start N b) (hj : j < N) :
    b ≠ start + j + 1 := by
  unfold OffLog at h; omega

theorem OffLog.ne_start {start N b : Nat} (h : OffLog start N b) : b ≠ start := by
  unfold OffLog at h; omega

theorem logCopies_congr {start t : Nat} {bs : List Nat} {r q : Nat → Blk}
    (h : ∀ b ∈ bs, r b = q b) : logCopies start r t bs = logCopies start q t bs := by
  induction bs generalizing t with
  | nil => rfl
  | cons b bs ih =>
    simp only [logCopies, h b List.mem_cons_self,
      ih fun b' hb' => h b' (List.mem_cons_of_mem _ hb')]

theorem homeCopies_congr {start t : Nat} {bs : List Nat} {r q : Nat → Blk}
    (h : ∀ j, t ≤ j → j < t + bs.length → r (start + j + 1) = q (start + j + 1)) :
    homeCopies start r t bs = homeCopies start q t bs := by
  induction bs generalizing t with
  | nil => rfl
  | cons b bs ih =>
    simp only [homeCopies, List.length_cons] at h ⊢
    rw [h t (le_refl _) (by omega), ih fun j h1 h2 => h j (by omega) (by omega)]

theorem fst_mem_logCopies {start t : Nat} {r : Nat → Blk} {bs : List Nat}
    {p : Nat × Blk} (hp : p ∈ logCopies start r t bs) :
    ∃ j, t ≤ j ∧ j < t + bs.length ∧ p.1 = start + j + 1 := by
  induction bs generalizing t with
  | nil => cases hp
  | cons b bs ih =>
    rcases List.mem_cons.1 hp with rfl | hp
    · exact ⟨t, le_refl _, by simp, rfl⟩
    · obtain ⟨j, h1, h2, h3⟩ := ih hp
      exact ⟨j, by omega, by simp; omega, h3⟩

theorem fst_mem_homeCopies {start t : Nat} {r : Nat → Blk} {bs : List Nat}
    {p : Nat × Blk} (hp : p ∈ homeCopies start r t bs) : p.1 ∈ bs := by
  induction bs generalizing t with
  | nil => cases hp
  | cons b bs ih =>
    rcases List.mem_cons.1 hp with rfl | hp
    · exact List.mem_cons_self
    · exact List.mem_cons_of_mem _ (ih hp)

theorem applyWrites_logCopies_slot {start t j : Nat} {r : Nat → Blk} {bs : List Nat}
    (hj : j < bs.length) (d : Nat → Blk) :
    applyWrites (logCopies start r t bs) d (start + (t + j) + 1) = r bs[j] := by
  induction bs generalizing t j d with
  | nil => cases hj
  | cons b bs ih =>
    simp only [logCopies, applyWrites_cons]
    rcases j with _ | j
    · -- the later writes go to higher slots
      rw [applyWrites_of_forall_ne]
      · simp
      · intro p hp
        obtain ⟨i, hi, -, he⟩ := fst_mem_logCopies hp
        omega
    · rw [show start + (t + (j + 1)) + 1 = start + (t + 1 + j) + 1 by omega]
      exact ih (by simpa using hj) _

theorem homeCopies_eq_map {start t : Nat} {bs : List Nat} {r q : Nat → Blk}
    (h : ∀ j (hj : j < bs.length), q (start + (t + j) + 1) = r bs[j]) :
    homeCopies start q t bs = bs.map fun b => (b, r b) := by
  induction bs generalizing t with
  | nil => rfl
  | cons b bs ih =>
    have h0 := h 0 (by simp)
    simp only [Nat.add_zero, List.getElem_cons_zero] at h0
    simp only [homeCopies, List.map_cons, h0]
    congr 1
    exact ih fun j hj => by
      have := h (j + 1) (by simpa using hj)
      rwa [show start + (t + (j + 1)) + 1 = start + (t + 1 + j) + 1 by omega] at this

/-! ## The write lists of the procedures -/

section Specs

variable {start N : Nat}

/-- `write_log` from slot `t` (the loop's `tail`) issues `logCopies`. -/
theorem writeLog_extends {t : Nat} {bs : List Nat} (hN : t + bs.length ≤ N)
    (hoff : ∀ b ∈ bs, OffLog start N b) (c : Bcache) :
    Extends c (writeLog start t bs c) (logCopies start c.read t bs) := by
  induction bs generalizing t c with
  | nil => exact Extends.refl c
  | cons b bs ih =>
    simp only [List.length_cons] at hN
    simp only [writeLog, logCopies]
    -- the two reads change nothing; the write fills slot `t`
    have e1 := Extends.bread c (start + t + 1)
    have e2 := Extends.bread (c.bread (start + t + 1)).2 b
    have hx : ((c.bread (start + t + 1)).2.bread b).1 = c.read b := by
      rw [bread_fst, bread_read]
    rw [hx]
    have e3 := Extends.bwrite ((c.bread (start + t + 1)).2.bread b).2 (start + t + 1)
      (c.read b)
    have e4 := ih (t := t + 1) (by omega)
      (fun b' hb' => hoff b' (List.mem_cons_of_mem _ hb'))
      ((((c.bread (start + t + 1)).2.bread b).2).bwrite (start + t + 1) (c.read b))
    rw [bwrite_read, bread_read, bread_read,
      logCopies_congr (q := c.read) (fun b' hb' => Function.update_of_ne
        ((hoff b' (List.mem_cons_of_mem _ hb')).ne_slot (by omega)) _ _)] at e4
    simpa using ((e1.trans e2).trans e3).trans e4

/-- `install_trans` from slot `t` (the loop's `tail`) issues `homeCopies`. -/
theorem installTrans_extends (recovering : Bool) {t : Nat} {bs : List Nat}
    (hN : t + bs.length ≤ N) (hoff : ∀ b ∈ bs, OffLog start N b) (c : Bcache) :
    Extends c (installTrans recovering start t bs c) (homeCopies start c.read t bs) := by
  induction bs generalizing t c with
  | nil => exact Extends.refl c
  | cons b bs ih =>
    simp only [List.length_cons] at hN
    simp only [installTrans, homeCopies]
    have hx : (c.bread (start + t + 1)).1 = c.read (start + t + 1) := bread_fst ..
    rw [hx]
    set c₂ := ((c.bread (start + t + 1)).2.bread b).2 with hc₂
    have e12 : Extends c c₂ [] := by
      simpa using (Extends.bread c _).trans (Extends.bread _ b)
    have e3 := Extends.bwrite c₂ b (c.read (start + t + 1))
    -- `bunpin` touches neither the disk nor the data
    have e4 : Extends (c₂.bwrite b (c.read (start + t + 1)))
        (if recovering then c₂.bwrite b (c.read (start + t + 1))
          else (c₂.bwrite b (c.read (start + t + 1))).bunpin b) [] := by
      cases recovering
      · exact Extends.bunpin _ _
      · exact Extends.refl _
    have hread : (if recovering then c₂.bwrite b (c.read (start + t + 1))
          else (c₂.bwrite b (c.read (start + t + 1))).bunpin b).read =
        Function.update c.read b (c.read (start + t + 1)) := by
      cases recovering <;> simp [hc₂]
    have e5 := ih (t := t + 1) (by omega)
      (fun b' hb' => hoff b' (List.mem_cons_of_mem _ hb'))
      (if recovering then c₂.bwrite b (c.read (start + t + 1))
        else (c₂.bwrite b (c.read (start + t + 1))).bunpin b)
    rw [hread, homeCopies_congr (q := c.read) (fun j h1 h2 => Function.update_of_ne
      (Ne.symm ((hoff b List.mem_cons_self).ne_slot (by omega))) _ _)] at e5
    simpa using ((e12.trans e3).trans e4).trans e5

end Specs

theorem writeHead_extends (lg : Log) (c : Bcache) :
    Extends c (lg.writeHead c) [(lg.start, setHead (c.read lg.start) lg.lh)] := by
  simp only [writeHead]
  rw [bread_fst]
  simpa using (Extends.bread c lg.start).trans (Extends.bwrite _ lg.start _)

theorem readHead_fst (lg : Log) (c : Bcache) :
    (lg.readHead c).1 = { lg with lh := headBlocks (c.read lg.start) } := by
  simp only [readHead, bread_fst]

theorem readHead_extends (lg : Log) (c : Bcache) : Extends c (lg.readHead c).2 [] :=
  Extends.bread c lg.start

theorem recoverFromLog_fst (lg : Log) (c : Bcache) :
    (lg.recoverFromLog c).1 = { lg with lh := [] } := by
  simp only [recoverFromLog, readHead_fst]

theorem recoverFromLog_clean (lg : Log) (c : Bcache) :
    headN ((lg.recoverFromLog c).2.disk lg.start) = 0 := by
  have h := writeHead_disk_start { lg with lh := [] }
    (installTrans true (lg.readHead c).1.start 0 (lg.readHead c).1.lh (lg.readHead c).2)
  simp only [recoverFromLog, readHead_fst] at h ⊢
  rw [h, headN_setHead (by simp), List.length_nil]

theorem length_logCopies (start t : Nat) (r : Nat → Blk) (bs : List Nat) :
    (logCopies start r t bs).length = bs.length := by
  induction bs generalizing t with
  | nil => rfl
  | cons b bs ih => simp [logCopies, ih]

/-! ## Commit and recovery -/

/-- The writes of a commit of the header `lh` over the cache view `r`:
`write_log`, `write_head`, `install_trans`, `write_head`. -/
def commitWrites (start : Nat) (r : Nat → Blk) (lh : List Nat) : List (Nat × Blk) :=
  logCopies start r 0 lh ++ [(start, setHead (r start) lh)] ++ lh.map (fun b => (b, r b)) ++
    [(start, setHead (setHead (r start) lh) [])]

theorem commit_snd (lg : Log) (c : Bcache) (hn : 0 < lg.lh.length) :
    (lg.commit c).2 = { lg with lh := [] }.writeHead
      (installTrans false lg.start 0 lg.lh (lg.writeHead (writeLog lg.start 0 lg.lh c))) := by
  simp [commit, hn]

theorem commit_of_nil (lg : Log) (c : Bcache) (hn : lg.lh = []) : lg.commit c = (lg, c) := by
  simp [commit, hn]

/-- **The writes of a commit.** -/
theorem commit_extends (lg : Log) (c : Bcache) (hn : 0 < lg.lh.length)
    (hoff : ∀ b ∈ lg.lh, OffLog lg.start lg.lh.length b) :
    Extends c (lg.commit c).2 (commitWrites lg.start c.read lg.lh) := by
  have e1 := writeLog_extends (t := 0) (by omega) hoff c
  have h1 : (writeLog lg.start 0 lg.lh c).read lg.start = c.read lg.start := by
    rw [e1.2.2, applyWrites_of_forall_ne]
    intro p hp
    obtain ⟨j, -, -, he⟩ := fst_mem_logCopies hp
    omega
  have e2 := writeHead_extends lg (writeLog lg.start 0 lg.lh c)
  have e3 := installTrans_extends false (t := 0) (by omega) hoff
    (lg.writeHead (writeLog lg.start 0 lg.lh c))
  -- `install_trans` reads back from each slot what `write_log` put there
  have hslots : homeCopies lg.start (lg.writeHead (writeLog lg.start 0 lg.lh c)).read 0 lg.lh =
      lg.lh.map fun b => (b, c.read b) := by
    apply homeCopies_eq_map
    intro j hj
    rw [e2.2.2, applyWrites_singleton, Function.update_of_ne (by omega), e1.2.2]
    simpa using applyWrites_logCopies_slot (t := 0) hj c.read
  rw [hslots] at e3
  have h3 : (installTrans false lg.start 0 lg.lh (lg.writeHead (writeLog lg.start 0 lg.lh c))).read
      lg.start = setHead (c.read lg.start) lg.lh := by
    rw [e3.2.2, applyWrites_of_forall_ne, e2.2.2, h1]
    · simp
    · intro p hp
      obtain ⟨b, hb, rfl⟩ := List.mem_map.1 hp
      exact (hoff b hb).ne_start
  have e4 := writeHead_extends { lg with lh := [] }
    (installTrans false lg.start 0 lg.lh (lg.writeHead (writeLog lg.start 0 lg.lh c)))
  simp only [h3] at e4
  rw [commit_snd lg c hn]
  simpa [commitWrites, h1] using ((e1.trans e2).trans e3).trans e4

/-- The writes of `recover_from_log` from the cache view `r`. -/
def recoverWrites (start : Nat) (r : Nat → Blk) : List (Nat × Blk) :=
  homeCopies start r 0 (headBlocks (r start)) ++ [(start, setHead (r start) [])]

/-- **The writes of a recovery.** -/
theorem recoverFromLog_extends (lg : Log) (c : Bcache)
    (hoff : ∀ b ∈ headBlocks (c.read lg.start),
      OffLog lg.start (headBlocks (c.read lg.start)).length b) :
    Extends c (lg.recoverFromLog c).2 (recoverWrites lg.start c.read) := by
  have e1 := readHead_extends lg c
  have hr := readHead_fst lg c
  have e2 := installTrans_extends true (t := 0) (by omega) hoff (lg.readHead c).2
  have hread : (lg.readHead c).2.read = c.read := by rw [e1.2.2]; rfl
  rw [hread] at e2
  have h2 : (installTrans true lg.start 0 (headBlocks (c.read lg.start)) (lg.readHead c).2).read
      lg.start = c.read lg.start := by
    rw [e2.2.2, applyWrites_of_forall_ne
      (fun p hp => (hoff _ (fst_mem_homeCopies hp)).ne_start), hread]
  have e3 := writeHead_extends { lg with lh := [] }
    (installTrans true lg.start 0 (headBlocks (c.read lg.start)) (lg.readHead c).2)
  simp only [h2] at e3
  have hrec : (lg.recoverFromLog c).2 = { lg with lh := [] }.writeHead
      (installTrans true lg.start 0 (headBlocks (c.read lg.start)) (lg.readHead c).2) := by
    simp only [recoverFromLog, hr]
  rw [hrec]
  simpa [recoverWrites] using (e1.trans e2).trans e3

/-! ## Crashes -/

/-- The disk after a reboot on `d` and `recover_from_log`. -/
def recovered (lg : Log) (d : Nat → Blk) : Nat → Blk := (lg.recoverFromLog (Bcache.boot d)).2.disk

/-- The disk when the machine stops after the first `k` of the writes that
took `c` to `c'`. -/
def crashAt (c c' : Bcache) (k : Nat) : Nat → Blk :=
  applyWrites ((c'.writes.drop c.writes.length).take k) c.disk

theorem recovered_eq (lg : Log) (d : Nat → Blk)
    (hoff : ∀ b ∈ headBlocks (d lg.start), OffLog lg.start (headBlocks (d lg.start)).length b) :
    recovered lg d = applyWrites (recoverWrites lg.start d) d :=
  (recoverFromLog_extends lg (Bcache.boot d) hoff).2.1

theorem recovered_of_clean (lg : Log) {d : Nat → Blk} (hd : headN (d lg.start) = 0) :
    recovered lg d = Function.update d lg.start (setHead (d lg.start) []) := by
  have hb : headBlocks (d lg.start) = [] := by simp [headBlocks, hd]
  rw [recovered_eq lg d (by simp [hb]), recoverWrites, hb]
  rfl

theorem recovered_of_not_mem (lg : Log) {d : Nat → Blk}
    (hoff : ∀ b ∈ headBlocks (d lg.start), OffLog lg.start (headBlocks (d lg.start)).length b)
    {x : Nat} (hx : x ∉ headBlocks (d lg.start)) (hs : x ≠ lg.start) : recovered lg d x = d x := by
  rw [recovered_eq lg d hoff]
  apply applyWrites_of_forall_ne
  intro p hp
  rcases List.mem_append.1 hp with hp | hp
  · exact fun e => hx (e ▸ fst_mem_homeCopies hp)
  · rw [List.mem_singleton.1 hp]; exact Ne.symm hs

/-! ## A crash during a commit -/

section CommitCrash

variable {start : Nat} {r d : Nat → Blk} {lh : List Nat}

theorem fst_mem_commitWrites {p : Nat × Blk} (hp : p ∈ commitWrites start r lh) :
    p.1 ∈ lh ∨ p.1 = start ∨ ∃ j, j < lh.length ∧ p.1 = start + j + 1 := by
  simp only [commitWrites, List.mem_append, List.mem_singleton, List.mem_map] at hp
  rcases hp with ((hp | rfl) | ⟨b, hb, rfl⟩) | rfl
  · obtain ⟨j, -, hj, he⟩ := fst_mem_logCopies hp
    exact .inr (.inr ⟨j, by omega, he⟩)
  · exact .inr (.inl rfl)
  · exact .inl hb
  · exact .inr (.inl rfl)

theorem commitWrites_frame {N x : Nat} (hN : lh.length ≤ N) (hx : x ∉ lh) (hoff : OffLog start N x)
    (k : Nat) : applyWrites ((commitWrites start r lh).take k) d x = d x := by
  apply applyWrites_of_forall_ne
  intro p hp
  rcases fst_mem_commitWrites (List.mem_of_mem_take hp) with h | h | ⟨j, hj, h⟩
  · exact fun e => hx (e ▸ h)
  · rw [h]; exact Ne.symm hoff.ne_start
  · rw [h]; exact Ne.symm (hoff.ne_slot (by omega))

theorem commit_done (hoff : ∀ b ∈ lh, OffLog start lh.length b) {k : Nat} (hk : 2 * lh.length + 2 ≤ k) :
    let dk := applyWrites ((commitWrites start r lh).take k) d
    headN (dk start) = 0 ∧ ∀ b ∈ lh, dk b = r b := by
  intro dk
  have hL := length_logCopies start 0 r lh
  have htake : (commitWrites start r lh).take k = commitWrites start r lh :=
    List.take_of_length_le (by simp [commitWrites, hL]; omega)
  simp only [dk]
  rw [htake, commitWrites]
  simp only [applyWrites_append, applyWrites_singleton]
  refine ⟨by rw [Function.update_self, headN_setHead (by simp), List.length_nil], fun b hb' => ?_⟩
  rw [Function.update_of_ne (hoff b hb').ne_start]
  exact applyWrites_map_self hb' _

/-- **The three crash windows of a commit**: before the commit point the
header is clear and no logged block has moved; after it and before the
second `write_head` the header names the transaction and the slots hold its
data; after that the header is clear and every logged block is home. -/
theorem commit_crash_cases (hlen : lh.length ≤ LOGSIZE) (hb : ∀ b ∈ lh, b < 2 ^ 32)
    (hoff : ∀ b ∈ lh, OffLog start lh.length b) (hclean : headN (d start) = 0) (k : Nat) :
    let dk := applyWrites ((commitWrites start r lh).take k) d
    (headN (dk start) = 0 ∧ ∀ b ∈ lh, dk b = d b) ∨
    (headBlocks (dk start) = lh ∧ ∀ j (hj : j < lh.length), dk (start + j + 1) = r lh[j]) ∨
    (headN (dk start) = 0 ∧ ∀ b ∈ lh, dk b = r b) := by
  intro dk
  have hL := length_logCopies start 0 r lh
  -- keys of the home writes are off the header and the slots
  have hM : ∀ x, x = start ∨ (∃ j, j < lh.length ∧ x = start + j + 1) →
      ∀ m (e : Nat → Blk), applyWrites ((lh.map fun b => (b, r b)).take m) e x = e x := by
    intro x hx m e
    apply applyWrites_of_forall_ne
    intro p hp
    obtain ⟨b, hb', rfl⟩ := List.mem_map.1 (List.mem_of_mem_take hp)
    rcases hx with rfl | ⟨j, hj, rfl⟩
    · exact (hoff b hb').ne_start
    · exact (hoff b hb').ne_slot hj
  rcases Nat.lt_or_ge lh.length k with hk | hk
  · rcases Nat.lt_or_ge (2 * lh.length + 1) k with hk2 | hk2
    · -- the whole commit went through
      right; right
      exact commit_done hoff (by omega)
    · -- the header is on disk: the transaction is committed
      right; left
      obtain ⟨m, rfl⟩ : ∃ m, k = (logCopies start r 0 lh ++ [(start, setHead (r start) lh)]).length
          + m := ⟨k - lh.length - 1, by simp [hL]; omega⟩
      have htake : (commitWrites start r lh).take
          ((logCopies start r 0 lh ++ [(start, setHead (r start) lh)]).length + m) =
          logCopies start r 0 lh ++ [(start, setHead (r start) lh)] ++
            (lh.map fun b => (b, r b)).take m := by
        rw [commitWrites, List.take_append_of_le_length (by simp [hL] at hk2 ⊢; omega),
          List.take_length_add_append]
      simp only [dk]
      rw [htake]
      simp only [applyWrites_append, applyWrites_singleton]
      refine ⟨?_, fun j hj => ?_⟩
      · rw [hM start (.inl rfl), Function.update_self, headBlocks_setHead hlen hb]
      · rw [hM _ (.inr ⟨j, hj, rfl⟩), Function.update_of_ne (by omega)]
        simpa using applyWrites_logCopies_slot (t := 0) hj d
  · -- the header is still clear
    left
    have htake : (commitWrites start r lh).take k = (logCopies start r 0 lh).take k := by
      rw [commitWrites, List.append_assoc, List.append_assoc,
        List.take_append_of_le_length (by omega)]
    have hframe : ∀ x, (x = start ∨ ∀ j, j < lh.length → x ≠ start + j + 1) → dk x = d x := by
      intro x hx
      simp only [dk, htake]
      apply applyWrites_of_forall_ne
      intro p hp
      obtain ⟨j, -, hj, he⟩ := fst_mem_logCopies (List.mem_of_mem_take hp)
      rcases hx with rfl | hx
      · rw [he]; omega
      · rw [he]; exact Ne.symm (hx j (by omega))
    exact ⟨by rw [hframe start (.inl rfl), hclean],
      fun b hb' => hframe b (.inr fun j hj => (hoff b hb').ne_slot hj)⟩

end CommitCrash

/-- **Crash atomicity of `commit`.** For a log whose header fits in the header
block and in the log region, naming blocks off the log region, on a disk whose
header is clear: stop the machine after any number `k` of the commit's
writes, reboot and recover. Then either every logged block holds what `bread`
returned for it at the commit (the cache's data) or every one holds its data
from before the commit, and every block outside the transaction and the log
region holds its data from before. -/
theorem commit_crash_atomic (lg : Log) (c : Bcache) (hlen : lg.lh.length ≤ LOGSIZE)
    (hsize : lg.lh.length + 1 ≤ lg.size)
    (hblk : ∀ b ∈ lg.lh, b < 2 ^ 32 ∧ (b < lg.start ∨ lg.start + lg.size ≤ b))
    (hclean : headN (c.disk lg.start) = 0) (k : Nat) :
    let R := recovered lg (crashAt c (lg.commit c).2 k)
    ((∀ b ∈ lg.lh, R b = c.read b) ∨ (∀ b ∈ lg.lh, R b = c.disk b)) ∧
      ∀ b, b ∉ lg.lh → (b < lg.start ∨ lg.start + lg.size ≤ b) → R b = c.disk b := by
  intro R
  have hoff : ∀ b ∈ lg.lh, OffLog lg.start lg.lh.length b := fun b hb => by
    have := (hblk b hb).2; unfold OffLog; omega
  have hoffN : ∀ b, (b < lg.start ∨ lg.start + lg.size ≤ b) → OffLog lg.start lg.lh.length b :=
    fun b hb => by unfold OffLog; omega
  by_cases hnil : lg.lh = []
  · -- an empty transaction writes nothing
    have hR : R = Function.update c.disk lg.start (setHead (c.disk lg.start) []) := by
      simp only [R, crashAt, commit_of_nil lg c hnil, List.drop_length, List.take_nil,
        applyWrites_nil]
      exact recovered_of_clean lg hclean
    refine ⟨.inl (by simp [hnil]), fun b _ hb => ?_⟩
    rw [hR, Function.update_of_ne (hoffN b hb).ne_start]
  · have hn : 0 < lg.lh.length := List.length_pos_iff.2 hnil
    have hcrash : crashAt c (lg.commit c).2 k =
        applyWrites ((commitWrites lg.start c.read lg.lh).take k) c.disk := by
      rw [crashAt, (commit_extends lg c hn hoff).writes_eq]
    -- recovery changes only the header and the blocks the header names
    have hframe : ∀ b, b ∉ lg.lh → (b < lg.start ∨ lg.start + lg.size ≤ b) → R b = c.disk b := by
      intro b hb hbo
      have hhead := commit_crash_cases (r := c.read) hlen (fun b hb => (hblk b hb).1) hoff hclean k
      have hoffR : ∀ x ∈ headBlocks (crashAt c (lg.commit c).2 k lg.start),
          OffLog lg.start (headBlocks (crashAt c (lg.commit c).2 k lg.start)).length x := by
        rw [hcrash]
        rcases hhead with ⟨h0, -⟩ | ⟨h1, -⟩ | ⟨h0, -⟩
        · simp [headBlocks, h0]
        · rw [h1]; exact hoff
        · simp [headBlocks, h0]
      have hbh : b ∉ headBlocks (crashAt c (lg.commit c).2 k lg.start) := by
        rw [hcrash]
        rcases hhead with ⟨h0, -⟩ | ⟨h1, -⟩ | ⟨h0, -⟩
        · simp [headBlocks, h0]
        · rw [h1]; exact hb
        · simp [headBlocks, h0]
      simp only [R]
      rw [recovered_of_not_mem lg hoffR hbh (hoffN b hbo).ne_start, hcrash,
        commitWrites_frame (le_refl _) hb (hoffN b hbo)]
    refine ⟨?_, hframe⟩
    rcases commit_crash_cases (r := c.read) hlen (fun b hb => (hblk b hb).1) hoff hclean k with
      ⟨h0, hold⟩ | ⟨h1, hslot⟩ | ⟨h0, hnew⟩
    · -- crashed before the commit point: nothing moved
      right
      intro b hb
      simp only [R, hcrash]
      rw [recovered_of_clean lg h0, Function.update_of_ne (hoff b hb).ne_start, hold b hb]
    · -- crashed after it: recovery installs every logged block
      left
      intro b hb
      have hrec := recovered_eq lg (applyWrites ((commitWrites lg.start c.read lg.lh).take k) c.disk)
        (by rw [h1]; exact hoff)
      have hhome : homeCopies lg.start (applyWrites ((commitWrites lg.start c.read lg.lh).take k)
          c.disk) 0 lg.lh = lg.lh.map fun b => (b, c.read b) :=
        homeCopies_eq_map fun j hj => by simpa using hslot j hj
      simp only [R, hcrash]
      rw [hrec, recoverWrites, h1, hhome, applyWrites_append, applyWrites_singleton,
        Function.update_of_ne (hoff b hb).ne_start]
      exact applyWrites_map_self hb _
    · -- crashed after the commit finished
      left
      intro b hb
      simp only [R, hcrash]
      rw [recovered_of_clean lg h0, Function.update_of_ne (hoff b hb).ne_start, hnew b hb]

theorem commit_crash_done (lg : Log) (c : Bcache) (hsize : lg.lh.length + 1 ≤ lg.size)
    (hblk : ∀ b ∈ lg.lh, b < 2 ^ 32 ∧ (b < lg.start ∨ lg.start + lg.size ≤ b))
    {k : Nat} (hk : 2 * lg.lh.length + 2 ≤ k) :
    ∀ b ∈ lg.lh, recovered lg (crashAt c (lg.commit c).2 k) b = c.read b := by
  intro b hb
  have hoff : ∀ b ∈ lg.lh, OffLog lg.start lg.lh.length b := fun b hb => by
    have := (hblk b hb).2; unfold OffLog; omega
  have hcrash : crashAt c (lg.commit c).2 k =
      applyWrites ((commitWrites lg.start c.read lg.lh).take k) c.disk := by
    rw [crashAt, (commit_extends lg c (List.length_pos_of_mem hb) hoff).writes_eq]
  obtain ⟨h0, hnew⟩ := commit_done (r := c.read) (d := c.disk) hoff hk
  rw [hcrash, recovered_of_clean lg h0, Function.update_of_ne (hoff b hb).ne_start, hnew b hb]

/-- **Recovery is idempotent under a crash.** Stop the machine after any
number of the writes of `recover_from_log` and recover again: the disk ends as
one uninterrupted recovery leaves it. -/
theorem recover_crash_idem (lg : Log) (d : Nat → Blk)
    (hoff : ∀ b ∈ headBlocks (d lg.start), OffLog lg.start (headBlocks (d lg.start)).length b)
    (k : Nat) :
    recovered lg (crashAt (Bcache.boot d) (lg.recoverFromLog (Bcache.boot d)).2 k) =
      recovered lg d := by
  have hcrash : crashAt (Bcache.boot d) (lg.recoverFromLog (Bcache.boot d)).2 k =
      applyWrites ((recoverWrites lg.start d).take k) d := by
    rw [crashAt, (recoverFromLog_extends lg (Bcache.boot d) hoff).writes_eq]; rfl
  rw [hcrash]
  rcases Nat.lt_or_ge (homeCopies lg.start d 0 (headBlocks (d lg.start))).length k with hk | hk
  · -- the header was cleared: the second recovery rewrites it unchanged
    have htake : (recoverWrites lg.start d).take k = recoverWrites lg.start d :=
      List.take_of_length_le (by simp [recoverWrites]; omega)
    rw [htake, ← recovered_eq lg d hoff]
    have hs : recovered lg d lg.start = setHead (d lg.start) [] := by
      rw [recovered_eq lg d hoff, recoverWrites, applyWrites_append, applyWrites_singleton,
        Function.update_self]
    rw [recovered_of_clean lg (by rw [hs]; exact headN_setHead (by simp)), hs, setHead_nil_idem,
      ← hs, Function.update_eq_self]
  · -- the header still names the blocks; the slots are untouched
    have htake : (recoverWrites lg.start d).take k =
        (homeCopies lg.start d 0 (headBlocks (d lg.start))).take k := by
      rw [recoverWrites, List.take_append_of_le_length hk]
    rw [htake]
    have hkeep : ∀ x, (x = lg.start ∨ ∃ j, j < (headBlocks (d lg.start)).length ∧
        x = lg.start + j + 1) →
        applyWrites ((homeCopies lg.start d 0 (headBlocks (d lg.start))).take k) d x = d x := by
      intro x hx
      apply applyWrites_of_forall_ne
      intro p hp
      have hb := hoff _ (fst_mem_homeCopies (List.mem_of_mem_take hp))
      rcases hx with rfl | ⟨j, hj, rfl⟩
      · exact hb.ne_start
      · exact hb.ne_slot hj
    have hstart := hkeep lg.start (.inl rfl)
    rw [recovered_eq lg _ (by rw [hstart]; exact hoff), recoverWrites, hstart,
      homeCopies_congr (q := d) fun j _ hj => hkeep _ (.inr ⟨j, by simpa using hj, rfl⟩),
      ← List.take_append_of_le_length hk, ← recoverWrites, applyWrites_take_then_all,
      recovered_eq lg d hoff]

end Xv6.Log
