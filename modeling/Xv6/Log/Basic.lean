import Xv6.Bio
import Xv6.Lib.LittleEndian

/-!
# The write-ahead log (`log.c`)

The in-memory log (`struct log`) with its header `lh`, and every function of
`log.c` over it and the buffer cache. `lh.block[0 .. lh.n)` is the list
`Log.lh`; its length is `lh.n`.

The on-disk header block holds `struct logheader` at the start of the block
data: the `int n` in bytes `0 … 3`, then `int block[i]` in bytes
`4 + 4 i … 7 + 4 i`, little-endian (`headN`, `headBlocks`, `setHead`). Block
numbers are `uint`s and go through the `int` fields bit for bit.

A function that may sleep (`begin_op`) returns `none` when the caller has to
wait; a `panic` is an `Except.error` with the panic's message.
-/

namespace Xv6

open LittleEndian

/-! ## The header block -/

/-- `lh->n` of a header block as `read_head` uses it: the loops over
`i < n` run no time for a negative `int`. -/
def headN (x : Blk) : Nat :=
  let v := readLE x.get 0 4
  if v < 2 ^ 31 then v else 0

/-- `lh->block[0 .. n)` of a header block. -/
def headBlocks (x : Blk) : List Nat :=
  (List.range (headN x)).map fun i => readLE x.get (4 + 4 * i) 4

/-- `hb->block[i] = log.lh.block[i]` for the entries from index `i` on. -/
def setEntries (f : Nat → UInt8) (i : Nat) : List Nat → Nat → UInt8
  | [] => f
  | b :: bs => setEntries (writeLE f (4 + 4 * i) 4 b) (i + 1) bs

/-- `write_head`'s change to the header buffer: `hb->n = log.lh.n` and the
`n` block numbers. -/
def setHead (x : Blk) (lh : List Nat) : Blk :=
  Blk.ofFn (setEntries (writeLE x.get 0 4 lh.length) 0 lh)

theorem readLE_ofFn {f : Nat → UInt8} {a n : Nat} (h : a + n ≤ BSIZE) :
    readLE (Blk.ofFn f).get a n = readLE f a n :=
  readLE_congr fun j hj => Blk.get_ofFn f (by omega)

theorem setEntries_of_lt {f : Nat → UInt8} {i i' : Nat} (bs : List Nat) (h : i' < 4 + 4 * i) :
    setEntries f i bs i' = f i' := by
  induction bs generalizing f i with
  | nil => rfl
  | cons b bs ih =>
    rw [setEntries, ih (by omega), writeLE_of_lt (by omega)]

theorem readLE_setEntries {f : Nat → UInt8} {i j : Nat} {bs : List Nat} (hj : j < bs.length) :
    readLE (setEntries f i bs) (4 + 4 * (i + j)) 4 = bs[j] % 2 ^ 32 := by
  induction bs generalizing f i j with
  | nil => cases hj
  | cons b bs ih =>
    rcases j with _ | j
    · -- the entry just written; the later entries lie above it
      rw [setEntries, readLE_congr (g := writeLE f (4 + 4 * i) 4 b)
        (fun k hk => setEntries_of_lt bs (by omega)), Nat.add_zero, readLE_writeLE_self]
      rfl
    · have := ih (f := writeLE f (4 + 4 * i) 4 b) (i := i + 1) (j := j)
        (by simpa using hj)
      rw [setEntries, show 4 + 4 * (i + (j + 1)) = 4 + 4 * (i + 1 + j) by omega, this]
      rfl

theorem setEntries_count {f : Nat → UInt8} {bs : List Nat} :
    readLE (setEntries f 0 bs) 0 4 = readLE f 0 4 :=
  readLE_congr fun _ hk => setEntries_of_lt bs (by omega)

theorem headN_setHead {x : Blk} {lh : List Nat} (hlen : lh.length ≤ LOGSIZE) :
    headN (setHead x lh) = lh.length := by
  have hl : lh.length < 2 ^ 32 := by simp only [LOGSIZE, MAXOPBLOCKS] at hlen; omega
  have hv : readLE (setHead x lh).get 0 4 = lh.length := by
    rw [setHead, readLE_ofFn (by simp [BSIZE]), setEntries_count,
      readLE_writeLE_self_of_lt hl]
  simp only [headN, hv]
  rw [if_pos (by simp only [LOGSIZE, MAXOPBLOCKS] at hlen; omega)]

/-- **Header round trip**: `read_head` after `write_head` gives back the
in-memory header. -/
theorem headBlocks_setHead {x : Blk} {lh : List Nat} (hlen : lh.length ≤ LOGSIZE)
    (hb : ∀ b ∈ lh, b < 2 ^ 32) : headBlocks (setHead x lh) = lh := by
  apply List.ext_getElem
  · simp [headBlocks, headN_setHead hlen]
  · intro j h1 h2
    simp only [headBlocks, List.getElem_map, List.getElem_range]
    have hfit : 4 + 4 * j + 4 ≤ BSIZE := by
      simp only [LOGSIZE, MAXOPBLOCKS] at hlen; simp only [BSIZE]; omega
    rw [setHead, readLE_ofFn hfit, show 4 + 4 * j = 4 + 4 * (0 + j) by omega,
      readLE_setEntries h2, Nat.mod_eq_of_lt (hb _ (List.getElem_mem h2))]

@[simp] theorem headBlocks_setHead_nil (x : Blk) : headBlocks (setHead x []) = [] := by
  have h : headN (setHead x []) = 0 := headN_setHead (by simp)
  simp [headBlocks, h]

theorem setHead_nil_idem (x : Blk) : setHead (setHead x []) [] = setHead x [] := by
  apply Blk.ext
  intro i hi
  rw [setHead, setHead, Blk.get_ofFn _ hi, Blk.get_ofFn _ hi]
  simp only [setEntries, List.length_nil]
  by_cases h4 : i < 4
  · rw [writeLE_of_mem (by omega) (by omega), writeLE_of_mem (by omega) (by omega)]
  · rw [writeLE_of_le (by omega), writeLE_of_le (by omega), Blk.get_ofFn _ hi,
      writeLE_of_le (by omega)]

/-! ## The log -/

/-- `struct log` (one device). -/
structure Log where
  /-- `log.start`: the header block; the data blocks follow it. -/
  start : Nat
  /-- `log.size`: `sb.nlog`, header block included. -/
  size : Nat
  /-- How many FS sys calls are executing. -/
  outstanding : Int
  /-- In `commit()`, please wait. -/
  committing : Bool
  /-- `lh.block[0 .. lh.n)`. -/
  lh : List Nat

namespace Log

/-- `install_trans(recovering)`: copy committed blocks from log to their home
location, from log slot `tail` on. -/
def installTrans (recovering : Bool) (start : Nat) : Nat → List Nat → Bcache → Bcache
  | _, [], c => c
  | tail, b :: bs, c =>
    let lbuf := c.bread (start + tail + 1)
    let dbuf := lbuf.2.bread b
    let c := dbuf.2.bwrite b lbuf.1
    let c := if recovering then c else c.bunpin b
    installTrans recovering start (tail + 1) bs c

/-- `read_head`: read the log header from disk into the in-memory header. -/
def readHead (lg : Log) (c : Bcache) : Log × Bcache :=
  let buf := c.bread lg.start
  ({ lg with lh := headBlocks buf.1 }, buf.2)

/-- `write_head`: write the in-memory header to disk, the true point at
which the current transaction commits. -/
def writeHead (lg : Log) (c : Bcache) : Bcache :=
  let buf := c.bread lg.start
  buf.2.bwrite lg.start (setHead buf.1 lg.lh)

/-- `recover_from_log`. -/
def recoverFromLog (lg : Log) (c : Bcache) : Log × Bcache :=
  let r := lg.readHead c
  let c := installTrans true r.1.start 0 r.1.lh r.2
  let lg := { r.1 with lh := [] }
  (lg, lg.writeHead c)

/-- `begin_op`: `none` while the caller must sleep (a commit is running, or
this op might exhaust log space). -/
def beginOp (lg : Log) : Option Log :=
  if lg.committing then none
  else if (LOGSIZE : Int) < lg.lh.length + (lg.outstanding + 1) * MAXOPBLOCKS then none
  else some { lg with outstanding := lg.outstanding + 1 }

/-- `end_op` up to the commit: the new log and `do_commit`. -/
def endOp (lg : Log) : Except String (Log × Bool) :=
  let lg := { lg with outstanding := lg.outstanding - 1 }
  if lg.committing then .error "log.committing"
  else if lg.outstanding = 0 then .ok ({ lg with committing := true }, true)
  else .ok (lg, false)

/-- `write_log`: copy modified blocks from cache to log, from slot `tail` on. -/
def writeLog (start : Nat) : Nat → List Nat → Bcache → Bcache
  | _, [], c => c
  | tail, b :: bs, c =>
    let dst := c.bread (start + tail + 1)
    let src := dst.2.bread b
    writeLog start (tail + 1) bs (src.2.bwrite (start + tail + 1) src.1)

/-- `commit`. -/
def commit (lg : Log) (c : Bcache) : Log × Bcache :=
  if 0 < lg.lh.length then
    let c := writeLog lg.start 0 lg.lh c
    let c := lg.writeHead c
    let c := installTrans false lg.start 0 lg.lh c
    let lg := { lg with lh := [] }
    (lg, lg.writeHead c)
  else (lg, c)

/-- `end_op` after `commit()` returned: `log.committing = 0`. -/
def commitDone (lg : Log) : Log := { lg with committing := false }

/-- `log_write(b)`: record the block number and pin the buffer, absorbing a
block already in the log. -/
def logWrite (lg : Log) (c : Bcache) (b : Nat) : Except String (Log × Bcache) :=
  if LOGSIZE ≤ lg.lh.length ∨ lg.size - 1 ≤ lg.lh.length then .error "too big a transaction"
  else if lg.outstanding < 1 then .error "log_write outside of trans"
  else if b ∈ lg.lh then .ok (lg, c)
  else .ok ({ lg with lh := lg.lh ++ [b] }, c.bpin b)

/-! ## What each step does -/

theorem beginOp_eq_some {lg lg' : Log} (h : lg.beginOp = some lg') :
    lg.committing = false ∧ lg' = { lg with outstanding := lg.outstanding + 1 } := by
  unfold beginOp at h
  split at h
  · cases h
  · rename_i hc
    split at h
    · cases h
    · exact ⟨by simpa using hc, (Option.some.inj h).symm⟩

theorem endOp_eq_ok {lg lg' : Log} {dc : Bool} (h : lg.endOp = .ok (lg', dc)) :
    lg.committing = false ∧ dc = decide (lg.outstanding - 1 = 0) ∧
      lg' = { lg with outstanding := lg.outstanding - 1, committing := dc } := by
  unfold endOp at h
  simp only at h
  split at h
  · cases h
  · rename_i hc
    simp only [Bool.not_eq_true] at hc
    split at h
    · rename_i h0
      cases h
      exact ⟨hc, by simp [h0], by simp⟩
    · rename_i h0
      cases h
      exact ⟨hc, by simp [h0], by cases lg; simp_all⟩

theorem logWrite_eq_ok {lg lg' : Log} {c c' : Bcache} {b : Nat}
    (h : lg.logWrite c b = .ok (lg', c')) :
    lg.lh.length < LOGSIZE ∧ lg.lh.length + 1 < lg.size ∧ 1 ≤ lg.outstanding ∧
      ((b ∈ lg.lh ∧ lg' = lg ∧ c' = c) ∨
        (b ∉ lg.lh ∧ lg' = { lg with lh := lg.lh ++ [b] } ∧ c' = c.bpin b)) := by
  unfold logWrite at h
  split at h
  · cases h
  · rename_i hg
    split at h
    · cases h
    · rename_i ho
      refine ⟨by omega, by omega, by omega, ?_⟩
      split at h
      · cases h; exact .inl ⟨‹_›, rfl, rfl⟩
      · cases h; exact .inr ⟨‹_›, rfl, rfl⟩

theorem commit_fst (lg : Log) (c : Bcache) : (lg.commit c).1 = { lg with lh := [] } := by
  unfold commit
  split
  · rfl
  · rename_i h
    have : lg.lh = [] := List.eq_nil_of_length_eq_zero (by omega)
    cases lg; simp_all

theorem writeHead_disk_start (lg : Log) (c : Bcache) :
    (lg.writeHead c).disk lg.start = setHead (c.read lg.start) lg.lh := by
  simp [writeHead, Bcache.bread_fst]

end Log

end Xv6
