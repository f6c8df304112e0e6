import Mathlib.Tactic

/-!
# Pipes (`pipe.c`)

`Pipe` is `struct pipe`: `PIPESIZE` bytes of data used as a ring, the
`uint` counters `nread` and `nwrite` (wrapping at `2 ^ 32`), and the two
open flags. The byte `pipewrite` deposits at `nwrite` lands in slot
`nwrite % PIPESIZE`; as `PIPESIZE` divides `2 ^ 32` the slots stay in step
across the wrap.

Both calls move one byte at a time between the pipe and the caller's
buffer (`copyin`/`copyout` of length `1`), which succeeds exactly when the
byte's page is mapped for the user. `UMem` is the caller's address space as
these one-byte copies see it.

`pipewrite` can sleep in the middle of a call, when the pipe is full: a
`WriteOut.sleep i` resumes the loop at byte `i` once a reader has made room.
`piperead` sleeps only before it copies anything (`none`); its copy loop runs
under the lock without sleeping.
-/

namespace Xv6

/-- `PIPESIZE`. -/
def PIPESIZE : Nat := 512

/-- The caller's memory as one-byte `copyin`/`copyout` see it: which
addresses lie on user-mapped pages, and the bytes there. -/
structure UMem where
  mapped : Nat → Bool
  byte : Nat → UInt8

namespace UMem

/-- `copyin(pagetable, &ch, va, 1)`. -/
def copyin1 (m : UMem) (va : Nat) : Option UInt8 := if m.mapped va then some (m.byte va) else none

/-- `copyout(pagetable, va, &ch, 1)`. -/
def copyout1 (m : UMem) (va : Nat) (ch : UInt8) : Option UMem :=
  if m.mapped va then some { m with byte := Function.update m.byte va ch } else none

end UMem

/-- `struct pipe` (its lock apart). -/
structure Pipe where
  data : Fin PIPESIZE → UInt8
  /-- Number of bytes read. -/
  nread : UInt32
  /-- Number of bytes written. -/
  nwrite : UInt32
  /-- Read fd is still open. -/
  readopen : Bool
  /-- Write fd is still open. -/
  writeopen : Bool

namespace Pipe

/-- The slot of position `n` of the byte stream. -/
def slotAt (n : Nat) : Fin PIPESIZE := ⟨n % PIPESIZE, Nat.mod_lt _ (by decide)⟩

/-- The slot of counter value `n`: `n % PIPESIZE`. -/
def slot (n : UInt32) : Fin PIPESIZE := slotAt n.toNat

/-- The pipe `pipealloc` sets up. -/
def alloc (data : Fin PIPESIZE → UInt8) : Pipe := ⟨data, 0, 0, true, true⟩

/-- `pipeclose(pi, writable)`; the page is freed when both ends are closed. -/
def close (pi : Pipe) (writable : Bool) : Pipe :=
  if writable then { pi with writeopen := false } else { pi with readopen := false }

/-- The open flag of the end that writes (`w`) or that reads. -/
def isOpen (pi : Pipe) (w : Bool) : Bool := if w then pi.writeopen else pi.readopen

@[simp] theorem isOpen_close (pi : Pipe) (w v : Bool) :
    (pi.close w).isOpen v = if v = w then false else pi.isOpen v := by
  cases v <;> cases w <;> rfl

@[simp] theorem isOpen_alloc (data : Fin PIPESIZE → UInt8) (w : Bool) : (alloc data).isOpen w = true := by
  cases w <;> rfl

/-- `pi->data[pi->nwrite++ % PIPESIZE] = ch`. -/
def put (pi : Pipe) (ch : UInt8) : Pipe :=
  { pi with data := Function.update pi.data (slot pi.nwrite) ch, nwrite := pi.nwrite + 1 }

/-- `ch = pi->data[pi->nread++ % PIPESIZE]`: the byte and the pipe after. -/
def get (pi : Pipe) : UInt8 × Pipe := (pi.data (slot pi.nread), { pi with nread := pi.nread + 1 })

/-- How a stretch of `pipewrite` under the lock ends. -/
inductive WriteOut where
  /-- Returns `i`: all `n` bytes, or the bytes before the first bad one. -/
  | done (i : Nat)
  /-- Returns `-1`: the read end is closed, or the caller was killed. -/
  | fail
  /-- Sleeps on a full pipe with `i` bytes deposited. -/
  | sleep (i : Nat)
  deriving DecidableEq, Repr

/-- The loop of `pipewrite` from byte `i`, with `k` bytes to go. -/
def writeLoop (m : UMem) (killed : Bool) (addr : Nat) (pi : Pipe) (i : Nat) : Nat → Pipe × WriteOut
  | 0 => (pi, .done i)
  | k + 1 =>
    if !pi.readopen || killed then (pi, .fail)
    else if pi.nwrite = pi.nread + PIPESIZE.toUInt32 then (pi, .sleep i)
    else
      match m.copyin1 (addr + i) with
      | none => (pi, .done i)
      | some ch =>
        writeLoop m killed addr (pi.put ch) (i + 1) k

/-- `pipewrite(pi, addr, n)` run under the lock from byte `i` (`0` for a
fresh call) until it returns or sleeps. -/
def pipewrite (m : UMem) (killed : Bool) (pi : Pipe) (addr : Nat) (n : Int) (i : Nat) :
    Pipe × WriteOut :=
  writeLoop m killed addr pi i (n.toNat - i)

/-- The copy loop of `piperead` at byte `i` with `k` bytes to go: the count
returned, the pipe and the caller's memory. -/
def readLoop (addr : Nat) (pi : Pipe) (m : UMem) (i : Nat) : Nat → Nat × Pipe × UMem
  | 0 => (i, pi, m)
  | k + 1 =>
    if pi.nread = pi.nwrite then (i, pi, m)
    else
      match m.copyout1 (addr + i) pi.get.1 with
      | none => (i, pi.get.2, m)
      | some m => readLoop addr pi.get.2 m (i + 1) k

/-- `piperead(pi, addr, n)` once it holds the lock: `none` while it sleeps
on an empty pipe with the write end open; `-1` for a killed caller. -/
def piperead (m : UMem) (killed : Bool) (pi : Pipe) (addr : Nat) (n : Int) :
    Option (Int × Pipe × UMem) :=
  if pi.nread = pi.nwrite ∧ pi.writeopen then
    if killed then some (-1, pi, m) else none
  else
    let r := readLoop addr pi m 0 n.toNat
    some (r.1, r.2.1, r.2.2)

/-! ## The ring as a queue

`count` is the `uint` difference `nwrite - nread`, and `contents` the bytes
at stream positions `nread, nread + 1, …`: the queue the ring stands for.
`put` appends to it and `get` takes its head, across the wrap of either
counter, as long as the ring is not full or not empty. -/

/-- The number of bytes in the pipe, `nwrite - nread`. -/
def count (pi : Pipe) : Nat := (pi.nwrite - pi.nread).toNat

/-- The bytes in the pipe, oldest first. -/
def contents (pi : Pipe) : List UInt8 :=
  (List.range pi.count).map fun j => pi.data (slotAt (pi.nread.toNat + j))

@[simp] theorem length_contents (pi : Pipe) : pi.contents.length = pi.count := by
  simp [contents]

theorem slotAt_eq_iff {a b : Nat} : slotAt a = slotAt b ↔ a % PIPESIZE = b % PIPESIZE := by
  simp [slotAt, Fin.ext_iff]

theorem slot_nwrite (pi : Pipe) : slot pi.nwrite = slotAt (pi.nread.toNat + pi.count) := by
  have := UInt32.toNat_lt pi.nread
  have := UInt32.toNat_lt pi.nwrite
  rw [slot, slotAt_eq_iff]
  simp only [count, PIPESIZE, UInt32.toNat_sub, Nat.reducePow]
  omega

theorem nread_eq_nwrite_iff (pi : Pipe) : pi.nread = pi.nwrite ↔ pi.count = 0 := by
  have := UInt32.toNat_lt pi.nread
  have := UInt32.toNat_lt pi.nwrite
  rw [← UInt32.toNat_inj]
  simp only [count, UInt32.toNat_sub, Nat.reducePow]
  omega

theorem full_iff (pi : Pipe) : pi.nwrite = pi.nread + PIPESIZE.toUInt32 ↔ pi.count = PIPESIZE := by
  have := UInt32.toNat_lt pi.nread
  have := UInt32.toNat_lt pi.nwrite
  rw [← UInt32.toNat_inj]
  simp only [count, PIPESIZE, UInt32.toNat_add, UInt32.toNat_sub, Nat.toUInt32_eq,
    UInt32.toNat_ofNat', Nat.reducePow, Nat.reduceMod]
  omega

theorem count_put (pi : Pipe) (ch : UInt8) (h : pi.count < PIPESIZE) :
    (pi.put ch).count = pi.count + 1 := by
  have := UInt32.toNat_lt pi.nread
  have := UInt32.toNat_lt pi.nwrite
  simp only [count, put, PIPESIZE, UInt32.toNat_add, UInt32.toNat_sub, UInt32.toNat_one,
    Nat.reducePow] at h ⊢
  omega

theorem contents_put (pi : Pipe) (ch : UInt8) (h : pi.count < PIPESIZE) :
    (pi.put ch).contents = pi.contents ++ [ch] := by
  rw [contents, count_put pi ch h, List.range_succ, List.map_append, contents]
  congr 1
  · refine List.map_congr_left fun j hj => ?_
    have hne : slotAt (pi.nread.toNat + j) ≠ slot pi.nwrite := by
      rw [slot_nwrite, Ne, slotAt_eq_iff]
      simp only [List.mem_range] at hj
      simp only [PIPESIZE] at h ⊢
      omega
    simp [put, Function.update_of_ne hne]
  · simp [put, slot_nwrite]

theorem count_get (pi : Pipe) (h : pi.count ≠ 0) : pi.get.2.count = pi.count - 1 := by
  have := UInt32.toNat_lt pi.nread
  have := UInt32.toNat_lt pi.nwrite
  simp only [count, get, UInt32.toNat_add, UInt32.toNat_sub, UInt32.toNat_one,
    Nat.reducePow] at h ⊢
  omega

theorem contents_get (pi : Pipe) (h : pi.count ≠ 0) : pi.contents = pi.get.1 :: pi.get.2.contents := by
  obtain ⟨c, hc⟩ := Nat.exists_eq_succ_of_ne_zero h
  have hc' : pi.get.2.count = c := by rw [count_get pi h, hc]; rfl
  rw [contents, contents, hc, hc', List.range_succ_eq_map, List.map_cons, List.map_map]
  -- the heads agree outright; the tails are read from `nread + 1`
  congr 1
  refine List.map_congr_left fun j _ => ?_
  have := UInt32.toNat_lt pi.nread
  have hs : slotAt (pi.nread.toNat + (j + 1)) = slotAt ((pi.nread + 1).toNat + j) := by
    rw [slotAt_eq_iff]
    simp only [PIPESIZE, UInt32.toNat_add, UInt32.toNat_one, Nat.reducePow]
    omega
  simp [get, hs]

@[simp] theorem put_readopen (pi : Pipe) (ch : UInt8) : (pi.put ch).readopen = pi.readopen := rfl
@[simp] theorem put_writeopen (pi : Pipe) (ch : UInt8) : (pi.put ch).writeopen = pi.writeopen := rfl
@[simp] theorem get_writeopen (pi : Pipe) : pi.get.2.writeopen = pi.writeopen := rfl

/-! ## One stretch under the lock -/

/-- The `len` bytes of the caller's buffer from address `va`. -/
def bytesFrom (m : UMem) (va len : Nat) : List UInt8 := (List.range' va len).map m.byte

theorem bytesFrom_succ (m : UMem) (va len : Nat) :
    bytesFrom m va (len + 1) = m.byte va :: bytesFrom m (va + 1) len := by
  simp [bytesFrom, List.range'_succ]

theorem copyin1_eq_some {m : UMem} {va : Nat} {ch : UInt8} (h : m.copyin1 va = some ch) :
    m.mapped va ∧ ch = m.byte va := by
  unfold UMem.copyin1 at h
  split at h
  · exact ⟨‹_›, (Option.some.inj h).symm⟩
  · cases h

/-- A stretch of `pipewrite` appends to the queue the bytes of the
caller's buffer it copied in, in order, and stops only on a bad byte, a full
pipe, or a closed read end or kill before it copies anything. -/
theorem writeLoop_spec (m : UMem) (killed : Bool) (addr : Nat) :
    ∀ (pi : Pipe) (i k : Nat), pi.count ≤ PIPESIZE →
    ∃ len, (writeLoop m killed addr pi i k).1.contents = pi.contents ++ bytesFrom m (addr + i) len ∧
      (writeLoop m killed addr pi i k).1.count ≤ PIPESIZE ∧
      (∀ j < len, m.mapped (addr + i + j)) ∧
      ((writeLoop m killed addr pi i k).2 = .done (i + len) ∨
        (writeLoop m killed addr pi i k).2 = .sleep (i + len) ∨
        ((writeLoop m killed addr pi i k).2 = .fail ∧ len = 0 ∧ (!pi.readopen || killed) = true))
  | pi, i, 0, h => ⟨0, by simp [writeLoop, bytesFrom], h, by simp, by simp [writeLoop]⟩
  | pi, i, k + 1, h => by
    unfold writeLoop
    split
    · exact ⟨0, by simp [bytesFrom], h, by simp, by simp_all⟩
    rename_i hgo
    split
    · exact ⟨0, by simp [bytesFrom], h, by simp, by simp⟩
    rename_i hfull
    have hlt : pi.count < PIPESIZE := lt_of_le_of_ne h (mt (full_iff pi).2 hfull)
    split
    · exact ⟨0, by simp [bytesFrom], h, by simp, by simp⟩
    rename_i ch hch
    obtain ⟨hmap, rfl⟩ := copyin1_eq_some hch
    obtain ⟨len, hc, hle, hmapped, hout⟩ :=
      writeLoop_spec m killed addr (pi.put (m.byte (addr + i))) (i + 1) k
        (by rw [count_put _ _ hlt]; omega)
    refine ⟨len + 1, ?_, hle, ?_, ?_⟩
    · rw [hc, contents_put _ _ hlt, bytesFrom_succ, List.append_assoc, List.singleton_append,
        ← Nat.add_assoc]
    · intro j hj
      rcases j with _ | j
      · simpa using hmap
      · simpa [Nat.add_assoc, Nat.add_comm 1 j] using hmapped j (by omega)
    · -- a later iteration cannot fail: `readopen` and `killed` are those of this one
      rcases hout with hout | hout | ⟨_, _, hfail⟩
      · exact Or.inl (by rw [hout]; congr 1; omega)
      · exact Or.inr (Or.inl (by rw [hout]; congr 1; omega))
      · simp_all

theorem copyout1_eq_some {m m' : UMem} {va : Nat} {ch : UInt8} (h : m.copyout1 va ch = some m') :
    m.mapped va ∧ m' = { m with byte := Function.update m.byte va ch } := by
  unfold UMem.copyout1 at h
  split at h
  · exact ⟨‹_›, (Option.some.inj h).symm⟩
  · cases h

theorem copyout1_eq_none {m : UMem} {va : Nat} {ch : UInt8} :
    m.copyout1 va ch = none ↔ m.mapped va = false := by
  unfold UMem.copyout1
  split <;> simp_all

theorem readLoop_mapped (addr : Nat) :
    ∀ (pi : Pipe) (m : UMem) (i k : Nat), (readLoop addr pi m i k).2.2.mapped = m.mapped
  | pi, m, i, 0 => rfl
  | pi, m, i, k + 1 => by
    unfold readLoop
    split
    · rfl
    split
    · rfl
    · rename_i m' hm
      rw [readLoop_mapped addr _ m' (i + 1) k, (copyout1_eq_some hm).2]

theorem readLoop_byte_of_lt (addr : Nat) :
    ∀ (pi : Pipe) (m : UMem) (i k va : Nat), va < addr + i →
    (readLoop addr pi m i k).2.2.byte va = m.byte va
  | pi, m, i, 0, va, _ => rfl
  | pi, m, i, k + 1, va, hva => by
    unfold readLoop
    split
    · rfl
    split
    · rfl
    · rename_i m' hm
      rw [readLoop_byte_of_lt addr _ m' (i + 1) k va (by omega), (copyout1_eq_some hm).2]
      simp [Function.update_of_ne (show va ≠ addr + i by omega)]

/-- The copy loop of `piperead` takes a prefix of the queue: the bytes `out`
it delivered to the caller's buffer, then at most one byte `drop` that it took
and could not deliver because the page was not mapped. -/
theorem readLoop_spec (addr : Nat) :
    ∀ (pi : Pipe) (m : UMem) (i k : Nat), pi.count ≤ PIPESIZE →
    ∃ out drop, pi.contents = out ++ drop ++ (readLoop addr pi m i k).2.1.contents ∧
      (readLoop addr pi m i k).1 = i + out.length ∧
      (readLoop addr pi m i k).2.1.count ≤ PIPESIZE ∧
      bytesFrom (readLoop addr pi m i k).2.2 (addr + i) out.length = out ∧
      (drop = [] ∨ drop.length = 1 ∧ m.mapped (addr + (readLoop addr pi m i k).1) = false)
  | pi, m, i, 0, h => ⟨[], [], by simp [readLoop], by simp [readLoop], h, by simp [bytesFrom], by simp⟩
  | pi, m, i, k + 1, h => by
    unfold readLoop
    split
    · exact ⟨[], [], by simp, by simp, h, by simp [bytesFrom], by simp⟩
    rename_i hne
    have hc : pi.count ≠ 0 := mt (nread_eq_nwrite_iff pi).2 hne
    have hle : pi.get.2.count ≤ PIPESIZE := by rw [count_get pi hc]; omega
    split
    · rename_i hm
      exact ⟨[], [pi.get.1], by simp [contents_get pi hc], by simp, hle, by simp [bytesFrom],
        Or.inr ⟨rfl, by simpa using copyout1_eq_none.1 hm⟩⟩
    · rename_i m' hm
      obtain ⟨hmap, rfl⟩ := copyout1_eq_some hm
      obtain ⟨out, drop, hq, hr, hle', hbytes, hdrop⟩ := readLoop_spec addr pi.get.2 _ (i + 1) k hle
      refine ⟨pi.get.1 :: out, drop, by simp [contents_get pi hc, hq], by simp [hr]; omega, hle',
        ?_, ?_⟩
      · rw [List.length_cons, bytesFrom_succ, Nat.add_assoc, hbytes,
          readLoop_byte_of_lt addr _ _ (i + 1) k _ (by omega)]
        simp
      · rcases hdrop with hdrop | ⟨hlen, hdrop⟩
        · exact Or.inl hdrop
        · exact Or.inr ⟨hlen, by simpa using hdrop⟩

/-- A writer's buffer holding "ab" from address `0`. -/
def abBuf : UMem := ⟨fun _ => true, fun va => if va = 0 then 97 else 98⟩

/-- A reader's buffer on an unmapped page. -/
def unmappedBuf : UMem := ⟨fun _ => false, fun _ => 0⟩

/-- A reader's buffer on a mapped page. -/
def mappedBuf : UMem := ⟨fun _ => true, fun _ => 0⟩

/-- A byte lost: after "ab" is written, a read into an unmapped buffer takes
the 'a' and returns `0` with the write end open, and the next read delivers
only the 'b'. -/
theorem piperead_drops_byte :
    ∃ pi₁ pi₂ pi₃ m₃,
      pipewrite abBuf false (alloc fun _ => 0) 0 2 0 = (pi₁, .done 2) ∧
      pi₁.contents = [97, 98] ∧ pi₁.writeopen = true ∧
      piperead unmappedBuf false pi₁ 0 1 = some (0, pi₂, unmappedBuf) ∧
      piperead mappedBuf false pi₂ 0 2 = some (1, pi₃, m₃) ∧
      bytesFrom m₃ 0 1 = [98] ∧ pi₃.contents = [] :=
  ⟨_, _, _, _, rfl, by decide, rfl, rfl, rfl, by decide, by decide⟩

end Pipe

end Xv6
