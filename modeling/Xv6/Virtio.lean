import Xv6.Param
import Xv6.Lib.Window
import Xv6.Lib.Exc

/-!
# The virtio disk driver's descriptors and rings (`kernel/virtio_disk.c`)

`virtio_disk_rw` takes three of the `NUM` DMA descriptors with
`alloc3_desc`, links them into a chain (request header, data, status),
publishes the chain's head in the avail ring and sleeps until
`virtio_disk_intr` has seen the head come back in the used ring and cleared
`b->disk`; it then frees the chain with `free_chain`. All of this runs under
`vdisk_lock`, released only while a call sleeps, so a call is two or three
steps here: from `acquire` (or a wakeup on `&disk.free[0]`) to the next
`sleep`, and from a wakeup on `b` on. A sleeping call may rerun its loop test
at any step: real wakeups are some of these runs, so whatever holds of every
run here holds of the kernel. The callers, `bread` and `bwrite`, hold the
buffer's sleep lock, so no two calls share a buffer.

The device is the environment. It reads the avail ring at its own `uint16`
index, works on the chains it has taken in any order, writes `0` to the
status byte its chain's third descriptor points to, and returns the head in
the used ring. `virtio_disk_intr` reads the used ring up to `used->idx`; its
loop runs under the lock but races with the device, and since a round of the
loop and a completion by the device touch different ring slots and different
status bytes, the loop is one step here.

Besides the driver's variables the state keeps a few ghost ones: the counts
of entries written and read on each ring (the `uint16` indices are these
counts wrapped at `2^16`), the request number of each published chain, and
which requests the device has completed.
-/

namespace Xv6.Virtio

open Window

/-- `NUM`: descriptors, and entries of each ring. -/
def NUM : Nat := 8

def VRING_DESC_F_NEXT : UInt16 := 1
def VRING_DESC_F_WRITE : UInt16 := 2

def VIRTIO_BLK_T_IN : UInt32 := 0
def VIRTIO_BLK_T_OUT : UInt32 := 1

/-- What a descriptor's `addr` points to: nothing, `&disk.ops[i]`, the data
of buffer `b`, or `&disk.info[i].status`. -/
inductive Addr
  | zero
  | op (i : Nat)
  | data (b : Nat)
  | status (i : Nat)
  deriving DecidableEq, Repr

/-- `struct virtq_desc`. -/
structure Desc where
  addr : Addr
  len : Nat
  flags : UInt16
  next : UInt16
  deriving DecidableEq, Repr

/-- The descriptor `free_desc` leaves, and `memset` at boot. -/
def Desc.zero : Desc := ⟨.zero, 0, 0, 0⟩

/-- `struct virtio_blk_req`. -/
structure BlkReq where
  type : UInt32
  reserved : UInt32
  sector : Nat
  deriving DecidableEq, Repr

/-- `struct virtq_avail` (its `flags` stay zero). -/
structure Avail where
  idx : UInt16
  ring : Nat → UInt16

/-- `struct virtq_used`, with the `id` of each ring entry. -/
structure Used where
  idx : UInt16
  ring : Nat → UInt32

/-- An entry of `disk.info`: the buffer of an in-flight chain, and the status
byte the device writes. -/
structure Info where
  b : Option Nat
  status : UInt8

/-- `struct disk`. -/
structure Disk where
  desc : Nat → Desc
  avail : Avail
  used : Used
  free : Nat → Bool
  usedIdx : UInt16
  info : Nat → Info
  ops : Nat → BlkReq

/-- Where a process is in `virtio_disk_rw(b, write)`. -/
inductive Call
  | idle
  /-- Asleep on `&disk.free[0]`: `alloc3_desc` found too few descriptors. -/
  | waitDesc (b : Nat) (write : Bool)
  /-- Asleep on `b` with its chain `idx[0..2]` published, for request `rid`
  (a ghost number). -/
  | waitDone (b : Nat) (write : Bool) (i0 i1 i2 : Nat) (rid : Nat)
  deriving DecidableEq, Repr

/-- The device: its index into the avail ring, and the chains it has taken. -/
structure Device where
  lastAvail : UInt16
  busy : List Nat

/-- The driver, the buffers' `disk` flags, the calls, the device, and the
ghost counts. -/
structure Sys where
  disk : Disk
  /-- `b->disk`. -/
  bufDisk : Nat → Bool
  /-- `b->blockno`. -/
  blockno : Nat → Nat
  call : Fin NPROC → Call
  dev : Device
  /-- Avail entries published, read by the device; used entries written by
  the device, read by `virtio_disk_intr`. -/
  nPub : Nat
  nFetch : Nat
  nComp : Nat
  nSeen : Nat
  /-- The request a chain head was last published for. -/
  ridOf : Nat → Nat
  /-- The requests the device has completed. -/
  completed : Nat → Bool

/-! ## The driver -/

/-- The loop of `alloc_desc` from descriptor `i`, `k` descriptors left. -/
def allocFrom (free : Nat → Bool) (i : Nat) : Nat → Option Nat
  | 0 => none
  | k + 1 => if free i then some i else allocFrom free (i + 1) k

/-- `alloc_desc()`: the first free descriptor, marked in use; `none` for
`-1`. -/
def allocDesc (d : Disk) : Option (Nat × Disk) :=
  match allocFrom d.free 0 NUM with
  | some i => some (i, { d with free := Function.update d.free i false })
  | none => none

/-- `free_desc(i)`. -/
def freeDesc (d : Disk) (i : Nat) : Except String Disk :=
  if NUM ≤ i then .error "free_desc 1"
  else if d.free i then .error "free_desc 2"
  else .ok { d with desc := Function.update d.desc i Desc.zero, free := Function.update d.free i true }

/-- The loop of `free_chain` at descriptor `i`, for at most `k` more rounds. -/
def freeChainLoop (d : Disk) (i : Nat) : Nat → Except String Disk
  | 0 => .error "free_chain"
  | k + 1 => do
    let flag := (d.desc i).flags
    let nxt := (d.desc i).next
    let d ← freeDesc d i
    if flag &&& VRING_DESC_F_NEXT ≠ 0 then freeChainLoop d nxt.toNat k else .ok d

/-- `free_chain(i)`. Its loop frees a descriptor a round or panics, so it
ends within `NUM + 1` rounds (`freeChainLoop_ne_error`). -/
def freeChain (d : Disk) (i : Nat) : Except String Disk := freeChainLoop d i (NUM + 1)

/-- `for(int j = 0; j < i; j++) free_desc(idx[j]);` -/
def freeAll (d : Disk) : List Nat → Except String Disk
  | [] => .ok d
  | j :: js => do
    let d ← freeDesc d j
    freeAll d js

/-- The loop of `alloc3_desc` with `idx` taken so far and `k` to take; `none`
for `-1`. -/
def alloc3Loop (d : Disk) (idx : List Nat) : Nat → Except String (Option (List Nat) × Disk)
  | 0 => .ok (some idx, d)
  | k + 1 =>
    match allocDesc d with
    | some (i, d) => alloc3Loop d (idx ++ [i]) k
    | none => do
      let d ← freeAll d idx
      .ok (none, d)

/-- `alloc3_desc(idx)`. -/
def alloc3Desc (d : Disk) : Except String (Option (List Nat) × Disk) := alloc3Loop d [] 3

/-- `virtio_disk_rw(b, write)` in process `p` from its three descriptors
`i0 i1 i2` to `sleep(b, &disk.vdisk_lock)`: format the chain, record `b`,
and publish the head. -/
def submit (s : Sys) (p : Fin NPROC) (b : Nat) (write : Bool) (i0 i1 i2 : Nat) : Sys :=
  let d := s.disk
  { s with
    disk :=
      { d with
        ops := Function.update d.ops i0
          ⟨if write then VIRTIO_BLK_T_OUT else VIRTIO_BLK_T_IN, 0, s.blockno b * (BSIZE / 512)⟩
        desc := Function.update (Function.update (Function.update d.desc
          i0 ⟨.op i0, 16, VRING_DESC_F_NEXT, i1.toUInt16⟩)
          i1 ⟨.data b, BSIZE, (if write then 0 else VRING_DESC_F_WRITE) ||| VRING_DESC_F_NEXT, i2.toUInt16⟩)
          i2 ⟨.status i0, 1, VRING_DESC_F_WRITE, 0⟩
        info := Function.update d.info i0 ⟨some b, 0xff⟩
        avail := ⟨d.avail.idx + 1, Function.update d.avail.ring (d.avail.idx.toNat % NUM) i0.toUInt16⟩ }
    bufDisk := Function.update s.bufDisk b true
    call := Function.update s.call p (.waitDone b write i0 i1 i2 s.nPub)
    nPub := s.nPub + 1
    ridOf := Function.update s.ridOf i0 s.nPub
    completed := Function.update s.completed s.nPub false }

/-- `virtio_disk_rw(b, write)` in process `p` from its `alloc3_desc` loop to
its next `sleep`. -/
def rwAlloc (s : Sys) (p : Fin NPROC) (b : Nat) (write : Bool) : Except String Sys := do
  let (r, d) ← alloc3Desc s.disk
  match r with
  | some idx => .ok (submit { s with disk := d } p b write (idx.getD 0 0) (idx.getD 1 0) (idx.getD 2 0))
  | none => .ok { s with disk := d, call := Function.update s.call p (.waitDesc b write) }

/-- `virtio_disk_rw` in process `p` back from `sleep(b, ...)`: sleep again
while `b->disk == 1`, else free the chain of `i0` and return. -/
def rwDone (s : Sys) (p : Fin NPROC) (b i0 : Nat) : Except String Sys :=
  if s.bufDisk b then .ok s
  else do
    let d ← freeChain { s.disk with info := Function.update s.disk.info i0 ⟨none, (s.disk.info i0).status⟩ } i0
    .ok { s with disk := d, call := Function.update s.call p .idle }

/-- A round of `virtio_disk_intr`'s loop: the buffer of the chain at
`used->ring[disk.used_idx % NUM]` is done. -/
def intrRound (s : Sys) : Except String Sys :=
  let id := (s.disk.used.ring (s.disk.usedIdx.toNat % NUM)).toNat
  if (s.disk.info id).status ≠ 0 then .error "virtio_disk_intr status"
  else
    match (s.disk.info id).b with
    | none => .error "virtio_disk_intr: b"
    | some b =>
      .ok { s with bufDisk := Function.update s.bufDisk b false,
                   disk := { s.disk with usedIdx := s.disk.usedIdx + 1 }, nSeen := s.nSeen + 1 }

/-- The loop of `virtio_disk_intr`, for at most `k` more rounds. -/
def intrLoop (s : Sys) : Nat → Except String Sys
  | 0 => .ok s
  | k + 1 =>
    if s.disk.usedIdx = s.disk.used.idx then .ok s
    else do
      let s ← intrRound s
      intrLoop s k

/-- `virtio_disk_intr()`: its loop runs `used->idx - disk.used_idx` rounds. -/
def virtioDiskIntr (s : Sys) : Except String Sys :=
  intrLoop s (s.disk.used.idx - s.disk.usedIdx).toNat

/-! ## The device -/

/-- The device takes the head at its index in the avail ring. -/
def fetch (s : Sys) : Option Sys :=
  if s.dev.lastAvail = s.disk.avail.idx then none
  else
    some { s with
      dev := ⟨s.dev.lastAvail + 1, s.dev.busy ++ [(s.disk.avail.ring (s.dev.lastAvail.toNat % NUM)).toNat]⟩
      nFetch := s.nFetch + 1 }

/-- The device completes the chain at `h`: it follows the chain to its
third descriptor, writes `0` to the status byte that one points to, and
returns `h` in the used ring. -/
def complete (s : Sys) (h : Nat) : Except String Sys :=
  let d0 := s.disk.desc h
  let d1 := s.disk.desc d0.next.toNat
  let d2 := s.disk.desc d1.next.toNat
  if d0.flags &&& VRING_DESC_F_NEXT = 0 ∨ d1.flags &&& VRING_DESC_F_NEXT = 0 then .error "virtio: chain"
  else
    match d2.addr with
    | .status j =>
      .ok { s with
        disk := { s.disk with
          info := Function.update s.disk.info j ⟨(s.disk.info j).b, 0⟩
          used := ⟨s.disk.used.idx + 1, Function.update s.disk.used.ring (s.disk.used.idx.toNat % NUM) h.toUInt32⟩ }
        dev := { s.dev with busy := s.dev.busy.erase h }
        nComp := s.nComp + 1
        completed := Function.update s.completed (s.ridOf h) true }
    | _ => .error "virtio: chain"

/-! ## Allocating and freeing descriptors -/

section Desc

variable {d d' : Disk}

theorem allocFrom_some {free : Nat → Bool} :
    ∀ {i k j : Nat}, allocFrom free i k = some j →
      i ≤ j ∧ j < i + k ∧ free j = true ∧ ∀ m, i ≤ m → m < j → free m = false
  | _, 0, _, h => by cases h
  | i, k + 1, j, h => by
    unfold allocFrom at h
    by_cases hi : free i = true
    · rw [if_pos hi, Option.some.injEq] at h
      subst h
      exact ⟨le_rfl, by omega, hi, fun m hm hm' => absurd hm' (by omega)⟩
    · rw [if_neg hi] at h
      obtain ⟨hij, hjk, hj, hbelow⟩ := allocFrom_some h
      refine ⟨by omega, by omega, hj, fun m hm hm' => ?_⟩
      rcases Nat.eq_or_lt_of_le hm with rfl | hm
      · simpa using hi
      · exact hbelow m hm hm'

theorem allocFrom_none {free : Nat → Bool} :
    ∀ {i k : Nat}, allocFrom free i k = none → ∀ m, i ≤ m → m < i + k → free m = false
  | _, 0, _, _, hm, hm' => absurd hm' (by omega)
  | i, k + 1, h, m, hm, hm' => by
    unfold allocFrom at h
    by_cases hi : free i = true
    · rw [if_pos hi] at h
      cases h
    · rw [if_neg hi] at h
      rcases Nat.eq_or_lt_of_le hm with rfl | hm
      · simpa using hi
      · exact allocFrom_none h m hm (by omega)

theorem allocDesc_some {i : Nat} (h : allocDesc d = some (i, d')) :
    i < NUM ∧ d.free i = true ∧ (∀ m < i, d.free m = false) ∧
      d' = { d with free := Function.update d.free i false } := by
  unfold allocDesc at h
  split at h
  · rename_i j hj
    obtain ⟨-, hlt, hfree, hbelow⟩ := allocFrom_some hj
    simp only [Option.some.injEq, Prod.mk.injEq] at h
    obtain ⟨rfl, rfl⟩ := h
    exact ⟨hlt, hfree, fun m hm => hbelow m (Nat.zero_le m) hm, rfl⟩
  · cases h

/-- The descriptors of `idx` marked in use. -/
def Disk.take (d : Disk) (idx : List Nat) : Disk :=
  { d with free := fun m => if m ∈ idx then false else d.free m }

@[simp] theorem Disk.take_desc (d : Disk) (idx : List Nat) : (d.take idx).desc = d.desc := rfl
@[simp] theorem Disk.take_info (d : Disk) (idx : List Nat) : (d.take idx).info = d.info := rfl
@[simp] theorem Disk.take_ops (d : Disk) (idx : List Nat) : (d.take idx).ops = d.ops := rfl

/-- The descriptors of `idx` freed and cleared. -/
def Disk.release (d : Disk) (idx : List Nat) : Disk :=
  { d with desc := fun m => if m ∈ idx then Desc.zero else d.desc m,
           free := fun m => if m ∈ idx then true else d.free m }

theorem freeDesc_ok {i : Nat} (hi : i < NUM) (hf : d.free i = false) : freeDesc d i = .ok (d.release [i]) := by
  rw [freeDesc, if_neg (Nat.not_le.mpr hi), if_neg (by simp [hf])]
  simp only [Disk.release, List.mem_singleton, Except.ok.injEq, Disk.mk.injEq, true_and, and_true]
  constructor <;> funext m <;> by_cases hm : m = i <;> simp [hm]

/-- The unwinding of `alloc3_desc` frees what it took, in order. -/
theorem freeAll_take : ∀ {d : Disk} {idx rest : List Nat}, (∀ j ∈ rest, j < NUM) → (idx ++ rest).Nodup →
    freeAll (d.take (idx ++ rest)) rest = .ok ((d.take idx).release rest)
  | d, idx, [], _, _ => by
    simp only [List.append_nil, freeAll, Disk.release, List.not_mem_nil, if_false]
  | d, idx, j :: rest, hlt, hnd => by
    have hj : (d.take (idx ++ j :: rest)).free j = false := by simp [Disk.take]
    have hjr : j ∉ rest := (List.nodup_cons.mp (List.nodup_append.mp hnd).2.1).1
    have hji : j ∉ idx := fun h => (List.nodup_append.mp hnd).2.2 j h j (List.mem_cons_self ..) rfl
    -- freeing `j` leaves the rest taken from a disk with `j` free and cleared
    have hstep : (d.take (idx ++ j :: rest)).release [j] = (d.release [j]).take (idx ++ rest) := by
      simp only [Disk.take, Disk.release, Disk.mk.injEq, true_and, and_true]
      funext m
      by_cases hm : m = j
      · subst hm; simp [hjr, hji]
      · simp [hm]
    have hend : ((d.release [j]).take idx).release rest = (d.take idx).release (j :: rest) := by
      simp only [Disk.take, Disk.release, Disk.mk.injEq, true_and, and_true]
      constructor <;> funext m <;> by_cases hm : m = j
      · subst hm; simp
      · simp [hm]
      · subst hm; simp [hji]
      · simp [hm]
    have hnd' : (idx ++ rest).Nodup := List.Nodup.sublist (by simp) hnd
    rw [freeAll, freeDesc_ok (hlt j (List.mem_cons_self ..)) hj]
    change freeAll ((d.take (idx ++ j :: rest)).release [j]) rest = _
    rw [hstep, ← hend]
    exact freeAll_take (fun m hm => hlt m (List.mem_cons_of_mem _ hm)) hnd'

@[simp]
theorem Disk.take_nil (d : Disk) : d.take [] = d := rfl

theorem Disk.take_append_singleton (d : Disk) (idx : List Nat) (i : Nat) :
    d.take (idx ++ [i]) = { d.take idx with free := Function.update (d.take idx).free i false } := by
  simp only [Disk.take, Disk.mk.injEq, true_and, and_true]
  funext m
  by_cases hm : m = i
  · subst hm; simp
  · simp [hm]

/-- The loop of `alloc3_desc` from `idx` taken: it takes `k` more free
descriptors, or fails after taking fewer and frees all it took. -/
theorem alloc3Loop_cases (d : Disk) : ∀ (k : Nat) (idx : List Nat), idx.Nodup →
    (∀ j ∈ idx, j < NUM ∧ d.free j = true) →
    (∃ js, js.length = k ∧ (idx ++ js).Nodup ∧ (∀ j ∈ js, j < NUM ∧ d.free j = true) ∧
      alloc3Loop (d.take idx) idx k = .ok (some (idx ++ js), d.take (idx ++ js))) ∨
    (∃ js, js.length < k ∧ (∀ j ∈ idx ++ js, j < NUM ∧ d.free j = true) ∧
      alloc3Loop (d.take idx) idx k = .ok (none, d.release (idx ++ js)))
  | 0, idx, _, _ => .inl ⟨[], rfl, by simpa, by simp, by simp [alloc3Loop]⟩
  | k + 1, idx, hnd, hidx => by
    cases ha : allocDesc (d.take idx) with
    | none =>
      -- no free descriptor: free those taken, back to where the call began
      refine .inr ⟨[], Nat.succ_pos k, by simpa using hidx, ?_⟩
      have hfree : freeAll (d.take ([] ++ idx)) idx = .ok ((d.take []).release idx) :=
        freeAll_take (fun j hj => (hidx j hj).1) hnd
      rw [List.nil_append, Disk.take_nil] at hfree
      simp only [alloc3Loop, ha, List.append_nil, hfree]
      rfl
    | some p =>
      obtain ⟨i, d₁⟩ := p
      obtain ⟨hi, hfi, -, rfl⟩ := allocDesc_some ha
      have hni : i ∉ idx := fun h => by simp [Disk.take, h] at hfi
      have hdi : d.free i = true := by simpa [Disk.take, hni] using hfi
      have hnd' : (idx ++ [i]).Nodup := List.nodup_append.mpr ⟨hnd, List.nodup_singleton i,
        fun a ha b hb hab => hni (by rw [List.mem_singleton.mp hb] at hab; exact hab ▸ ha)⟩
      have hidx' : ∀ j ∈ idx ++ [i], j < NUM ∧ d.free j = true := by
        intro j hj
        rcases List.mem_append.mp hj with hj | hj
        · exact hidx j hj
        · rw [List.mem_singleton.mp hj]; exact ⟨hi, hdi⟩
      have hloop : alloc3Loop (d.take idx) idx (k + 1) = alloc3Loop (d.take (idx ++ [i])) (idx ++ [i]) k := by
        simp only [alloc3Loop, ha, Disk.take_append_singleton]
      rw [hloop]
      rcases alloc3Loop_cases d k (idx ++ [i]) hnd' hidx' with ⟨js, hlen, hnd'', hjs, h⟩ | ⟨js, hlen, hjs, h⟩
      · refine .inl ⟨i :: js, by simp [hlen], by simpa using hnd'', fun j hj => ?_, by simpa using h⟩
        rcases List.mem_cons.mp hj with rfl | hj
        · exact ⟨hi, hdi⟩
        · exact hjs j hj
      · exact .inr ⟨i :: js, by simp [hlen], by simpa using hjs, by simpa using h⟩

theorem alloc3Desc_cases (d : Disk) :
    (∃ i0 i1 i2, [i0, i1, i2].Nodup ∧ (∀ j ∈ [i0, i1, i2], j < NUM ∧ d.free j = true) ∧
      alloc3Desc d = .ok (some [i0, i1, i2], d.take [i0, i1, i2])) ∨
    (∃ idx : List Nat, idx.length < 3 ∧ (∀ j ∈ idx, j < NUM ∧ d.free j = true) ∧
      alloc3Desc d = .ok (none, d.release idx)) := by
  rcases alloc3Loop_cases d 3 [] List.nodup_nil (by simp) with ⟨js, hlen, hnd, hjs, h⟩ | ⟨js, hlen, hjs, h⟩
  · match js, hlen with
    | [i0, i1, i2], _ => exact .inl ⟨i0, i1, i2, hnd, hjs, h⟩
  · exact .inr ⟨js, hlen, by simpa using hjs, by simpa [alloc3Desc] using h⟩

theorem release_free {idx : List Nat} (h : ∀ j ∈ idx, d.free j = true) : (d.release idx).free = d.free := by
  funext m
  by_cases hm : m ∈ idx
  · simp [Disk.release, hm, h m hm]
  · simp [Disk.release, hm]

theorem Disk.release_append (d : Disk) (xs ys : List Nat) :
    (d.release xs).release ys = d.release (xs ++ ys) := by
  simp only [Disk.release, Disk.mk.injEq, true_and, and_true, List.mem_append]
  constructor <;> funext m <;> by_cases hx : m ∈ xs <;> by_cases hy : m ∈ ys <;> simp [hx, hy]

/-- The descriptors of a chain as `virtio_disk_rw` formats them for buffer
`b`: header, data, status, linked by `next` with `VRING_DESC_F_NEXT` on the
first two. -/
structure Chain (d : Disk) (b : Nat) (write : Bool) (i0 i1 i2 : Nat) : Prop where
  lt : ∀ j ∈ [i0, i1, i2], j < NUM
  nodup : [i0, i1, i2].Nodup
  desc0 : d.desc i0 = ⟨.op i0, 16, VRING_DESC_F_NEXT, i1.toUInt16⟩
  desc1 : d.desc i1 =
    ⟨.data b, BSIZE, (if write then 0 else VRING_DESC_F_WRITE) ||| VRING_DESC_F_NEXT, i2.toUInt16⟩
  desc2 : d.desc i2 = ⟨.status i0, 1, VRING_DESC_F_WRITE, 0⟩

/-- A chain with the buffer recorded in `info` of its head and the request
header for `sector` in `ops`. -/
structure Formatted (d : Disk) (b : Nat) (write : Bool) (sector : Nat) (i0 i1 i2 : Nat) : Prop
    extends Chain d b write i0 i1 i2 where
  info : (d.info i0).b = some b
  op : d.ops i0 = ⟨if write then VIRTIO_BLK_T_OUT else VIRTIO_BLK_T_IN, 0, sector⟩

theorem toNat_toUInt16 {i : Nat} (hi : i < NUM) : i.toUInt16.toNat = i := by
  simp only [Nat.toUInt16_eq, UInt16.toNat_ofNat']
  unfold NUM at hi
  omega

theorem toNat_toUInt32 {i : Nat} (hi : i < NUM) : i.toUInt32.toNat = i := by
  simp only [Nat.toUInt32_eq, UInt32.toNat_ofNat']
  unfold NUM at hi
  omega

theorem flags_data_next (write : Bool) :
    ((if write then 0 else VRING_DESC_F_WRITE) ||| VRING_DESC_F_NEXT) &&& VRING_DESC_F_NEXT ≠ 0 := by
  cases write <;> decide

theorem freeChainLoop_next {i k : Nat} (hi : i < NUM) (hf : d.free i = false)
    (hn : (d.desc i).flags &&& VRING_DESC_F_NEXT ≠ 0) :
    freeChainLoop d i (k + 1) = freeChainLoop (d.release [i]) (d.desc i).next.toNat k := by
  rw [freeChainLoop, freeDesc_ok hi hf, Exc.ok_bind, if_pos hn]

theorem freeChainLoop_last {i k : Nat} (hi : i < NUM) (hf : d.free i = false)
    (hn : (d.desc i).flags &&& VRING_DESC_F_NEXT = 0) :
    freeChainLoop d i (k + 1) = .ok (d.release [i]) := by
  rw [freeChainLoop, freeDesc_ok hi hf, Exc.ok_bind, if_neg (not_not.mpr hn)]

/-- `free_chain` of a formatted chain frees its three descriptors, in three
rounds and without a panic. -/
theorem Chain.freeChain_ok {b : Nat} {write : Bool} {i0 i1 i2 : Nat}
    (h : Chain d b write i0 i1 i2) (hbusy : ∀ j ∈ [i0, i1, i2], d.free j = false) :
    freeChain d i0 = .ok (d.release [i0, i1, i2]) := by
  obtain ⟨h0, h1, h2⟩ : i0 < NUM ∧ i1 < NUM ∧ i2 < NUM := by simpa using h.lt
  have hnd := h.nodup
  have h01 : i0 ≠ i1 := fun h => by simp [h] at hnd
  have h02 : i0 ≠ i2 := fun h => by simp [h] at hnd
  have h12 : i1 ≠ i2 := fun h => by simp [h] at hnd
  obtain ⟨f0, f1, f2⟩ : d.free i0 = false ∧ d.free i1 = false ∧ d.free i2 = false := by simpa using hbusy
  -- round one at the header, round two at the data, round three at the status
  have hd1 : (d.release [i0]).desc i1 = d.desc i1 := by simp [Disk.release, Ne.symm h01]
  have hd2 : ((d.release [i0]).release [i1]).desc i2 = d.desc i2 := by
    simp [Disk.release, Ne.symm h02, Ne.symm h12]
  have hf1 : (d.release [i0]).free i1 = false := by simp [Disk.release, Ne.symm h01, f1]
  have hf2 : ((d.release [i0]).release [i1]).free i2 = false := by
    simp [Disk.release, Ne.symm h02, Ne.symm h12, f2]
  have hn0 : (d.desc i0).flags &&& VRING_DESC_F_NEXT ≠ 0 := by
    rw [h.desc0]; exact (by decide : VRING_DESC_F_NEXT &&& VRING_DESC_F_NEXT ≠ 0)
  have hn1 : ((d.release [i0]).desc i1).flags &&& VRING_DESC_F_NEXT ≠ 0 := by
    rw [hd1, h.desc1]; exact flags_data_next write
  have hn2 : (((d.release [i0]).release [i1]).desc i2).flags &&& VRING_DESC_F_NEXT = 0 := by
    rw [hd2, h.desc2]; exact (by decide : VRING_DESC_F_WRITE &&& VRING_DESC_F_NEXT = 0)
  show freeChainLoop d i0 (8 + 1) = _
  rw [freeChainLoop_next h0 f0 hn0, h.desc0, toNat_toUInt16 h1, freeChainLoop_next (k := 7) h1 hf1 hn1,
    hd1, h.desc1, toNat_toUInt16 h2, freeChainLoop_last (k := 6) h2 hf2 hn2, Disk.release_append,
    Disk.release_append]
  rfl

theorem Chain.congr {b : Nat} {write : Bool} {i0 i1 i2 : Nat}
    (h : Chain d b write i0 i1 i2) (hdesc : ∀ j ∈ [i0, i1, i2], d'.desc j = d.desc j) :
    Chain d' b write i0 i1 i2 where
  lt := h.lt
  nodup := h.nodup
  desc0 := by rw [hdesc i0 (by simp), h.desc0]
  desc1 := by rw [hdesc i1 (by simp), h.desc1]
  desc2 := by rw [hdesc i2 (by simp), h.desc2]

theorem Formatted.congr {b sector : Nat} {write : Bool} {i0 i1 i2 : Nat}
    (h : Formatted d b write sector i0 i1 i2) (hdesc : ∀ j ∈ [i0, i1, i2], d'.desc j = d.desc j)
    (hinfo : (d'.info i0).b = (d.info i0).b) (hops : d'.ops i0 = d.ops i0) :
    Formatted d' b write sector i0 i1 i2 where
  toChain := h.toChain.congr hdesc
  info := by rw [hinfo, h.info]
  op := by rw [hops, h.op]

/-- The descriptors in use. -/
def Disk.busy (d : Disk) : Finset Nat := (Finset.range NUM).filter fun m => d.free m = false

theorem busy_release {i : Nat} (hi : i < NUM) (hf : d.free i = false) :
    (d.release [i]).busy.card + 1 = d.busy.card := by
  have h : (d.release [i]).busy = d.busy.erase i := by
    ext m
    by_cases hm : m = i
    · subst hm; simp [Disk.busy, Disk.release]
    · simp [Disk.busy, Disk.release, hm]
  rw [h, Finset.card_erase_add_one (by simp [Disk.busy, hi, hf])]

/-- Each round of `free_chain`'s loop frees a descriptor in use or panics,
so the loop never runs out of its `NUM + 1` rounds. -/
theorem freeChainLoop_ne_error : ∀ {d : Disk} {i k : Nat}, d.busy.card < k →
    freeChainLoop d i k ≠ .error "free_chain"
  | _, _, 0, hk => absurd hk (Nat.not_lt_zero _)
  | d, i, k + 1, hk => by
    unfold freeChainLoop
    by_cases hi : NUM ≤ i
    · rw [freeDesc, if_pos hi]
      intro h
      change Except.error "free_desc 1" = Except.error "free_chain" at h
      simp at h
    by_cases hf : d.free i = true
    · rw [freeDesc, if_neg hi, if_pos hf]
      intro h
      change Except.error "free_desc 2" = Except.error "free_chain" at h
      simp at h
    have hf' : d.free i = false := by simpa using hf
    have hcard := busy_release (Nat.lt_of_not_le hi) hf'
    rw [freeDesc_ok (Nat.lt_of_not_le hi) hf']
    dsimp only [bind, Except.bind]
    split
    · exact freeChainLoop_ne_error (by omega)
    · simp

theorem freeChain_ne_error (d : Disk) (i : Nat) : freeChain d i ≠ .error "free_chain" := by
  refine freeChainLoop_ne_error (Nat.lt_succ_of_le ?_)
  calc d.busy.card ≤ (Finset.range NUM).card := Finset.card_filter_le _ _
    _ = NUM := Finset.card_range NUM

end Desc

/-! ## Runs -/

/-- The buffer process `p` is in `virtio_disk_rw` for. -/
def Call.buf : Call → Option Nat
  | .idle => none
  | .waitDesc b _ => some b
  | .waitDone b .. => some b

/-- The descriptors of process `p`'s chain. -/
def Call.chain : Call → List Nat
  | .waitDone _ _ i0 i1 i2 _ => [i0, i1, i2]
  | _ => []

inductive Event
  /-- Process `p` calls `virtio_disk_rw(b, write)` on a buffer it holds. -/
  | rw (p : Fin NPROC) (b : Nat) (write : Bool)
  /-- Process `p` reruns its `alloc3_desc` loop. -/
  | retry (p : Fin NPROC)
  /-- Process `p` reruns its `b->disk` loop. -/
  | wake (p : Fin NPROC)
  | intr
  | fetch
  | complete (h : Nat)

def step (s : Sys) : Event → Except String (Option Sys)
  | .rw p b write =>
    if s.call p = .idle ∧ ∀ q, (s.call q).buf ≠ some b then (rwAlloc s p b write).map some
    else .ok none
  | .retry p =>
    match s.call p with
    | .waitDesc b write => (rwAlloc s p b write).map some
    | _ => .ok none
  | .wake p =>
    match s.call p with
    | .waitDone b _ i0 _ _ _ => (rwDone s p b i0).map some
    | _ => .ok none
  | .intr => (virtioDiskIntr s).map some
  | .fetch => .ok (fetch s)
  | .complete h => if h ∈ s.dev.busy then (complete s h).map some else .ok none

/-- After `virtio_disk_init`: zeroed rings and descriptors, all descriptors
free, no call. -/
def init : Sys where
  disk :=
    { desc := fun _ => Desc.zero
      avail := ⟨0, fun _ => 0⟩
      used := ⟨0, fun _ => 0⟩
      free := fun _ => true
      usedIdx := 0
      info := fun _ => ⟨none, 0⟩
      ops := fun _ => ⟨0, 0, 0⟩ }
  bufDisk := fun _ => false
  blockno := fun _ => 0
  call := fun _ => .idle
  dev := ⟨0, []⟩
  nPub := 0
  nFetch := 0
  nComp := 0
  nSeen := 0
  ridOf := fun _ => 0
  completed := fun _ => false

inductive Reachable : Sys → Prop
  | init : Reachable init
  | step {s s' : Sys} (e : Event) : Reachable s → step s e = .ok (some s') → Reachable s'

/-! ## The invariant -/

/-- The heads in the avail ring the device has not read, oldest first. -/
def availQ (s : Sys) : List Nat :=
  (window NUM s.disk.avail.ring s.nFetch (s.nPub - s.nFetch)).map UInt16.toNat

/-- The heads in the used ring `virtio_disk_intr` has not read, oldest first. -/
def usedQ (s : Sys) : List Nat :=
  (window NUM s.disk.used.ring s.nSeen (s.nComp - s.nSeen)).map UInt32.toNat

/-- The heads on their way through the device. -/
def onDevice (s : Sys) : List Nat := availQ s ++ s.dev.busy ++ usedQ s

/-- What holds in every reachable state. -/
structure Inv (s : Sys) : Prop where
  /-- The `uint16` indices are the counts of entries, wrapped at `2^16`. -/
  avail_idx : s.disk.avail.idx.toNat = s.nPub % 2 ^ 16
  last_avail : s.dev.lastAvail.toNat = s.nFetch % 2 ^ 16
  used_idx : s.disk.used.idx.toNat = s.nComp % 2 ^ 16
  usedIdx : s.disk.usedIdx.toNat = s.nSeen % 2 ^ 16
  fetch_le : s.nFetch ≤ s.nPub
  seen_le : s.nSeen ≤ s.nComp
  /-- A descriptor is free iff no chain holds it; no two chains share one. -/
  free_iff : ∀ i < NUM, s.disk.free i = true ↔ ∀ p, i ∉ (s.call p).chain
  disjoint : ∀ p q i, i ∈ (s.call p).chain → i ∈ (s.call q).chain → p = q
  /-- Free descriptors are cleared. -/
  cleared : ∀ i < NUM, s.disk.free i = true → s.disk.desc i = Desc.zero
  /-- Each chain is formatted for its buffer, and its head names its request. -/
  formatted : ∀ p b w i0 i1 i2 rid, s.call p = .waitDone b w i0 i1 i2 rid →
    Formatted s.disk b w (s.blockno b * (BSIZE / 512)) i0 i1 i2 ∧ s.ridOf i0 = rid ∧ rid < s.nPub
  /-- The device side holds heads of chains, each once. -/
  nodup : (onDevice s).Nodup
  heads : ∀ h ∈ onDevice s, ∃ p b w i1 i2 rid, s.call p = .waitDone b w h i1 i2 rid
  /-- A request is published or taken, returned, or seen by `virtio_disk_intr`. -/
  stage : ∀ p b w i0 i1 i2 rid, s.call p = .waitDone b w i0 i1 i2 rid →
    (i0 ∈ availQ s ++ s.dev.busy ∧ s.bufDisk b = true ∧ (s.disk.info i0).status = 0xff ∧
        s.completed rid = false) ∨
      (i0 ∈ usedQ s ∧ s.bufDisk b = true ∧ (s.disk.info i0).status = 0 ∧ s.completed rid = true) ∨
      (i0 ∉ onDevice s ∧ s.bufDisk b = false ∧ s.completed rid = true)
  /-- No two calls share a buffer or a request. -/
  bufs : ∀ p q b, (s.call p).buf = some b → (s.call q).buf = some b → p = q
  rids : ∀ p q b b' w w' i0 i1 i2 j0 j1 j2 rid, s.call p = .waitDone b w i0 i1 i2 rid →
    s.call q = .waitDone b' w' j0 j1 j2 rid → p = q

theorem init_inv : Inv init where
  avail_idx := rfl
  last_avail := rfl
  used_idx := rfl
  usedIdx := rfl
  fetch_le := le_rfl
  seen_le := le_rfl
  free_iff _ _ := by simp [init, Call.chain]
  disjoint _ _ _ h := by simp [init, Call.chain] at h
  cleared _ _ _ := rfl
  formatted _ _ _ _ _ _ _ h := by cases h
  nodup := by simp [onDevice, availQ, usedQ, init]
  heads _ h := by simp [onDevice, availQ, usedQ, init] at h
  stage _ _ _ _ _ _ _ h := by cases h
  bufs _ _ _ h := by simp [init, Call.buf] at h
  rids _ _ _ _ _ _ _ _ _ _ _ _ _ h := by cases h

/-! ## Counters and rings -/

theorem eq_iff_of_count {x y : UInt16} {a b : Nat} (hx : x.toNat = a % 2 ^ 16) (hy : y.toNat = b % 2 ^ 16)
    (hab : a ≤ b) (hlt : b - a < 2 ^ 16) : x = y ↔ a = b := by
  rw [← UInt16.toNat_inj, hx, hy]
  omega

theorem toNat_sub_of_count {x y : UInt16} {a b : Nat} (hx : x.toNat = a % 2 ^ 16) (hy : y.toNat = b % 2 ^ 16)
    (hab : a ≤ b) (hlt : b - a < 2 ^ 16) : (y - x).toNat = b - a := by
  rw [UInt16.toNat_sub, hx, hy]
  have := Nat.mod_lt a (show 0 < 2 ^ 16 by decide)
  omega

theorem NUM_dvd : NUM ∣ 2 ^ 16 := ⟨2 ^ 13, by decide⟩

theorem slot_of_count {x : UInt16} {a : Nat} (hx : x.toNat = a % 2 ^ 16) : x.toNat % NUM = a % NUM := by
  rw [hx, wrap_mod NUM_dvd]

theorem succ_toNat_of_count {x : UInt16} {a : Nat} (hx : x.toNat = a % 2 ^ 16) :
    (x + 1).toNat = (a + 1) % 2 ^ 16 := by
  rw [UInt16.toNat_add, hx, UInt16.toNat_one, Nat.mod_add_mod]

section Inv

variable {s : Sys}

theorem mem_chain {c : Call} {i : Nat} (h : i ∈ c.chain) :
    ∃ b w i0 i1 i2 rid, c = .waitDone b w i0 i1 i2 rid ∧ i ∈ [i0, i1, i2] := by
  cases c with
  | waitDone b w i0 i1 i2 rid => exact ⟨b, w, i0, i1, i2, rid, rfl, h⟩
  | _ => simp [Call.chain] at h

theorem Inv.chain_lt (hs : Inv s) {p : Fin NPROC} {i : Nat} (h : i ∈ (s.call p).chain) : i < NUM := by
  obtain ⟨b, w, i0, i1, i2, rid, hc, hi⟩ := mem_chain h
  exact (hs.formatted p b w i0 i1 i2 rid hc).1.lt i hi

theorem Inv.onDevice_chain (hs : Inv s) {h : Nat} (hh : h ∈ onDevice s) : ∃ p, h ∈ (s.call p).chain := by
  obtain ⟨p, b, w, i1, i2, rid, hc⟩ := hs.heads h hh
  exact ⟨p, by simp [hc, Call.chain]⟩

theorem Inv.not_onDevice_of_free (hs : Inv s) {i : Nat} (hi : i < NUM) (hf : s.disk.free i = true) :
    i ∉ onDevice s := fun hh => by
  obtain ⟨p, hp⟩ := hs.onDevice_chain hh
  exact (hs.free_iff i hi).mp hf p hp

theorem Inv.onDevice_length (hs : Inv s) : (onDevice s).length ≤ NUM := by
  have hsub : onDevice s ⊆ List.range NUM := fun h hh => by
    obtain ⟨p, hp⟩ := hs.onDevice_chain hh
    exact List.mem_range.mpr (hs.chain_lt hp)
  simpa using (List.subperm_of_subset hs.nodup hsub).length_le

theorem Inv.avail_length (hs : Inv s) : s.nPub - s.nFetch ≤ NUM := by
  have h := hs.onDevice_length
  simp only [onDevice, availQ, List.length_append, List.length_map, length_window] at h
  omega

theorem Inv.used_length (hs : Inv s) : s.nComp - s.nSeen ≤ NUM := by
  have h := hs.onDevice_length
  simp only [onDevice, usedQ, List.length_append, List.length_map, length_window] at h
  omega

theorem Inv.release_eq (hs : Inv s) {idx : List Nat} (h : ∀ j ∈ idx, j < NUM ∧ s.disk.free j = true) :
    s.disk.release idx = s.disk := by
  have hfree := release_free fun j hj => (h j hj).2
  have hdesc : (s.disk.release idx).desc = s.disk.desc := by
    funext m
    by_cases hm : m ∈ idx
    · simp only [Disk.release, hm, if_true]
      exact (hs.cleared m (h m hm).1 (h m hm).2).symm
    · simp [Disk.release, hm]
  cases hd : s.disk
  rw [hd] at hfree hdesc
  simp only [Disk.release] at hfree hdesc ⊢
  rw [hfree, hdesc]

theorem Inv.avail_lt_of_free (hs : Inv s) {i : Nat} (hi : i < NUM) (hf : s.disk.free i = true) :
    s.nPub - s.nFetch < NUM := by
  have hnd : (onDevice s ++ [i]).Nodup :=
    List.nodup_append.mpr ⟨hs.nodup, List.nodup_singleton i, fun a ha b hb hab =>
      hs.not_onDevice_of_free hi hf (by rw [List.mem_singleton.mp hb] at hab; exact hab ▸ ha)⟩
  have hsub : onDevice s ++ [i] ⊆ List.range NUM := fun h hh => by
    rcases List.mem_append.mp hh with hh | hh
    · obtain ⟨p, hp⟩ := hs.onDevice_chain hh
      exact List.mem_range.mpr (hs.chain_lt hp)
    · exact List.mem_range.mpr (List.mem_singleton.mp hh ▸ hi)
  have h := (List.subperm_of_subset hnd hsub).length_le
  simp only [onDevice, availQ, List.length_append, List.length_map, length_window, List.length_range,
    List.length_singleton] at h
  omega

theorem Inv.stage_used (hs : Inv s) {p : Fin NPROC} {b : Nat} {w : Bool} {i0 i1 i2 rid : Nat}
    (hp : s.call p = .waitDone b w i0 i1 i2 rid) (hm : i0 ∈ usedQ s) :
    s.bufDisk b = true ∧ (s.disk.info i0).status = 0 ∧ s.completed rid = true := by
  rcases hs.stage p b w i0 i1 i2 rid hp with ⟨h, -⟩ | ⟨-, h⟩ | ⟨h, -⟩
  · exact (List.disjoint_of_nodup_append hs.nodup h hm).elim
  · exact h
  · exact absurd (List.mem_append_right _ hm) h

theorem Inv.usedQ_cons (hs : Inv s) (hlt : s.nSeen < s.nComp) :
    usedQ s = (s.disk.used.ring (s.disk.usedIdx.toNat % NUM)).toNat ::
      (window NUM s.disk.used.ring (s.nSeen + 1) (s.nComp - (s.nSeen + 1))).map UInt32.toNat := by
  rw [usedQ, show s.nComp - s.nSeen = s.nComp - (s.nSeen + 1) + 1 by omega, window_succ_left,
    slot_of_count hs.usedIdx, List.map_cons]

theorem Inv.usedIdx_eq_iff (hs : Inv s) : s.disk.usedIdx = s.disk.used.idx ↔ s.nSeen = s.nComp := by
  have h := hs.used_length
  unfold NUM at h
  exact eq_iff_of_count hs.usedIdx hs.used_idx hs.seen_le (by omega)

theorem Inv.availQ_cons (hs : Inv s) (hlt : s.nFetch < s.nPub) :
    availQ s = (s.disk.avail.ring (s.dev.lastAvail.toNat % NUM)).toNat ::
      (window NUM s.disk.avail.ring (s.nFetch + 1) (s.nPub - (s.nFetch + 1))).map UInt16.toNat := by
  rw [availQ, show s.nPub - s.nFetch = s.nPub - (s.nFetch + 1) + 1 by omega, window_succ_left,
    slot_of_count hs.last_avail, List.map_cons]

theorem Inv.lastAvail_eq_iff (hs : Inv s) : s.dev.lastAvail = s.disk.avail.idx ↔ s.nFetch = s.nPub := by
  have h := hs.avail_length
  unfold NUM at h
  exact eq_iff_of_count hs.last_avail hs.avail_idx hs.fetch_le (by omega)

theorem Inv.used_lt_of_busy (hs : Inv s) {h : Nat} (hh : h ∈ s.dev.busy) : s.nComp - s.nSeen < NUM := by
  have hl := hs.onDevice_length
  have hb := List.length_pos_of_mem hh
  simp only [onDevice, usedQ, List.length_append, List.length_map, length_window] at hl
  omega

theorem Inv.chain_busy (hs : Inv s) {p : Fin NPROC} {b : Nat} {w : Bool} {i0 i1 i2 rid : Nat}
    (hp : s.call p = .waitDone b w i0 i1 i2 rid) : ∀ j ∈ [i0, i1, i2], s.disk.free j = false := by
  intro j hj
  have hlt := (hs.formatted p b w i0 i1 i2 rid hp).1.lt j hj
  have hin : j ∈ (s.call p).chain := by rw [hp]; exact hj
  simpa using (hs.free_iff j hlt).not.mpr (not_forall.mpr ⟨p, not_not.mpr hin⟩)

theorem Inv.intr_count (hs : Inv s) : (s.disk.used.idx - s.disk.usedIdx).toNat = s.nComp - s.nSeen := by
  have h := hs.used_length
  unfold NUM at h
  exact toNat_sub_of_count hs.usedIdx hs.used_idx hs.seen_le (by omega)

end Inv

/-! ## Each step keeps the invariant -/

section Steps

variable {s s' : Sys}

theorem chain_eq_nil {c : Call} (h : c.chain = []) (b w i0 i1 i2 rid) : c ≠ .waitDone b w i0 i1 i2 rid :=
  fun hc => by simp [hc, Call.chain] at h

theorem Inv.rwAlloc_cases (hs : Inv s) (p : Fin NPROC) (b : Nat) (w : Bool) :
    rwAlloc s p b w = .ok { s with call := Function.update s.call p (.waitDesc b w) } ∨
    ∃ i0 i1 i2, [i0, i1, i2].Nodup ∧ (∀ j ∈ [i0, i1, i2], j < NUM ∧ s.disk.free j = true) ∧
      rwAlloc s p b w = .ok (submit { s with disk := s.disk.take [i0, i1, i2] } p b w i0 i1 i2) := by
  rcases alloc3Desc_cases s.disk with ⟨i0, i1, i2, hnd, hfree, h⟩ | ⟨idx, -, hfree, h⟩
  · exact .inr ⟨i0, i1, i2, hnd, hfree, by rw [rwAlloc, h, Exc.ok_bind]; rfl⟩
  · left
    rw [rwAlloc, h, Exc.ok_bind, hs.release_eq hfree]

theorem bufs_update {call : Fin NPROC → Call} {p : Fin NPROC} {c : Call}
    (hbufs : ∀ q q' b, (call q).buf = some b → (call q').buf = some b → q = q')
    (hc : ∀ b, c.buf = some b → ∀ q, q ≠ p → (call q).buf ≠ some b) (q q' : Fin NPROC) (b : Nat)
    (h : (Function.update call p c q).buf = some b) (h' : (Function.update call p c q').buf = some b) :
    q = q' := by
  by_cases hq : q = p <;> by_cases hq' : q' = p
  · rw [hq, hq']
  · subst hq
    rw [Function.update_self] at h
    rw [Function.update_of_ne hq'] at h'
    exact absurd h' (hc b h q' hq')
  · subst hq'
    rw [Function.update_self] at h'
    rw [Function.update_of_ne hq] at h
    exact absurd h (hc b h' q hq)
  · rw [Function.update_of_ne hq] at h
    rw [Function.update_of_ne hq'] at h'
    exact hbufs q q' b h h'

/-- Going to sleep on `&disk.free[0]` keeps the invariant. -/
theorem Inv.waitDesc (hs : Inv s) {p : Fin NPROC} {b : Nat} {w : Bool} (hp : (s.call p).chain = [])
    (hb : ∀ q, q ≠ p → (s.call q).buf ≠ some b) :
    Inv { s with call := Function.update s.call p (.waitDesc b w) } := by
  -- the chains, and the calls with a chain, are those of `s`
  have hchain : ∀ q, (Function.update s.call p (.waitDesc b w) q).chain = (s.call q).chain := by
    intro q
    by_cases hq : q = p
    · subst hq; rw [Function.update_self, hp]; rfl
    · rw [Function.update_of_ne hq]
  have hdone : ∀ q b' w' i0 i1 i2 rid, Function.update s.call p (.waitDesc b w) q = .waitDone b' w' i0 i1 i2 rid →
      s.call q = .waitDone b' w' i0 i1 i2 rid := by
    intro q b' w' i0 i1 i2 rid hq
    by_cases hqp : q = p
    · subst hqp; simp at hq
    · rwa [Function.update_of_ne hqp] at hq
  refine { hs with
    free_iff := fun i hi => by simpa only [hchain] using hs.free_iff i hi
    disjoint := fun q q' i h h' => hs.disjoint q q' i (by simpa only [hchain] using h) (by simpa only [hchain] using h')
    formatted := fun q b' w' i0 i1 i2 rid hq => hs.formatted q b' w' i0 i1 i2 rid (hdone q b' w' i0 i1 i2 rid hq)
    heads := fun h hh => ?_
    stage := fun q b' w' i0 i1 i2 rid hq => hs.stage q b' w' i0 i1 i2 rid (hdone q b' w' i0 i1 i2 rid hq)
    bufs := fun q q' b' h h' => ?_
    rids := fun q q' _ _ _ _ _ _ _ _ _ _ _ hq hq' => hs.rids q q' _ _ _ _ _ _ _ _ _ _ _ (hdone _ _ _ _ _ _ _ hq)
      (hdone _ _ _ _ _ _ _ hq') }
  · obtain ⟨q, b', w', i1, i2, rid, hq⟩ := hs.heads h hh
    have hqp : q ≠ p := fun h' => chain_eq_nil hp b' w' _ i1 i2 rid (h' ▸ hq)
    exact ⟨q, b', w', i1, i2, rid, by dsimp only; rw [Function.update_of_ne hqp]; exact hq⟩
  · dsimp only at h h'
    by_cases hq : q = p <;> by_cases hq' : q' = p
    · rw [hq, hq']
    · subst hq
      simp only [Function.update_self, Call.buf, Option.some.injEq] at h
      rw [Function.update_of_ne hq'] at h'
      exact absurd (h ▸ h') (hb q' hq')
    · subst hq'
      simp only [Function.update_self, Call.buf, Option.some.injEq] at h'
      rw [Function.update_of_ne hq] at h
      exact absurd (h' ▸ h) (hb q hq)
    · rw [Function.update_of_ne hq] at h
      rw [Function.update_of_ne hq'] at h'
      exact hs.bufs q q' b' h h'

theorem Inv.availQ_submit (hs : Inv s) {p : Fin NPROC} {b : Nat} {w : Bool} {i0 i1 i2 : Nat}
    (hi : i0 < NUM) (hf : s.disk.free i0 = true) (d : Disk) (hd : d.avail = s.disk.avail) :
    availQ (submit { s with disk := d } p b w i0 i1 i2) = availQ s ++ [i0] := by
  have hk := hs.avail_lt_of_free hi hf
  have hslot : s.disk.avail.idx.toNat % NUM = (s.nFetch + (s.nPub - s.nFetch)) % NUM := by
    rw [slot_of_count hs.avail_idx, Nat.add_sub_cancel' hs.fetch_le]
  simp only [availQ, submit, hd, hslot, show s.nPub + 1 - s.nFetch = s.nPub - s.nFetch + 1 by
    have := hs.fetch_le; omega, window_push _ _ _ _ hk, List.map_append, List.map_cons, List.map_nil,
    toNat_toUInt16 hi]

/-- Submitting a chain of three free descriptors keeps the invariant. -/
theorem Inv.submit_ok (hs : Inv s) {p : Fin NPROC} {b : Nat} {w : Bool} {i0 i1 i2 : Nat}
    (hp : (s.call p).chain = []) (hb : ∀ q, q ≠ p → (s.call q).buf ≠ some b)
    (hnd : [i0, i1, i2].Nodup) (hfree : ∀ j ∈ [i0, i1, i2], j < NUM ∧ s.disk.free j = true) :
    Inv (submit { s with disk := s.disk.take [i0, i1, i2] } p b w i0 i1 i2) := by
  set s' := submit { s with disk := s.disk.take [i0, i1, i2] } p b w i0 i1 i2 with hs'
  obtain ⟨h0, f0⟩ := hfree i0 (by simp)
  have h01 : i0 ≠ i1 := fun h => by simp [h] at hnd
  have h02 : i0 ≠ i2 := fun h => by simp [h] at hnd
  have h12 : i1 ≠ i2 := fun h => by simp [h] at hnd
  -- the new chain's descriptors were free, so no chain held them
  have hnotin : ∀ q j, j ∈ [i0, i1, i2] → j ∉ (s.call q).chain := fun q j hj =>
    (hs.free_iff j (hfree j hj).1).mp (hfree j hj).2 q
  have hcall : ∀ q, q ≠ p → s'.call q = s.call q := fun q hq => Function.update_of_ne hq _ _
  have hchain : ∀ q, (s'.call q).chain = if q = p then [i0, i1, i2] else (s.call q).chain := by
    intro q
    by_cases hq : q = p
    · subst hq; simp [hs', submit, Call.chain]
    · rw [hcall q hq, if_neg hq]
  have hold : ∀ q b' w' j0 j1 j2 rid, s.call q = .waitDone b' w' j0 j1 j2 rid →
      q ≠ p ∧ ∀ j ∈ [j0, j1, j2], j ∉ [i0, i1, i2] := by
    intro q b' w' j0 j1 j2 rid hq
    refine ⟨fun h => chain_eq_nil hp b' w' j0 j1 j2 rid (h ▸ hq), fun j hj hj' => hnotin q j hj' ?_⟩
    simpa [hq, Call.chain] using hj
  have hdesc : ∀ j, j ∉ [i0, i1, i2] → s'.disk.desc j = s.disk.desc j := by
    intro j hj
    simp only [List.mem_cons, List.not_mem_nil, or_false, not_or] at hj
    simp [hs', submit, Disk.take, Function.update_of_ne hj.1, Function.update_of_ne hj.2.1,
      Function.update_of_ne hj.2.2]
  have havail : availQ s' = availQ s ++ [i0] := hs.availQ_submit h0 f0 (s.disk.take [i0, i1, i2]) rfl
  have hused : usedQ s' = usedQ s := rfl
  have honDevice : onDevice s' = availQ s ++ [i0] ++ s.dev.busy ++ usedQ s := by
    rw [onDevice, havail, hused]
    rfl
  have hi0 : i0 ∉ onDevice s := hs.not_onDevice_of_free h0 f0
  refine
    { avail_idx := succ_toNat_of_count hs.avail_idx
      last_avail := hs.last_avail
      used_idx := hs.used_idx
      usedIdx := hs.usedIdx
      fetch_le := Nat.le_succ_of_le hs.fetch_le
      seen_le := hs.seen_le
      free_iff := fun i hi => ?free_iff
      disjoint := fun q q' i h h' => ?disjoint
      cleared := fun i hi hf => ?cleared
      formatted := fun q b' w' j0 j1 j2 rid hq => ?formatted
      nodup := ?nodup
      heads := fun h hh => ?heads
      stage := fun q b' w' j0 j1 j2 rid hq => ?stage
      bufs := fun q q' b' h h' => ?bufs
      rids := fun q q' b₁ b₂ w₁ w₂ j0 j1 j2 k0 k1 k2 rid hq hq' => ?rids }
  case free_iff =>
    simp only [hchain]
    by_cases hL : i ∈ [i0, i1, i2]
    · simp only [hs', submit, Disk.take, hL, if_true, Bool.false_eq_true, false_iff, not_forall, not_not]
      exact ⟨p, by simpa using hL⟩
    · have hf : s'.disk.free i = s.disk.free i := if_neg hL
      rw [hf, hs.free_iff i hi]
      refine forall_congr' fun q => ?_
      by_cases hq : q = p
      · simp [hq, hp, hL]
      · simp [hq]
  case disjoint =>
    rw [hchain] at h h'
    by_cases hq : q = p <;> by_cases hq' : q' = p
    · rw [hq, hq']
    · rw [if_pos hq] at h; rw [if_neg hq'] at h'
      exact absurd h' (hnotin q' i h)
    · rw [if_neg hq] at h; rw [if_pos hq'] at h'
      exact absurd h (hnotin q i h')
    · rw [if_neg hq] at h; rw [if_neg hq'] at h'
      exact hs.disjoint q q' i h h'
  case cleared =>
    have hL : i ∉ [i0, i1, i2] := fun hL => by
      rw [show s'.disk.free i = false from if_pos hL] at hf
      cases hf
    have hf' : s.disk.free i = true := by rwa [show s'.disk.free i = s.disk.free i from if_neg hL] at hf
    rw [hdesc i hL]
    exact hs.cleared i hi hf'
  case formatted =>
    by_cases hqp : q = p
    · -- the new chain, as `submit` formats it
      subst hqp
      simp only [hs', submit, Function.update_self, Call.waitDone.injEq] at hq
      obtain ⟨rfl, rfl, rfl, rfl, rfl, rfl⟩ := hq
      refine ⟨⟨⟨fun j hj => (hfree j hj).1, hnd, ?_, ?_, ?_⟩, ?_, ?_⟩, by simp [hs', submit], Nat.lt_succ_self _⟩
      · simp [hs', submit, Function.update_of_ne h01, Function.update_of_ne h02]
      · simp [hs', submit, Function.update_of_ne h12]
      · simp [hs', submit]
      · simp [hs', submit]
      · simp [hs', submit]
    · rw [hcall q hqp] at hq
      obtain ⟨hform, hrid, hlt⟩ := hs.formatted q b' w' j0 j1 j2 rid hq
      obtain ⟨-, hout⟩ := hold q b' w' j0 j1 j2 rid hq
      have hj0 : j0 ≠ i0 := fun h => hout j0 (by simp) (by simp [h])
      refine ⟨hform.congr (fun j hj => hdesc j (hout j hj)) ?_ ?_, ?_, Nat.lt_succ_of_lt hlt⟩
      · simp [hs', submit, Function.update_of_ne hj0]
      · simp [hs', submit, Function.update_of_ne hj0]
      · simp [hs', submit, Function.update_of_ne hj0, hrid]
  case nodup =>
    rw [honDevice]
    have hperm : (availQ s ++ [i0] ++ s.dev.busy ++ usedQ s).Perm (onDevice s ++ [i0]) := by
      rw [List.perm_iff_count]
      intro a
      simp only [onDevice, List.count_append]
      omega
    refine hperm.nodup_iff.mpr (List.nodup_append.mpr ⟨hs.nodup, List.nodup_singleton i0, ?_⟩)
    intro a ha c hc hac
    rw [List.mem_singleton.mp hc] at hac
    exact hi0 (hac ▸ ha)
  case heads =>
    rw [honDevice] at hh
    have hh' : h = i0 ∨ h ∈ onDevice s := by
      simp only [onDevice, List.mem_append, List.mem_singleton] at hh ⊢
      tauto
    rcases hh' with rfl | hh'
    · exact ⟨p, b, w, i1, i2, s.nPub, by simp [hs', submit]⟩
    · obtain ⟨q, b', w', j1, j2, rid, hq⟩ := hs.heads h hh'
      exact ⟨q, b', w', j1, j2, rid, by rw [hcall q (hold q b' w' h j1 j2 rid hq).1]; exact hq⟩
  case stage =>
    by_cases hqp : q = p
    · subst hqp
      simp only [hs', submit, Function.update_self, Call.waitDone.injEq] at hq
      obtain ⟨rfl, rfl, rfl, rfl, rfl, rfl⟩ := hq
      refine .inl ⟨?_, by simp [hs', submit], by simp [hs', submit], by simp [hs', submit]⟩
      rw [havail]
      simp
    · rw [hcall q hqp] at hq
      obtain ⟨-, hout⟩ := hold q b' w' j0 j1 j2 rid hq
      have hj0 : j0 ≠ i0 := fun h => hout j0 (by simp) (by simp [h])
      have hbb : b' ≠ b := fun h => hb q hqp (by simp [hq, Call.buf, h])
      have hrid : rid ≠ s.nPub := (Nat.ne_of_lt (hs.formatted q b' w' j0 j1 j2 rid hq).2.2)
      have hbuf : s'.bufDisk b' = s.bufDisk b' := by simp [hs', submit, Function.update_of_ne hbb]
      have hstat : (s'.disk.info j0).status = (s.disk.info j0).status := by
        simp [hs', submit, Function.update_of_ne hj0]
      have hcomp : s'.completed rid = s.completed rid := by simp [hs', submit, Function.update_of_ne hrid]
      rw [hbuf, hstat, hcomp, honDevice, havail, hused]
      rcases hs.stage q b' w' j0 j1 j2 rid hq with ⟨hm, h2, h3, h4⟩ | ⟨hm, h2, h3, h4⟩ | ⟨hm, h2, h4⟩
      · refine .inl ⟨?_, h2, h3, h4⟩
        simp only [List.mem_append] at hm ⊢
        tauto
      · exact .inr (.inl ⟨hm, h2, h3, h4⟩)
      · refine .inr (.inr ⟨?_, h2, h4⟩)
        simp only [onDevice, List.mem_append, List.mem_singleton, not_or] at hm ⊢
        tauto
  case bufs =>
    by_cases hq : q = p <;> by_cases hq' : q' = p
    · rw [hq, hq']
    · subst hq
      simp only [hs', submit, Function.update_self, Call.buf, Option.some.injEq] at h
      rw [hcall q' hq'] at h'
      exact absurd (h ▸ h') (hb q' hq')
    · subst hq'
      simp only [hs', submit, Function.update_self, Call.buf, Option.some.injEq] at h'
      rw [hcall q hq] at h
      exact absurd (h' ▸ h) (hb q hq)
    · rw [hcall q hq] at h
      rw [hcall q' hq'] at h'
      exact hs.bufs q q' b' h h'
  case rids =>
    -- the new request is numbered past every old one
    have hnew : ∀ r b₀ w₀ l0 l1 l2, r ≠ p → s'.call r = .waitDone b₀ w₀ l0 l1 l2 rid → rid < s.nPub :=
      fun r b₀ w₀ l0 l1 l2 hr h => (hs.formatted r b₀ w₀ l0 l1 l2 rid (by rwa [hcall r hr] at h)).2.2
    have hp' : ∀ b₀ w₀ l0 l1 l2, s'.call p = .waitDone b₀ w₀ l0 l1 l2 rid → rid = s.nPub := by
      intro b₀ w₀ l0 l1 l2 h
      simp only [hs', submit, Function.update_self, Call.waitDone.injEq] at h
      exact h.2.2.2.2.2.symm
    by_cases hqp : q = p <;> by_cases hqp' : q' = p
    · rw [hqp, hqp']
    · subst hqp
      exact absurd (hp' _ _ _ _ _ hq) (Nat.ne_of_lt (hnew q' _ _ _ _ _ hqp' hq'))
    · subst hqp'
      exact absurd (hp' _ _ _ _ _ hq') (Nat.ne_of_lt (hnew q _ _ _ _ _ hqp hq))
    · rw [hcall q hqp] at hq
      rw [hcall q' hqp'] at hq'
      exact hs.rids q q' _ _ _ _ _ _ _ _ _ _ _ hq hq'

theorem Inv.rwAlloc_ok (hs : Inv s) {p : Fin NPROC} {b : Nat} {w : Bool} (hp : (s.call p).chain = [])
    (hb : ∀ q, q ≠ p → (s.call q).buf ≠ some b) (h : rwAlloc s p b w = .ok s') : Inv s' := by
  rcases hs.rwAlloc_cases p b w with h' | ⟨i0, i1, i2, hnd, hfree, h'⟩
  · obtain rfl := Except.ok.inj (h'.symm.trans h)
    exact hs.waitDesc hp hb
  · obtain rfl := Except.ok.inj (h'.symm.trans h)
    exact hs.submit_ok hp hb hnd hfree

/-- Back from `sleep(b)`, `virtio_disk_rw` sleeps again while `b->disk` is
set; once `virtio_disk_intr` has cleared it, the request is done and off the
device, and the call clears `info[i0].b`, frees its chain and returns. -/
theorem Inv.rwDone_cases (hs : Inv s) {p : Fin NPROC} {b : Nat} {w : Bool} {i0 i1 i2 rid : Nat}
    (hp : s.call p = .waitDone b w i0 i1 i2 rid) :
    (s.bufDisk b = true ∧ rwDone s p b i0 = .ok s) ∨
    (s.bufDisk b = false ∧ s.completed rid = true ∧ i0 ∉ onDevice s ∧
      rwDone s p b i0 = .ok { s with
        disk := Disk.release { s.disk with info := Function.update s.disk.info i0 ⟨none, (s.disk.info i0).status⟩ }
          [i0, i1, i2]
        call := Function.update s.call p .idle }) := by
  cases hbd : s.bufDisk b
  · -- the request is past the device: the only stage with `b->disk == 0`
    obtain ⟨hm, -, hc⟩ : i0 ∉ onDevice s ∧ s.bufDisk b = false ∧ s.completed rid = true := by
      rcases hs.stage p b w i0 i1 i2 rid hp with ⟨-, h, -⟩ | ⟨-, h, -⟩ | h
      · rw [hbd] at h; cases h
      · rw [hbd] at h; cases h
      · exact h
    have hchain : Chain { s.disk with info := Function.update s.disk.info i0 ⟨none, (s.disk.info i0).status⟩ }
        b w i0 i1 i2 := (hs.formatted p b w i0 i1 i2 rid hp).1.toChain.congr fun _ _ => rfl
    refine .inr ⟨rfl, hc, hm, ?_⟩
    rw [rwDone, if_neg (by simp [hbd]), hchain.freeChain_ok (hs.chain_busy hp), Exc.ok_bind]
  · exact .inl ⟨rfl, by rw [rwDone, if_pos hbd]⟩

/-- Clearing `info[i0].b` and freeing the chain of a request that is off the
device keeps the invariant. -/
theorem Inv.finish_ok (hs : Inv s) {p : Fin NPROC} {b : Nat} {w : Bool} {i0 i1 i2 rid : Nat}
    (hp : s.call p = .waitDone b w i0 i1 i2 rid) (hm : i0 ∉ onDevice s) :
    Inv { s with
        disk := Disk.release { s.disk with info := Function.update s.disk.info i0 ⟨none, (s.disk.info i0).status⟩ }
          [i0, i1, i2]
        call := Function.update s.call p .idle } := by
  set s' : Sys := { s with
        disk := Disk.release { s.disk with info := Function.update s.disk.info i0 ⟨none, (s.disk.info i0).status⟩ }
          [i0, i1, i2]
        call := Function.update s.call p .idle } with hs'
  have hcall : ∀ q, q ≠ p → s'.call q = s.call q := fun q hq => Function.update_of_ne hq _ _
  have hpchain : (s.call p).chain = [i0, i1, i2] := by rw [hp]; rfl
  -- the other chains keep clear of the freed one
  have hout : ∀ q, q ≠ p → ∀ j ∈ (s.call q).chain, j ∉ [i0, i1, i2] := fun q hq j hj hj' =>
    hq (hs.disjoint q p j hj (hpchain ▸ hj'))
  have hsub : ∀ q j, j ∈ (s'.call q).chain → j ∈ (s.call q).chain := by
    intro q j hj
    by_cases hq : q = p
    · subst hq; simp [hs', Call.chain] at hj
    · rwa [hcall q hq] at hj
  have hdone : ∀ q b' w' j0 j1 j2 rid', s'.call q = .waitDone b' w' j0 j1 j2 rid' →
      q ≠ p ∧ s.call q = .waitDone b' w' j0 j1 j2 rid' := by
    intro q b' w' j0 j1 j2 rid' hq
    have hqp : q ≠ p := by rintro rfl; simp [hs'] at hq
    exact ⟨hqp, by rwa [hcall q hqp] at hq⟩
  have hstatus : ∀ j, (s'.disk.info j).status = (s.disk.info j).status := by
    intro j
    by_cases hj : j = i0
    · subst hj; simp [hs', Disk.release]
    · simp [hs', Disk.release, Function.update_of_ne hj]
  have honDevice : onDevice s' = onDevice s := rfl
  refine { hs with
    free_iff := fun i hi => ?free_iff
    disjoint := fun q q' i h h' => hs.disjoint q q' i (hsub q i h) (hsub q' i h')
    cleared := fun i hi hf => ?cleared
    formatted := fun q b' w' j0 j1 j2 rid' hq => ?formatted
    heads := fun h hh => ?heads
    stage := fun q b' w' j0 j1 j2 rid' hq => ?stage
    bufs := bufs_update hs.bufs fun b' h => by simp [Call.buf] at h
    rids := fun q q' _ _ _ _ _ _ _ _ _ _ _ hq hq' =>
      hs.rids q q' _ _ _ _ _ _ _ _ _ _ _ (hdone _ _ _ _ _ _ _ hq).2 (hdone _ _ _ _ _ _ _ hq').2 }
  case free_iff =>
    by_cases hL : i ∈ [i0, i1, i2]
    · -- freed: no chain holds it any more
      refine iff_of_true (if_pos hL) fun q hq => ?_
      by_cases hqp : q = p
      · subst hqp; simp [hs', Call.chain] at hq
      · exact hout q hqp i (by rwa [hcall q hqp] at hq) hL
    · rw [show s'.disk.free i = s.disk.free i from if_neg hL, hs.free_iff i hi]
      refine forall_congr' fun q => ?_
      by_cases hqp : q = p
      · subst hqp; rw [hpchain]; simp [hs', Call.chain, hL]
      · rw [hcall q hqp]
  case cleared =>
    by_cases hL : i ∈ [i0, i1, i2]
    · exact if_pos hL
    · rw [show s'.disk.desc i = s.disk.desc i from if_neg hL]
      exact hs.cleared i hi (by rwa [show s'.disk.free i = s.disk.free i from if_neg hL] at hf)
  case formatted =>
    obtain ⟨hqp, hq⟩ := hdone q b' w' j0 j1 j2 rid' hq
    obtain ⟨hform, hrid, hlt⟩ := hs.formatted q b' w' j0 j1 j2 rid' hq
    have hj : ∀ j ∈ [j0, j1, j2], j ∉ [i0, i1, i2] := fun j hj => hout q hqp j (by rw [hq]; exact hj)
    have hj0 : j0 ≠ i0 := fun h => hj j0 (by simp) (by simp [h])
    refine ⟨hform.congr (fun j hj' => if_neg (hj j hj')) ?_ rfl, hrid, hlt⟩
    simp [hs', Disk.release, Function.update_of_ne hj0]
  case heads =>
    obtain ⟨q, b', w', j1, j2, rid', hq⟩ := hs.heads h hh
    have hqp : q ≠ p := by
      rintro rfl
      obtain ⟨-, -, rfl, -⟩ := Call.waitDone.inj (hp.symm.trans hq)
      exact hm hh
    exact ⟨q, b', w', j1, j2, rid', by rw [hcall q hqp]; exact hq⟩
  case stage =>
    rw [hstatus, honDevice]
    exact hs.stage q b' w' j0 j1 j2 rid' (hdone q b' w' j0 j1 j2 rid' hq).2

theorem Inv.intrRound_cases (hs : Inv s) (hlt : s.nSeen < s.nComp) :
    ∃ p b w i1 i2 rid,
      s.call p = .waitDone b w (s.disk.used.ring (s.disk.usedIdx.toNat % NUM)).toNat i1 i2 rid ∧
      s.completed rid = true ∧
      intrRound s = .ok { s with
        bufDisk := Function.update s.bufDisk b false
        disk := { s.disk with usedIdx := s.disk.usedIdx + 1 }
        nSeen := s.nSeen + 1 } := by
  have hmem : (s.disk.used.ring (s.disk.usedIdx.toNat % NUM)).toNat ∈ usedQ s := by
    rw [hs.usedQ_cons hlt]
    exact List.mem_cons_self
  obtain ⟨p, b, w, i1, i2, rid, hp⟩ := hs.heads _ (List.mem_append_right _ hmem)
  obtain ⟨-, hst, hc⟩ := hs.stage_used hp hmem
  have hinfo := (hs.formatted p b w _ i1 i2 rid hp).1.info
  refine ⟨p, b, w, i1, i2, rid, hp, hc, ?_⟩
  simp only [intrRound, hst, hinfo, ne_eq, not_true_eq_false, if_false]

/-- A round of `virtio_disk_intr` keeps the invariant. -/
theorem Inv.intrRound_ok (hs : Inv s) (hlt : s.nSeen < s.nComp) (h : intrRound s = .ok s') : Inv s' := by
  obtain ⟨p, b, w, i1, i2, rid, hp, hc, hr⟩ := hs.intrRound_cases hlt
  obtain rfl := Except.ok.inj (hr.symm.trans h)
  set id := (s.disk.used.ring (s.disk.usedIdx.toNat % NUM)).toNat
  set s' : Sys := { s with
    bufDisk := Function.update s.bufDisk b false
    disk := { s.disk with usedIdx := s.disk.usedIdx + 1 }
    nSeen := s.nSeen + 1 } with hs'
  -- the seen entry leaves the front of the used ring's unseen entries
  have hused : usedQ s = id :: usedQ s' := hs.usedQ_cons hlt
  have honDevice : onDevice s = availQ s' ++ s'.dev.busy ++ id :: usedQ s' := by rw [onDevice, hused]; rfl
  have hnd := hs.nodup
  rw [honDevice] at hnd
  have hsub : ∀ j ∈ onDevice s', j ∈ onDevice s := fun j hj => by
    rw [honDevice]
    simp only [onDevice, List.mem_append, List.mem_cons] at hj ⊢
    tauto
  have hid : id ∉ onDevice s' := by
    have h1 := List.disjoint_of_nodup_append hnd
    have h2 := (List.nodup_append.mp hnd).2.1
    rw [onDevice, List.mem_append, not_or]
    exact ⟨fun h => h1 h List.mem_cons_self, (List.nodup_cons.mp h2).1⟩
  refine { hs with
    usedIdx := succ_toNat_of_count hs.usedIdx
    seen_le := hlt
    formatted := fun q b' w' j0 j1 j2 rid' hq =>
      (hs.formatted q b' w' j0 j1 j2 rid' hq).imp_left fun h => h.congr (fun _ _ => rfl) rfl rfl
    nodup := ?nodup
    heads := fun j hj => hs.heads j (hsub j hj)
    stage := fun q b' w' j0 j1 j2 rid' hq => ?stage }
  case nodup =>
    refine hnd.sublist ?_
    exact (List.sublist_cons_self _ _).append_left _
  case stage =>
    replace hq : s.call q = .waitDone b' w' j0 j1 j2 rid' := hq
    by_cases hqp : q = p
    · -- the call whose request was seen: its buffer is done
      subst hqp
      obtain ⟨rfl, -, rfl, -, -, rfl⟩ := Call.waitDone.inj (hp.symm.trans hq)
      exact .inr (.inr ⟨hid, Function.update_self .., hc⟩)
    · have hbb : b' ≠ b := fun hbb => hqp (hs.bufs q p b' (by simp [hq, Call.buf])
        (by simp [hp, Call.buf, hbb]))
      have hj0 : j0 ≠ id := fun hj => hqp (hs.disjoint q p j0 (by simp [hq, Call.chain])
        (by simp [hp, Call.chain, hj]))
      have hbuf : s'.bufDisk b' = s.bufDisk b' := Function.update_of_ne hbb _ _
      rw [hbuf]
      rcases hs.stage q b' w' j0 j1 j2 rid' hq with h1 | ⟨hm, h2⟩ | ⟨hm, h3⟩
      · exact .inl h1
      · rw [hused, List.mem_cons] at hm
        exact .inr (.inl ⟨hm.resolve_left hj0, h2⟩)
      · exact .inr (.inr ⟨fun h => hm (hsub j0 h), h3⟩)

theorem Inv.intrLoop_ok : ∀ {s : Sys} (k : Nat), Inv s → s.nComp - s.nSeen ≤ k →
    ∃ s', intrLoop s k = .ok s' ∧ Inv s' ∧ s'.nSeen = s'.nComp
  | s, 0, hs, hk => ⟨s, rfl, hs, by have := hs.seen_le; omega⟩
  | s, k + 1, hs, hk => by
    by_cases hlt : s.nSeen < s.nComp
    · obtain ⟨p, b, w, i1, i2, rid, -, -, hr⟩ := hs.intrRound_cases hlt
      have hne : s.disk.usedIdx ≠ s.disk.used.idx := fun h => by
        have := hs.usedIdx_eq_iff.mp h
        omega
      obtain ⟨s'', h'', hinv, heq⟩ := Inv.intrLoop_ok k (hs.intrRound_ok hlt hr) (by dsimp only; omega)
      exact ⟨s'', by rw [intrLoop, if_neg hne, hr, Exc.ok_bind, h''], hinv, heq⟩
    · have heq : s.nSeen = s.nComp := le_antisymm hs.seen_le (not_lt.mp hlt)
      exact ⟨s, by rw [intrLoop, if_pos (hs.usedIdx_eq_iff.mpr heq)], hs, heq⟩

theorem Inv.intr_ok (hs : Inv s) : ∃ s', virtioDiskIntr s = .ok s' ∧ Inv s' ∧ s'.nSeen = s'.nComp :=
  hs.intrLoop_ok _ (le_of_eq hs.intr_count.symm)

/-- The device reading a head keeps the invariant: the head moves from the
avail ring to the device. -/
theorem Inv.fetch_ok (hs : Inv s) (h : fetch s = some s') : Inv s' := by
  unfold fetch at h
  split_ifs at h with hne
  obtain rfl := Option.some.inj h
  have hlt : s.nFetch < s.nPub := lt_of_le_of_ne hs.fetch_le fun h => hne (hs.lastAvail_eq_iff.mpr h)
  set s' : Sys := { s with
    dev := ⟨s.dev.lastAvail + 1, s.dev.busy ++ [(s.disk.avail.ring (s.dev.lastAvail.toNat % NUM)).toNat]⟩
    nFetch := s.nFetch + 1 } with hs'
  set id := (s.disk.avail.ring (s.dev.lastAvail.toNat % NUM)).toNat
  have havail : availQ s = id :: availQ s' := hs.availQ_cons hlt
  -- the device side is the same set of heads, the taken one moved to `busy`
  have hsent : ∀ j, j ∈ availQ s' ++ s'.dev.busy ↔ j ∈ availQ s ++ s.dev.busy := fun j => by
    rw [havail]
    simp only [hs', List.mem_append, List.mem_cons]
    tauto
  have hperm : (onDevice s').Perm (onDevice s) := by
    have h1 : (availQ s' ++ (s.dev.busy ++ [id])).Perm (id :: availQ s' ++ s.dev.busy) := by
      rw [← List.append_assoc]
      exact List.perm_append_singleton _ _
    rw [onDevice, onDevice, havail]
    exact h1.append_right _
  refine { hs with
    last_avail := succ_toNat_of_count hs.last_avail
    fetch_le := hlt
    nodup := hperm.nodup_iff.mpr hs.nodup
    heads := fun j hj => hs.heads j (hperm.mem_iff.mp hj)
    stage := fun q b' w' j0 j1 j2 rid' hq => ?stage }
  rw [hsent, hperm.mem_iff]
  exact hs.stage q b' w' j0 j1 j2 rid' hq

theorem Chain.complete_eq {b : Nat} {w : Bool} {h i1 i2 : Nat} (hc : Chain s.disk b w h i1 i2) :
    complete s h = .ok { s with
      disk := { s.disk with
        info := Function.update s.disk.info h ⟨(s.disk.info h).b, 0⟩
        used := ⟨s.disk.used.idx + 1,
          Function.update s.disk.used.ring (s.disk.used.idx.toNat % NUM) h.toUInt32⟩ }
      dev := { s.dev with busy := s.dev.busy.erase h }
      nComp := s.nComp + 1
      completed := Function.update s.completed (s.ridOf h) true } := by
  obtain ⟨-, h1, h2⟩ : h < NUM ∧ i1 < NUM ∧ i2 < NUM := by simpa using hc.lt
  have hflags : ¬((VRING_DESC_F_NEXT &&& VRING_DESC_F_NEXT = 0) ∨
      ((if w then 0 else VRING_DESC_F_WRITE) ||| VRING_DESC_F_NEXT) &&& VRING_DESC_F_NEXT = 0) := by
    rintro (h | h)
    · exact absurd h (by decide)
    · exact flags_data_next w h
  simp only [complete, hc.desc0, toNat_toUInt16 h1, hc.desc1, toNat_toUInt16 h2, hc.desc2]
  rw [if_neg hflags]

/-- The device completing a head it holds keeps the invariant: the head
moves to the used ring with status 0, and its request is completed. -/
theorem Inv.complete_ok (hs : Inv s) {h : Nat} (hh : h ∈ s.dev.busy) (hc : complete s h = .ok s') : Inv s' := by
  obtain ⟨p, b, w, i1, i2, rid, hp⟩ := hs.heads h (by simp [onDevice, hh])
  obtain ⟨hform, hrid, -⟩ := hs.formatted p b w h i1 i2 rid hp
  obtain ⟨-, hbd, -, hc0⟩ : h ∈ availQ s ++ s.dev.busy ∧ s.bufDisk b = true ∧
      (s.disk.info h).status = 0xff ∧ s.completed rid = false := by
    rcases hs.stage p b w h i1 i2 rid hp with h1 | ⟨hm, -⟩ | ⟨hm, -⟩
    · exact h1
    · exact ((List.disjoint_of_nodup_append hs.nodup) (List.mem_append_right _ hh) hm).elim
    · exact absurd (by simp [onDevice, hh]) hm
  obtain rfl := Except.ok.inj (hform.complete_eq.symm.trans hc)
  set s' : Sys := { s with
      disk := { s.disk with
        info := Function.update s.disk.info h ⟨(s.disk.info h).b, 0⟩
        used := ⟨s.disk.used.idx + 1,
          Function.update s.disk.used.ring (s.disk.used.idx.toNat % NUM) h.toUInt32⟩ }
      dev := { s.dev with busy := s.dev.busy.erase h }
      nComp := s.nComp + 1
      completed := Function.update s.completed (s.ridOf h) true } with hs'
  have hk := hs.used_lt_of_busy hh
  have hslot : s.disk.used.idx.toNat % NUM = (s.nSeen + (s.nComp - s.nSeen)) % NUM := by
    rw [slot_of_count hs.used_idx, Nat.add_sub_cancel' hs.seen_le]
  -- the returned head joins the back of the used ring's unseen entries
  have hused : usedQ s' = usedQ s ++ [h] := by
    simp only [usedQ, hs', hslot, show s.nComp + 1 - s.nSeen = s.nComp - s.nSeen + 1 by
      have := hs.seen_le; omega, window_push _ _ _ _ hk, List.map_append, List.map_cons, List.map_nil,
      toNat_toUInt32 (hform.lt h (by simp))]
  have hperm : (onDevice s').Perm (onDevice s) := by
    have hB : s.dev.busy.Perm (s.dev.busy.erase h ++ [h]) :=
      (List.perm_cons_erase hh).trans (List.perm_append_singleton h _).symm
    rw [onDevice, hused, onDevice, List.append_assoc, List.append_assoc]
    refine List.Perm.append_left _ ?_
    have hswap : (s.dev.busy.erase h ++ (usedQ s ++ [h])).Perm (s.dev.busy.erase h ++ [h] ++ usedQ s) := by
      rw [List.append_assoc]
      exact List.Perm.append_left _ List.perm_append_comm
    exact hswap.trans (hB.symm.append_right _)
  have hinfo : ∀ j, (s'.disk.info j).b = (s.disk.info j).b := fun j => by
    by_cases hj : j = h
    · subst hj; simp [hs']
    · simp [hs', Function.update_of_ne hj]
  refine { hs with
    used_idx := succ_toNat_of_count hs.used_idx
    seen_le := Nat.le_succ_of_le hs.seen_le
    formatted := fun q b' w' j0 j1 j2 rid' hq =>
      (hs.formatted q b' w' j0 j1 j2 rid' hq).imp_left fun h => h.congr (fun _ _ => rfl) (hinfo j0) rfl
    nodup := hperm.nodup_iff.mpr hs.nodup
    heads := fun j hj => hs.heads j (hperm.mem_iff.mp hj)
    stage := fun q b' w' j0 j1 j2 rid' hq => ?stage }
  replace hq : s.call q = .waitDone b' w' j0 j1 j2 rid' := hq
  by_cases hqp : q = p
  · -- the completed request has returned
    subst hqp
    obtain ⟨rfl, -, rfl, -, -, rfl⟩ := Call.waitDone.inj (hp.symm.trans hq)
    refine .inr (.inl ⟨by simp [hused], hbd, by simp [hs'], by simp [hs', hrid]⟩)
  · have hj0 : j0 ≠ h := fun hj => hqp (hs.disjoint q p j0 (by simp [hq, Call.chain])
      (by simp [hp, Call.chain, hj]))
    have hr : rid' ≠ s.ridOf h := by
      rw [hrid]
      rintro rfl
      exact hqp (hs.rids q p _ _ _ _ _ _ _ _ _ _ _ hq hp)
    have hst : (s'.disk.info j0).status = (s.disk.info j0).status := by simp [hs', Function.update_of_ne hj0]
    have hcp : s'.completed rid' = s.completed rid' := Function.update_of_ne hr _ _
    rw [hst, hcp, hperm.mem_iff, hused]
    rcases hs.stage q b' w' j0 j1 j2 rid' hq with ⟨hm, h1⟩ | ⟨hm, h2⟩ | h3
    · refine .inl ⟨?_, h1⟩
      simp only [List.mem_append, hs'] at hm ⊢
      exact hm.imp_right fun hm => (List.mem_erase_of_ne hj0).mpr hm
    · exact .inr (.inl ⟨List.mem_append_left _ hm, h2⟩)
    · exact .inr (.inr h3)

end Steps

/-! ## Runs -/

section Runs

variable {s s' : Sys}

theorem Inv.rwAlloc_total (hs : Inv s) (p : Fin NPROC) (b : Nat) (w : Bool) :
    ∃ s', rwAlloc s p b w = .ok s' := by
  rcases hs.rwAlloc_cases p b w with h | ⟨i0, i1, i2, -, -, h⟩
  · exact ⟨_, h⟩
  · exact ⟨_, h⟩

/-- Every step keeps the invariant. -/
theorem Inv.step_ok (hs : Inv s) {e : Event} (h : step s e = .ok (some s')) : Inv s' := by
  cases e with
  | rw p b w =>
    simp only [step] at h
    split_ifs at h with hg
    · exact hs.rwAlloc_ok (by rw [hg.1]; rfl) (fun q _ => hg.2 q) (Exc.map_some_eq_ok h)
    · simp at h
  | retry p =>
    cases hp : s.call p with
    | waitDesc b w =>
      simp only [step, hp] at h
      -- the other calls are on other buffers
      have hb : ∀ q, q ≠ p → (s.call q).buf ≠ some b := fun q hq hbq =>
        hq (hs.bufs q p b hbq (by rw [hp]; rfl))
      exact hs.rwAlloc_ok (by rw [hp]; rfl) hb (Exc.map_some_eq_ok h)
    | idle => simp [step, hp] at h
    | waitDone => simp [step, hp] at h
  | wake p =>
    cases hp : s.call p with
    | waitDone b w i0 i1 i2 rid =>
      simp only [step, hp] at h
      have h' := Exc.map_some_eq_ok h
      rcases hs.rwDone_cases hp with ⟨-, hr⟩ | ⟨-, -, hm, hr⟩
      · obtain rfl := Except.ok.inj (hr.symm.trans h')
        exact hs
      · obtain rfl := Except.ok.inj (hr.symm.trans h')
        exact hs.finish_ok hp hm
    | idle => simp [step, hp] at h
    | waitDesc => simp [step, hp] at h
  | intr =>
    obtain ⟨s'', h'', hinv, -⟩ := hs.intr_ok
    obtain rfl := Except.ok.inj (h''.symm.trans (Exc.map_some_eq_ok h))
    exact hinv
  | fetch => exact hs.fetch_ok (Except.ok.inj h)
  | complete j =>
    simp only [step] at h
    split_ifs at h with hj
    · exact hs.complete_ok hj (Exc.map_some_eq_ok h)
    · simp at h

theorem Reachable.inv (h : Reachable s) : Inv s := by
  induction h with
  | init => exact init_inv
  | step e _ hst ih => exact ih.step_ok hst

/-- No step panics: neither `free_desc`, `free_chain`, `virtio_disk_intr`
nor the device's walk of a chain. -/
theorem Inv.step_total (hs : Inv s) (e : Event) : ∃ r, step s e = .ok r := by
  cases e with
  | rw p b w =>
    simp only [step]
    split_ifs
    · obtain ⟨s', h⟩ := hs.rwAlloc_total p b w
      exact ⟨some s', by rw [h]; rfl⟩
    · exact ⟨none, rfl⟩
  | retry p =>
    cases hp : s.call p with
    | waitDesc b w =>
      obtain ⟨s', h⟩ := hs.rwAlloc_total p b w
      exact ⟨some s', by simp only [step, hp, h]; rfl⟩
    | idle => exact ⟨none, by simp only [step, hp]⟩
    | waitDone => exact ⟨none, by simp only [step, hp]⟩
  | wake p =>
    cases hp : s.call p with
    | waitDone b w i0 i1 i2 rid =>
      rcases hs.rwDone_cases hp with ⟨-, hr⟩ | ⟨-, -, -, hr⟩
      · exact ⟨_, by simp only [step, hp, hr]; rfl⟩
      · exact ⟨_, by simp only [step, hp, hr]; rfl⟩
    | idle => exact ⟨none, by simp only [step, hp]⟩
    | waitDesc => exact ⟨none, by simp only [step, hp]⟩
  | intr =>
    obtain ⟨s', h, -⟩ := hs.intr_ok
    exact ⟨some s', by simp only [step, h]; rfl⟩
  | fetch => exact ⟨fetch s, rfl⟩
  | complete j =>
    simp only [step]
    split_ifs with hj
    · obtain ⟨p, b, w, i1, i2, rid, hp⟩ := hs.heads j (by simp [onDevice, hj])
      rw [(hs.formatted p b w j i1 i2 rid hp).1.complete_eq]
      exact ⟨_, rfl⟩
    · exact ⟨none, rfl⟩

/-! ### Which steps move a call -/

/-- `virtio_disk_intr` changes no call. -/
theorem intrLoop_call : ∀ {s s' : Sys} (k : Nat), intrLoop s k = .ok s' → s'.call = s.call
  | s, s', 0, h => by
    obtain rfl := Except.ok.inj h
    rfl
  | s, s', k + 1, h => by
    unfold intrLoop at h
    split_ifs at h
    · obtain rfl := Except.ok.inj h
      rfl
    · obtain ⟨s₁, h₁, h⟩ := Exc.bind_eq_ok.mp h
      -- a round only clears a buffer's flag and moves `used_idx`
      have hround : s₁.call = s.call := by
        unfold intrRound at h₁
        dsimp only at h₁
        split_ifs at h₁
        split at h₁
        · cases h₁
        · obtain rfl := Except.ok.inj h₁
          rfl
      rw [intrLoop_call k h, hround]

theorem fetch_call (h : fetch s = some s') : s'.call = s.call := by
  unfold fetch at h
  split_ifs at h
  obtain rfl := Option.some.inj h
  rfl

theorem complete_call {j : Nat} (h : complete s j = .ok s') : s'.call = s.call := by
  unfold complete at h
  dsimp only at h
  split_ifs at h
  split at h
  · obtain rfl := Except.ok.inj h
    rfl
  · cases h

theorem Inv.rwAlloc_call (hs : Inv s) {p : Fin NPROC} {b : Nat} {w : Bool} (h : rwAlloc s p b w = .ok s') :
    s'.call p ≠ .idle ∧ ∀ q, q ≠ p → s'.call q = s.call q := by
  rcases hs.rwAlloc_cases p b w with h' | ⟨i0, i1, i2, -, -, h'⟩
  · obtain rfl := Except.ok.inj (h'.symm.trans h)
    exact ⟨by simp, fun q hq => Function.update_of_ne hq _ _⟩
  · obtain rfl := Except.ok.inj (h'.symm.trans h)
    exact ⟨by simp [submit], fun q hq => Function.update_of_ne hq _ _⟩

theorem Inv.rw_sleeps (hs : Inv s) {p : Fin NPROC} {b : Nat} {w : Bool}
    (h : step s (.rw p b w) = .ok (some s')) : s'.call p ≠ .idle := by
  simp only [step] at h
  split_ifs at h
  · exact (hs.rwAlloc_call (Exc.map_some_eq_ok h)).1
  · cases h

/-- A call that is in `virtio_disk_rw` becomes idle only at its own `wake`,
once its request has completed. -/
theorem Inv.idle_only_by_wake (hs : Inv s) {e : Event} (h : step s e = .ok (some s')) {p : Fin NPROC}
    (hp : s.call p ≠ .idle) (hidle : s'.call p = .idle) :
    ∃ b w i0 i1 i2 rid, e = .wake p ∧ s.call p = .waitDone b w i0 i1 i2 rid ∧ s.completed rid = true := by
  cases e with
  | rw q b w =>
    simp only [step] at h
    split_ifs at h with hg
    · -- `q` was idle, so it is not `p`
      have hq : p ≠ q := fun hpq => hp (hpq ▸ hg.1)
      exact absurd (((hs.rwAlloc_call (Exc.map_some_eq_ok h)).2 p hq).symm.trans hidle) hp
    · cases h
  | retry q =>
    cases hq : s.call q with
    | waitDesc b w =>
      simp only [step, hq] at h
      have hc := hs.rwAlloc_call (Exc.map_some_eq_ok h)
      by_cases hpq : p = q
      · subst hpq
        exact absurd hidle hc.1
      · exact absurd ((hc.2 p hpq).symm.trans hidle) hp
    | idle => simp [step, hq] at h
    | waitDone => simp [step, hq] at h
  | wake q =>
    cases hq : s.call q with
    | waitDone b w i0 i1 i2 rid =>
      simp only [step, hq] at h
      have h' := Exc.map_some_eq_ok h
      rcases hs.rwDone_cases hq with ⟨-, hr⟩ | ⟨-, hc, -, hr⟩
      · obtain rfl := Except.ok.inj (hr.symm.trans h')
        exact absurd hidle hp
      · obtain rfl := Except.ok.inj (hr.symm.trans h')
        by_cases hpq : p = q
        · subst hpq
          exact ⟨b, w, i0, i1, i2, rid, rfl, hq, hc⟩
        · exact absurd ((Function.update_of_ne hpq _ _).symm.trans hidle) hp
    | idle => simp [step, hq] at h
    | waitDesc => simp [step, hq] at h
  | intr =>
    have hcall := intrLoop_call _ (Exc.map_some_eq_ok h)
    exact absurd (congrFun hcall p ▸ hidle) hp
  | fetch =>
    exact absurd (congrFun (fetch_call (Except.ok.inj h)) p ▸ hidle) hp
  | complete j =>
    simp only [step] at h
    split_ifs at h
    · exact absurd (congrFun (complete_call (Exc.map_some_eq_ok h)) p ▸ hidle) hp
    · cases h

theorem Inv.wake_idle (hs : Inv s) {p : Fin NPROC} {b : Nat} {w : Bool} {i0 i1 i2 rid : Nat}
    (hp : s.call p = .waitDone b w i0 i1 i2 rid) (h : step s (.wake p) = .ok (some s'))
    (hidle : s'.call p = .idle) : s.completed rid = true := by
  simp only [step, hp] at h
  have h' := Exc.map_some_eq_ok h
  rcases hs.rwDone_cases hp with ⟨-, hr⟩ | ⟨-, hc, -, -⟩
  · obtain rfl := Except.ok.inj (hr.symm.trans h')
    rw [hp] at hidle
    cases hidle
  · exact hc

end Runs

/-! ## The descriptor bookkeeping of `virtio_disk.c` -/

/-- What holds of the descriptors, the rings and the calls of
`virtio_disk_rw` in every state a run reaches. -/
structure DiskLaw (s : Sys) : Prop where
  /-- A descriptor is free iff no in-flight chain holds it; no two chains
  share one. -/
  free_iff : ∀ i < NUM, s.disk.free i = true ↔ ∀ p, i ∉ (s.call p).chain
  disjoint : ∀ p q i, i ∈ (s.call p).chain → i ∈ (s.call q).chain → p = q
  /-- Each in-flight chain is three distinct descriptors, header, data and
  status, linked with `VRING_DESC_F_NEXT` on the first two only. -/
  chain : ∀ p b w i0 i1 i2 rid, s.call p = .waitDone b w i0 i1 i2 rid → Chain s.disk b w i0 i1 i2
  /-- `alloc3_desc` takes three free descriptors, or leaves the disk as it
  was. -/
  alloc3 : (∃ i0 i1 i2, [i0, i1, i2].Nodup ∧ (∀ j ∈ [i0, i1, i2], j < NUM ∧ s.disk.free j = true) ∧
      alloc3Desc s.disk = .ok (some [i0, i1, i2], s.disk.take [i0, i1, i2])) ∨
    alloc3Desc s.disk = .ok (none, s.disk)
  /-- `free_chain` of an in-flight chain frees exactly its descriptors. -/
  free_chain : ∀ p b w i0 i1 i2 rid, s.call p = .waitDone b w i0 i1 i2 rid →
    freeChain s.disk i0 = .ok (s.disk.release [i0, i1, i2])
  /-- No step panics. -/
  total : ∀ e, ∃ r, step s e = .ok r
  /-- A round of `virtio_disk_intr` clears `disk` of exactly the buffer
  recorded for the returned chain, whose request has completed. -/
  intr_round : s.nSeen < s.nComp → ∃ p b w i1 i2 rid,
    s.call p = .waitDone b w (s.disk.used.ring (s.disk.usedIdx.toNat % NUM)).toNat i1 i2 rid ∧
    s.completed rid = true ∧
    intrRound s = .ok { s with
      bufDisk := Function.update s.bufDisk b false
      disk := { s.disk with usedIdx := s.disk.usedIdx + 1 }
      nSeen := s.nSeen + 1 }
  /-- A call returns from `virtio_disk_rw` only once its own request has
  completed. -/
  returns : ∀ p b w i0 i1 i2 rid s', s.call p = .waitDone b w i0 i1 i2 rid →
    step s (.wake p) = .ok (some s') → s'.call p = .idle → s.completed rid = true
  /-- `rw` never returns straight away, and a call becomes idle again only at
  the `wake` of its own request, once that has completed. -/
  rw_sleeps : ∀ p b w s', step s (.rw p b w) = .ok (some s') → s'.call p ≠ .idle
  idle_only_by_wake : ∀ e p s', step s e = .ok (some s') → s.call p ≠ .idle → s'.call p = .idle →
    ∃ b w i0 i1 i2 rid, e = .wake p ∧ s.call p = .waitDone b w i0 i1 i2 rid ∧ s.completed rid = true
  /-- The heads between the rings' indices are heads of in-flight chains,
  each once. -/
  on_device : (onDevice s).Nodup ∧ ∀ h ∈ onDevice s, ∃ p b w i1 i2 rid, s.call p = .waitDone b w h i1 i2 rid
  /-- The `uint16` indices name the ring slot of the count of entries they
  stand for, and at most `NUM` entries wait in either ring, so no slot is
  written before it is read and `virtio_disk_intr` loops once per entry. -/
  avail_slot : s.disk.avail.idx.toNat % NUM = s.nPub % NUM
  last_avail_slot : s.dev.lastAvail.toNat % NUM = s.nFetch % NUM
  used_slot : s.disk.used.idx.toNat % NUM = s.nComp % NUM
  usedIdx_slot : s.disk.usedIdx.toNat % NUM = s.nSeen % NUM
  pending : s.nPub - s.nFetch ≤ NUM ∧ s.nComp - s.nSeen ≤ NUM
  intr_count : (s.disk.used.idx - s.disk.usedIdx).toNat = s.nComp - s.nSeen

theorem virtio_disk_law {s : Sys} (h : Reachable s) : DiskLaw s := by
  have hs := h.inv
  refine
    { free_iff := hs.free_iff
      disjoint := hs.disjoint
      chain := fun p b w i0 i1 i2 rid hp => (hs.formatted p b w i0 i1 i2 rid hp).1.toChain
      alloc3 := ?alloc3
      free_chain := fun p b w i0 i1 i2 rid hp =>
        (hs.formatted p b w i0 i1 i2 rid hp).1.toChain.freeChain_ok (hs.chain_busy hp)
      total := hs.step_total
      intr_round := hs.intrRound_cases
      returns := fun _ _ _ _ _ _ _ _ hp hw hidle => hs.wake_idle hp hw hidle
      rw_sleeps := fun _ _ _ _ h => hs.rw_sleeps h
      idle_only_by_wake := fun _ _ _ h hp hidle => hs.idle_only_by_wake h hp hidle
      on_device := ⟨hs.nodup, hs.heads⟩
      avail_slot := slot_of_count hs.avail_idx
      last_avail_slot := slot_of_count hs.last_avail
      used_slot := slot_of_count hs.used_idx
      usedIdx_slot := slot_of_count hs.usedIdx
      pending := ⟨hs.avail_length, hs.used_length⟩
      intr_count := hs.intr_count }
  rcases alloc3Desc_cases s.disk with hok | ⟨idx, -, hfree, hnone⟩
  · exact .inl hok
  · exact .inr (by rw [hnone, hs.release_eq hfree])

/-- Run the events in order: `none` at the first event that panics or is not
enabled. -/
def runAll (s : Sys) : List Event → Option Sys
  | [] => some s
  | e :: es => (step s e).toOption.join.bind (runAll · es)

theorem step_of_toOption {s s' : Sys} {e : Event} (h : (step s e).toOption.join = some s') :
    step s e = .ok (some s') := by
  cases hs : step s e with
  | error m => simp [hs, Except.toOption] at h
  | ok r =>
    simp only [hs, Except.toOption, Option.join_some] at h
    rw [h]

theorem Reachable.runAll {s s' : Sys} (h : Reachable s) {es : List Event}
    (hr : Virtio.runAll s es = some s') : Reachable s' := by
  induction es generalizing s with
  | nil =>
    simp only [Virtio.runAll, Option.some.injEq] at hr
    exact hr ▸ h
  | cons e es ih =>
    simp only [Virtio.runAll, Option.bind_eq_some_iff] at hr
    obtain ⟨s₁, hs₁, hr⟩ := hr
    exact ih (.step e h (step_of_toOption hs₁)) hr

/-- The first process. -/
def proc0 : Fin NPROC := ⟨0, Nat.zero_lt_succ 63⟩

/-- Process `0` reads buffer `3`: its chain `0, 1, 2` is published, taken
and completed by the device, and `virtio_disk_intr` clears `b->disk`. -/
def readOnce : List Event := [.rw proc0 3 false, .fetch, .complete 0, .intr]

/-- After `readOnce`, process `0`'s `wake` returns from `virtio_disk_rw`,
and the law says its own request had completed. -/
theorem virtio_disk_law_readOnce :
    ∃ s s', Reachable s ∧ step s (.wake proc0) = .ok (some s') ∧
      s.call proc0 ≠ .idle ∧ s'.call proc0 = .idle ∧
      ∃ b w i0 i1 i2 rid, s.call proc0 = .waitDone b w i0 i1 i2 rid ∧ s.completed rid = true := by
  obtain ⟨s, hs⟩ := Option.isSome_iff_exists.mp (show (Virtio.runAll init readOnce).isSome by decide)
  have hr : Reachable s := Reachable.init.runAll hs
  -- the `wake`, evaluated from the start of the run
  have hnext : (Virtio.runAll init readOnce).bind (fun s => (step s (.wake proc0)).toOption.join) =
      (step s (.wake proc0)).toOption.join := by rw [hs, Option.bind_some]
  obtain ⟨s', hs'⟩ := Option.isSome_iff_exists.mp
    (show ((step s (.wake proc0)).toOption.join).isSome by rw [← hnext]; decide)
  have hcalls : s.call proc0 ≠ .idle ∧ s'.call proc0 = .idle := by
    have h : ((Virtio.runAll init readOnce).bind fun s => (step s (.wake proc0)).toOption.join.map
        fun s' => decide (s.call proc0 ≠ .idle) && decide (s'.call proc0 = .idle)) = some true := by decide
    simpa [hs, hs'] using h
  have hwake := step_of_toOption hs'
  obtain ⟨b, w, i0, i1, i2, rid, -, hc, hdone⟩ :=
    (virtio_disk_law hr).idle_only_by_wake _ _ _ hwake hcalls.1 hcalls.2
  exact ⟨s, s', hr, hwake, hcalls.1, hcalls.2, b, w, i0, i1, i2, rid, hc, hdone⟩

end Xv6.Virtio
