import Xv6.Param
import Xv6.Lib.Writes
import Mathlib.Data.Fintype.Pi

/-!
# Blocks and the buffer cache

`Blk` is the `BSIZE` bytes of one block. `Bcache` is the buffer cache of
`bio.c` as the layers above it see it: the disk, the valid buffers by block
number with their data, and the pins `log_write` puts on buffers (`bpin`).
`bread` returns the cached buffer or reads the block in, `bwrite` writes a
buffer through to the disk, and `bset` is a change to a held buffer's data
that no `bwrite` follows.

The cache's list order, its capacity and the sleep-locks are not modelled
here: every caller of `bread` above releases the buffer within the same
atomic step, so `refcnt` counts pins only, and recycling a buffer is the
separate step `evict`, which only an unpinned buffer allows.

`writes` records every `bwrite` in issue order. `virtio_disk_rw` waits for
the device, and each single-block write is atomic, so the disk after the
`k`-th write of a call is its disk before the call with the call's first `k`
writes applied (`Bcache.Extends`).
-/

namespace Xv6

open WriteList

/-- The data of one block (`uchar data[BSIZE]`). -/
abbrev Blk := Fin BSIZE → UInt8

/-- Byte `i` of a block (`0` past its end). -/
def Blk.get (x : Blk) (i : Nat) : UInt8 := if h : i < BSIZE then x ⟨i, h⟩ else 0

/-- The block whose byte `i` is `f i`. -/
def Blk.ofFn (f : Nat → UInt8) : Blk := fun i => f i.val

theorem Blk.get_ofFn (f : Nat → UInt8) {i : Nat} (h : i < BSIZE) : (Blk.ofFn f).get i = f i := by
  simp [Blk.get, Blk.ofFn, h]

theorem Blk.ext {x y : Blk} (h : ∀ i, i < BSIZE → x.get i = y.get i) : x = y := by
  funext ⟨i, hi⟩
  have := h i hi
  simpa [Blk.get, hi] using this

@[simp] theorem Blk.ofFn_get (x : Blk) : Blk.ofFn x.get = x := by
  funext ⟨i, hi⟩; simp [Blk.ofFn, Blk.get, hi]

/-- The buffer cache over one disk. -/
structure Bcache where
  /-- The disk: block number to contents. -/
  disk : Nat → Blk
  /-- The valid buffers (`b->valid`) by block number, with their data. -/
  buf : Nat → Option Blk
  /-- `b->refcnt`: the pins of `bpin` not yet released by `bunpin`. -/
  refcnt : Nat → Nat
  /-- Every `bwrite` so far, oldest first. -/
  writes : List (Nat × Blk)

namespace Bcache

/-- The cache right after boot (or a crash): nothing cached. -/
def boot (d : Nat → Blk) : Bcache := ⟨d, fun _ => none, fun _ => 0, []⟩

/-- What `bread c b` returns: the cached data, else the disk block. -/
def read (c : Bcache) (b : Nat) : Blk := (c.buf b).getD (c.disk b)

/-- `bread`: the cached buffer, or the disk block read into a buffer. -/
def bread (c : Bcache) (b : Nat) : Blk × Bcache :=
  match c.buf b with
  | some x => (x, c)
  | none => (c.disk b, { c with buf := Function.update c.buf b (some (c.disk b)) })

/-- `bwrite` of a held buffer whose data the caller set to `x`. -/
def bwrite (c : Bcache) (b : Nat) (x : Blk) : Bcache :=
  { c with disk := Function.update c.disk b x, buf := Function.update c.buf b (some x),
           writes := c.writes ++ [(b, x)] }

/-- A held buffer's data set to `x` and released without `bwrite`. -/
def bset (c : Bcache) (b : Nat) (x : Blk) : Bcache :=
  { c with buf := Function.update c.buf b (some x) }

/-- `bpin`: one more reference, so the buffer is not recycled. -/
def bpin (c : Bcache) (b : Nat) : Bcache :=
  { c with refcnt := Function.update c.refcnt b (c.refcnt b + 1) }

/-- `bunpin`. -/
def bunpin (c : Bcache) (b : Nat) : Bcache :=
  { c with refcnt := Function.update c.refcnt b (c.refcnt b - 1) }

/-- `bget` recycling the buffer of block `b`: only when no one holds it. -/
def evict (c : Bcache) (b : Nat) : Option Bcache :=
  if c.refcnt b = 0 then some { c with buf := Function.update c.buf b none } else none

/-! ## What each operation does -/

theorem bread_fst (c : Bcache) (b : Nat) : (c.bread b).1 = c.read b := by
  unfold bread read; cases c.buf b <;> rfl

@[simp] theorem bread_disk (c : Bcache) (b : Nat) : (c.bread b).2.disk = c.disk := by
  unfold bread; cases c.buf b <;> rfl

@[simp] theorem bread_writes (c : Bcache) (b : Nat) : (c.bread b).2.writes = c.writes := by
  unfold bread; cases c.buf b <;> rfl

@[simp] theorem bread_refcnt (c : Bcache) (b : Nat) : (c.bread b).2.refcnt = c.refcnt := by
  unfold bread; cases c.buf b <;> rfl

@[simp] theorem bread_read (c : Bcache) (b : Nat) : (c.bread b).2.read = c.read := by
  funext x
  unfold bread read
  cases h : c.buf b with
  | some v => rfl
  | none =>
    by_cases hx : x = b
    · subst hx; simp [h]
    · simp [Function.update_of_ne hx]

theorem bread_buf_ne_none (c : Bcache) (b : Nat) {x : Nat} (h : c.buf x ≠ none) :
    (c.bread b).2.buf x ≠ none := by
  unfold bread
  cases hb : c.buf b with
  | some v => exact h
  | none =>
    by_cases hx : x = b
    · subst hx; simp
    · simpa [Function.update_of_ne hx] using h

@[simp] theorem bwrite_disk (c : Bcache) (b : Nat) (x : Blk) :
    (c.bwrite b x).disk = Function.update c.disk b x := rfl

@[simp] theorem bwrite_writes (c : Bcache) (b : Nat) (x : Blk) :
    (c.bwrite b x).writes = c.writes ++ [(b, x)] := rfl

@[simp] theorem bwrite_refcnt (c : Bcache) (b : Nat) (x : Blk) :
    (c.bwrite b x).refcnt = c.refcnt := rfl

@[simp] theorem bwrite_read (c : Bcache) (b : Nat) (x : Blk) :
    (c.bwrite b x).read = Function.update c.read b x := by
  funext y
  by_cases hy : y = b
  · subst hy; simp [read, bwrite]
  · simp [read, bwrite, Function.update_of_ne hy]

@[simp] theorem bunpin_disk (c : Bcache) (b : Nat) : (c.bunpin b).disk = c.disk := rfl
@[simp] theorem bunpin_buf (c : Bcache) (b : Nat) : (c.bunpin b).buf = c.buf := rfl
@[simp] theorem bunpin_writes (c : Bcache) (b : Nat) : (c.bunpin b).writes = c.writes := rfl
@[simp] theorem bunpin_read (c : Bcache) (b : Nat) : (c.bunpin b).read = c.read := rfl

@[simp] theorem bpin_disk (c : Bcache) (b : Nat) : (c.bpin b).disk = c.disk := rfl
@[simp] theorem bpin_buf (c : Bcache) (b : Nat) : (c.bpin b).buf = c.buf := rfl
@[simp] theorem bpin_writes (c : Bcache) (b : Nat) : (c.bpin b).writes = c.writes := rfl

@[simp] theorem bset_disk (c : Bcache) (b : Nat) (x : Blk) : (c.bset b x).disk = c.disk := rfl
@[simp] theorem bset_refcnt (c : Bcache) (b : Nat) (x : Blk) : (c.bset b x).refcnt = c.refcnt :=
  rfl
@[simp] theorem bset_writes (c : Bcache) (b : Nat) (x : Blk) : (c.bset b x).writes = c.writes :=
  rfl

theorem bset_buf_ne_none (c : Bcache) (b : Nat) (x : Blk) {y : Nat} (h : y = b ∨ c.buf y ≠ none) :
    (c.bset b x).buf y ≠ none := by
  by_cases hy : y = b
  · subst hy; simp [bset]
  · simpa [bset, Function.update_of_ne hy] using h.resolve_left hy

@[simp] theorem bpin_refcnt (c : Bcache) (b : Nat) :
    (c.bpin b).refcnt = Function.update c.refcnt b (c.refcnt b + 1) := rfl

theorem evict_eq_some {c c' : Bcache} {b : Nat} (h : c.evict b = some c') :
    c.refcnt b = 0 ∧ c' = { c with buf := Function.update c.buf b none } := by
  unfold evict at h
  split at h
  · exact ⟨‹_›, (Option.some.inj h).symm⟩
  · cases h

@[simp] theorem boot_read (d : Nat → Blk) : (boot d).read = d := rfl
@[simp] theorem boot_disk (d : Nat → Blk) : (boot d).disk = d := rfl
@[simp] theorem boot_writes (d : Nat → Blk) : (boot d).writes = [] := rfl

/-! ## The disk as the issued writes -/

/-- `c'` comes from `c` by issuing the writes `ws`: the disk has them
applied, and so has what `bread` returns. -/
def Extends (c c' : Bcache) (ws : List (Nat × Blk)) : Prop :=
  c'.writes = c.writes ++ ws ∧ c'.disk = applyWrites ws c.disk ∧ c'.read = applyWrites ws c.read

theorem Extends.refl (c : Bcache) : Extends c c [] := ⟨by simp, rfl, rfl⟩

theorem Extends.trans {c₁ c₂ c₃ : Bcache} {ws vs : List (Nat × Blk)} (h₁ : Extends c₁ c₂ ws)
    (h₂ : Extends c₂ c₃ vs) : Extends c₁ c₃ (ws ++ vs) :=
  ⟨by rw [h₂.1, h₁.1, List.append_assoc], by rw [h₂.2.1, h₁.2.1, applyWrites_append],
    by rw [h₂.2.2, h₁.2.2, applyWrites_append]⟩

theorem Extends.bread (c : Bcache) (b : Nat) : Extends c (c.bread b).2 [] :=
  ⟨by simp, by simp, by simp⟩

theorem Extends.bwrite (c : Bcache) (b : Nat) (x : Blk) : Extends c (c.bwrite b x) [(b, x)] :=
  ⟨rfl, rfl, by simp⟩

theorem Extends.bunpin (c : Bcache) (b : Nat) : Extends c (c.bunpin b) [] := ⟨by simp, rfl, rfl⟩

theorem Extends.writes_eq {c c' : Bcache} {ws : List (Nat × Blk)} (h : Extends c c' ws) :
    c'.writes.drop c.writes.length = ws := by
  rw [h.1]; simp

end Bcache

end Xv6
