import Xv6.Fs.Layout
import Xv6.Log.Basic
import Xv6.Exec

/-!
# Blocks and inode contents (`fs.c`)

The block allocator (`bzero`, `balloc`, `bfree`) and the inode content
layer (`iupdate`, `bmap`, `itrunc`, `readi`, `writei`) as they run inside a
transaction. `Fs` is what they change there: the log and the buffer cache.
A change to a buffer's data is `Fs.bset`, made durable only by a later
`log_write` of the block (`Fs.logWrite`) and the commit.

`readi` and `writei` move their bytes with `either_copyout` and
`either_copyin` through the calling process's page table `pt`. Their loops
copy at least one byte a pass, so `n` passes end them.
-/

namespace Xv6

/-- The log and the buffer cache, as a transaction sees them. -/
structure Fs where
  log : Log
  bc : Bcache

namespace Fs

/-- `bread`. -/
def bread (s : Fs) (b : Nat) : Blk × Fs := ((s.bc.bread b).1, { s with bc := (s.bc.bread b).2 })

/-- The data of held buffer `b` set to `x`. -/
def bset (s : Fs) (b : Nat) (x : Blk) : Fs := { s with bc := s.bc.bset b x }

/-- `log_write` of buffer `b`. -/
def logWrite (s : Fs) (b : Nat) : Except String Fs := (s.log.logWrite s.bc b).map fun r => ⟨r.1, r.2⟩

end Fs

/-- `struct inode`: its number and the copy of the disk inode. -/
structure Inode extends Dinode where
  inum : Nat

section

variable (sb : Superblock)

/-! ## Blocks -/

/-- `bzero(dev, bno)`. -/
def bzero (s : Fs) (bno : Nat) : Except String Fs :=
  ((s.bread bno).2.bset bno (Blk.ofFn fun _ => 0)).logWrite bno

/-- `1 << (bi % 8)`: the bit of bitmap index `bi` in its byte. -/
def bitMask (bi : Nat) : UInt8 := (1 : UInt8) <<< (bi % 8).toUInt8

/-- The inner loop of `balloc`: the first clear bit `bi` of bitmap block
`x`, whose bits are the blocks from `b`. -/
def freeBit (x : Blk) (b : Nat) : Option Nat :=
  (List.range (min BPB (sb.size - b))).find? fun bi => x.get (bi / 8) &&& bitMask bi == 0

/-- The outer loop of `balloc` at the bitmap block for block `b`, with at
most `k` bitmap blocks to go. -/
def ballocLoop : Nat → Nat → Fs → Except String (Nat × Fs)
  | 0, _, s => .ok (0, s)
  | k + 1, b, s =>
    if b < sb.size then
      let r := s.bread (BBLOCK b sb)
      match freeBit sb r.1 b with
      | some bi => do
        let x := r.1.set (bi / 8) (r.1.get (bi / 8) ||| bitMask bi)
        let s ← (r.2.bset (BBLOCK b sb) x).logWrite (BBLOCK b sb)
        let s ← bzero s (b + bi)
        pure (b + bi, s)
      | none => ballocLoop k (b + BPB) r.2
    else .ok (0, s)

/-- `balloc(dev)`: a zeroed block, marked in use; `0` when the disk is full. -/
def balloc (s : Fs) : Except String (Nat × Fs) := ballocLoop sb ((sb.size + BPB - 1) / BPB) 0 s

/-- `bfree(dev, b)`. -/
def bfree (s : Fs) (b : Nat) : Except String Fs :=
  let r := s.bread (BBLOCK b sb)
  let bi := b % BPB
  if r.1.get (bi / 8) &&& bitMask bi = 0 then .error "freeing free block"
  else
    let x := r.1.set (bi / 8) (r.1.get (bi / 8) &&& ~~~bitMask bi)
    (r.2.bset (BBLOCK b sb) x).logWrite (BBLOCK b sb)

/-! ## Inodes -/

/-- `iupdate(ip)`: the inode written back to its inode block. -/
def iupdate (s : Fs) (ip : Inode) : Except String Fs :=
  let r := s.bread (IBLOCK ip.inum sb)
  (r.2.bset (IBLOCK ip.inum sb) (ip.toDinode.store r.1 (ip.inum % IPB * DINODESZ))).logWrite
    (IBLOCK ip.inum sb)

/-- The slot of the indirect block in `addrs`. -/
def indSlot : Fin (NDIRECT + 1) := ⟨NDIRECT, Nat.lt_succ_self _⟩

/-- Entry `bn` of the indirect block `addr` of `bmap`, allocated when it
is `0`. -/
def bmapInd (s : Fs) (addr bn : Nat) : Except String (Nat × Fs) :=
  let r := s.bread addr
  if r.1.u32 (4 * bn) = 0 then do
    let q ← balloc sb r.2
    if q.1 ≠ 0 then do
      let s ← (q.2.bset addr (r.1.setU32 (4 * bn) q.1)).logWrite addr
      pure (q.1, s)
    else pure (0, q.2)
  else pure (r.1.u32 (4 * bn), r.2)

/-- `bmap(ip, bn)`: the disk block of block `bn` of the inode, allocated
when missing; `0` when the disk is full. -/
def bmap (s : Fs) (ip : Inode) (bn : Nat) : Except String (Nat × Inode × Fs) :=
  if h : bn < NDIRECT then
    let j : Fin (NDIRECT + 1) := ⟨bn, Nat.lt_succ_of_lt h⟩
    if ip.addrs j = 0 then do
      let q ← balloc sb s
      if q.1 = 0 then pure (0, ip, q.2)
      else pure (q.1, { ip with addrs := Function.update ip.addrs j q.1 }, q.2)
    else pure (ip.addrs j, ip, s)
  else if bn - NDIRECT < NINDIRECT then
    if ip.addrs indSlot = 0 then do
      let q ← balloc sb s
      if q.1 = 0 then pure (0, ip, q.2)
      else do
        let r ← bmapInd sb q.2 q.1 (bn - NDIRECT)
        pure (r.1, { ip with addrs := Function.update ip.addrs indSlot q.1 }, r.2)
    else do
      let r ← bmapInd sb s (ip.addrs indSlot) (bn - NDIRECT)
      pure (r.1, ip, r.2)
  else .error "bmap: out of range"

/-- `itrunc(ip)`: every block of the inode freed, and the size `0`. -/
def itrunc (s : Fs) (ip : Inode) : Except String (Inode × Fs) := do
  let d ← (List.finRange NDIRECT).foldlM (fun r i =>
      let j : Fin (NDIRECT + 1) := i.castSucc
      if r.1.addrs j ≠ 0 then
        (bfree sb r.2 (r.1.addrs j)).map fun s => ({ r.1 with addrs := Function.update r.1.addrs j 0 }, s)
      else pure r) (ip, s)
  let e ← if d.1.addrs indSlot ≠ 0 then do
      let b := d.2.bread (d.1.addrs indSlot)
      let s ← (List.range NINDIRECT).foldlM (fun s j =>
        if b.1.u32 (4 * j) ≠ 0 then bfree sb s (b.1.u32 (4 * j)) else pure s) b.2
      let s ← bfree sb s (d.1.addrs indSlot)
      pure ({ d.1 with addrs := Function.update d.1.addrs indSlot 0 }, s)
    else pure d
  let ip := { e.1 with size := 0 }
  let s ← iupdate sb e.2 ip
  pure (ip, s)

/-! ## The data of an inode

What the inode holds, read through the cache as `readi` reads it: block
`bn` is `addrs[bn]`, or entry `bn - NDIRECT` of the indirect block. -/

/-- The disk block of block `bn` of an inode, `0` where there is none. -/
def blockAddr (c : Bcache) (d : Dinode) (bn : Nat) : Nat :=
  if h : bn < NDIRECT then d.addrs ⟨bn, Nat.lt_succ_of_lt h⟩
  else if bn - NDIRECT < NINDIRECT ∧ d.addrs indSlot ≠ 0 then
    (c.read (d.addrs indSlot)).u32 (4 * (bn - NDIRECT))
  else 0

/-- The `size` bytes of an inode. -/
def content (c : Bcache) (d : Dinode) : List UInt8 :=
  (List.range d.size.toNat).map fun i => (c.read (blockAddr c d (i / BSIZE))).get (i % BSIZE)

/-! ## Reading and writing inode data -/

/-- The loop of `readi` after `tot` bytes, at offset `off` and user or
kernel address `dst`, for at most `k` passes. -/
def readiLoop (m : Phys) (userDst : Bool) (pt : Nat) (n : UInt32) :
    Nat → UInt32 → UInt32 → Nat → Inode → Fs → Except String (Int × Phys × Inode × Fs)
  | 0, tot, _, _, ip, s => .ok (tot.toNat, m, ip, s)
  | k + 1, tot, off, dst, ip, s =>
    if tot < n then do
      let r ← bmap sb s ip (off / BSIZE.toUInt32).toNat
      if r.1 = 0 then pure (tot.toNat, m, r.2.1, r.2.2)
      else
        let b := r.2.2.bread r.1
        let mm := min (n - tot) (BSIZE.toUInt32 - off % BSIZE.toUInt32)
        let c := eitherCopyout m userDst pt dst (b.1.readAt (off % BSIZE.toUInt32).toNat mm.toNat)
        if c.1 = -1 then pure (-1, c.2, r.2.1, b.2)
        else readiLoop c.2 userDst pt n k (tot + mm) (off + mm) (dst + mm.toNat) r.2.1 b.2
    else pure (tot.toNat, m, ip, s)

/-- `readi(ip, user_dst, dst, off, n)`: the count read (`-1` when a
`copyout` fails), and the memory, inode and cache after. -/
def readi (s : Fs) (ip : Inode) (m : Phys) (userDst : Bool) (pt dst : Nat) (off n : UInt32) :
    Except String (Int × Phys × Inode × Fs) :=
  if off > ip.size ∨ off + n < off then .ok (0, m, ip, s)
  else
    let n := if off + n > ip.size then ip.size - off else n
    readiLoop sb m userDst pt n n.toNat 0 off dst ip s

/-- The loop of `writei` after `tot` bytes, at offset `off` and user or
kernel address `src`, for at most `k` passes: the count and offset reached,
and the inode and cache. -/
def writeiLoop (m : Phys) (userSrc : Bool) (pt : Nat) (n : UInt32) :
    Nat → UInt32 → UInt32 → Nat → Inode → Fs → Except String (UInt32 × UInt32 × Inode × Fs)
  | 0, tot, off, _, ip, s => .ok (tot, off, ip, s)
  | k + 1, tot, off, src, ip, s =>
    if tot < n then do
      let r ← bmap sb s ip (off / BSIZE.toUInt32).toNat
      if r.1 = 0 then pure (tot, off, r.2.1, r.2.2)
      else
        let b := r.2.2.bread r.1
        let mm := min (n - tot) (BSIZE.toUInt32 - off % BSIZE.toUInt32)
        let c := eitherCopyin m userSrc pt src mm.toNat
        -- the bytes `copyin` managed to copy are in the buffer, whatever it returns
        let s := b.2.bset r.1 (b.1.writeAt (off % BSIZE.toUInt32).toNat c.2)
        if c.1 = -1 then pure (tot, off, r.2.1, s)
        else do
          let s ← s.logWrite r.1
          writeiLoop m userSrc pt n k (tot + mm) (off + mm) (src + mm.toNat) r.2.1 s
    else pure (tot, off, ip, s)

/-- `writei(ip, user_src, src, off, n)`: the count written (`-1` for a bad
range), and the inode and cache after. -/
def writei (s : Fs) (ip : Inode) (m : Phys) (userSrc : Bool) (pt src : Nat) (off n : UInt32) :
    Except String (Int × Inode × Fs) :=
  if off > ip.size ∨ off + n < off then .ok (-1, ip, s)
  else if (off + n).toNat > MAXFILE * BSIZE then .ok (-1, ip, s)
  else do
    let r ← writeiLoop sb m userSrc pt n n.toNat 0 off src ip s
    let ip := if r.2.1 > r.2.2.1.size then { r.2.2.1 with size := r.2.1 } else r.2.2.1
    let s ← iupdate sb r.2.2.2 ip
    pure (r.1.toNat, ip, s)

end

/-- A disk whose block `100` is all `0xFF`. -/
def ffBlock100 : Nat → Blk := fun b => if b = 100 then fun _ => 0xFF else fun _ => 0

/-- An open transaction over that disk, with nothing cached. -/
def openTx : Fs := ⟨⟨logstart, nlog, 1, false, []⟩, Bcache.boot ffBlock100⟩

/-- Inode `2`, a one-block file whose block is `100`. -/
def oneBlockFile : Inode := ⟨⟨2, 0, 0, 1, 1024, fun j => if j.val = 0 then 100 else 0⟩, 2⟩

/-- A short `writei` leaves an unlogged change in the cache. The user page
`0` is mapped and page `1` is not; a `writei` of 2 bytes from user address
`4095` copies the byte at `4095` into the file's buffer, fails on the second
and returns `0` without logging the block. After the commit the disk still
holds `0xFF` while the cached block, which `readi` returns, holds the new
byte. -/
theorem writei_unlogged_change :
    ∃ pt m₁ m₂ ip s m₃ ip' s',
      uvmcreate fourPages = some (pt, m₁) ∧
      uvmalloc m₁ pt 0 PGSIZE PTE_W = .ok (PGSIZE, m₂) ∧
      writei mkfsSb openTx oneBlockFile m₂ true pt 4095 0 2 = .ok (0, ip, s) ∧
      100 ∉ s.log.lh ∧
      ((s.log.commit s.bc).2.disk 100).get 0 = 0xFF ∧ ((s.log.commit s.bc).2.read 100).get 0 = 0 ∧
      readi mkfsSb s ip m₂ false pt 0x87000000 0 1 = .ok (1, m₃, ip', s') ∧ m₃.byte 0x87000000 = 0 :=
  ⟨_, _, _, _, _, _, _, _, rfl, rfl, rfl, by decide, by decide, by decide, rfl, by decide⟩

end Xv6
