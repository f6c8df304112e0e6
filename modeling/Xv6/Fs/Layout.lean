import Xv6.Bio
import Xv6.Lib.LittleEndian

/-!
# The on-disk format (`fs.h`)

The superblock, the inode blocks with their `struct dinode`s and the free
bitmap, and the byte-level access to a block that the file system uses: a
field of a struct laid over the block data is read and written little-endian
at its offset (`Blk.u32`, `Blk.setU32`), and a run of bytes is copied in and
out at an offset (`Blk.writeAt`, `Blk.readAt`).

`struct dinode` is 64 bytes: `short type, major, minor, nlink` at offsets
`0, 2, 4, 6`, `uint size` at `8`, and `uint addrs[NDIRECT+1]` from `12`.
-/

namespace Xv6

open LittleEndian

/-- `struct superblock`. -/
structure Superblock where
  magic : Nat
  size : Nat
  nblocks : Nat
  ninodes : Nat
  nlog : Nat
  logstart : Nat
  inodestart : Nat
  bmapstart : Nat
  deriving DecidableEq, Repr

/-- `ROOTINO`: the root i-number. -/
def ROOTINO : Nat := 1

def FSMAGIC : Nat := 0x10203040

/-- `sizeof(struct dinode)`. -/
def DINODESZ : Nat := 64

/-- `IPB`: inodes per block. -/
def IPB : Nat := BSIZE / DINODESZ

/-- `IBLOCK(i, sb)`: the block holding inode `i`. -/
def IBLOCK (i : Nat) (sb : Superblock) : Nat := i / IPB + sb.inodestart

/-- `BPB`: bitmap bits per block. -/
def BPB : Nat := BSIZE * 8

/-- `BBLOCK(b, sb)`: the bitmap block holding the bit of block `b`. -/
def BBLOCK (b : Nat) (sb : Superblock) : Nat := b / BPB + sb.bmapstart

def DIRSIZ : Nat := 14

/-- A directory entry: `ushort inum` and the `DIRSIZ` bytes of the name,
as `strncpy` fills them. -/
def direntBytes (inum : Nat) (name : List UInt8) : List UInt8 :=
  [UInt8.ofNat inum, UInt8.ofNat (inum / 256)] ++
    (List.range DIRSIZ).map fun i => (name.takeWhile (· ≠ 0)).getD i 0

/-! The inode types of `stat.h`. -/

def T_DIR : Int16 := 1
def T_FILE : Int16 := 2
def T_DEVICE : Int16 := 3

/-! ## The geometry `mkfs` lays out

The boot block, the superblock, `nlog` log blocks, the inode blocks and the
bitmap, then the data blocks. -/

/-- `NINODES` of `mkfs.c`. -/
def NINODES : Nat := 200

/-- `nbitmap`. -/
def nbitmap : Nat := FSSIZE / (BSIZE * 8) + 1

/-- `ninodeblocks`. -/
def ninodeblocks : Nat := NINODES / IPB + 1

/-- `nmeta`: boot, superblock, log, inode and bitmap blocks. -/
def nmeta : Nat := 2 + nlog + ninodeblocks + nbitmap

/-- `nblocks`: the data blocks. -/
def nblocks : Nat := FSSIZE - nmeta

/-- The superblock `mkfs` writes. -/
def mkfsSb : Superblock where
  magic := FSMAGIC
  size := FSSIZE
  nblocks := nblocks
  ninodes := NINODES
  nlog := nlog
  logstart := 2
  inodestart := 2 + nlog
  bmapstart := 2 + nlog + ninodeblocks

namespace Blk

/-- `x[i] = v`. -/
def set (x : Blk) (i : Nat) (v : UInt8) : Blk := fun j => if j.val = i then v else x j

/-- `memmove(x + off, bs, len(bs))`. -/
def writeAt (x : Blk) (off : Nat) (bs : List UInt8) : Blk :=
  fun j => if off ≤ j.val ∧ j.val < off + bs.length then bs.getD (j.val - off) 0 else x j

/-- The `n` bytes at `off`. -/
def readAt (x : Blk) (off n : Nat) : List UInt8 := (List.range n).map fun i => x.get (off + i)

/-- The `uint` at byte `off`. -/
def u32 (x : Blk) (off : Nat) : Nat := readLE x.get off 4

/-- Store the `uint` `v` at byte `off`. -/
def setU32 (x : Blk) (off v : Nat) : Blk := Blk.ofFn (writeLE x.get off 4 v)

/-- Store the `short` `v` at byte `off`. -/
def setI16 (x : Blk) (off : Nat) (v : Int16) : Blk := Blk.ofFn (writeLE x.get off 2 v.toUInt16.toNat)

/-- The `short` at byte `off`. -/
def i16 (x : Blk) (off : Nat) : Int16 := (readLE x.get off 2).toUInt16.toInt16

end Blk

/-- `struct dinode`. -/
structure Dinode where
  type : Int16
  major : Int16
  minor : Int16
  nlink : Int16
  size : UInt32
  addrs : Fin (NDIRECT + 1) → Nat

namespace Dinode

/-- The `struct dinode` at byte `off` of a block. -/
def load (x : Blk) (off : Nat) : Dinode where
  type := x.i16 off
  major := x.i16 (off + 2)
  minor := x.i16 (off + 4)
  nlink := x.i16 (off + 6)
  size := (x.u32 (off + 8)).toUInt32
  addrs := fun j => x.u32 (off + 12 + 4 * j.val)

/-- The 4 bytes of a `uint`, least significant first. -/
def le32 (v : Nat) : List UInt8 := (List.range 4).map fun i => UInt8.ofNat (v / 256 ^ i)

/-- Store `d` as the `struct dinode` at byte `off` of a block; the
addresses go in with one `memmove`. -/
def store (d : Dinode) (x : Blk) (off : Nat) : Blk :=
  let x := ((((x.setI16 off d.type).setI16 (off + 2) d.major).setI16 (off + 4) d.minor).setI16
    (off + 6) d.nlink).setU32 (off + 8) d.size.toNat
  x.writeAt (off + 12) ((List.finRange (NDIRECT + 1)).flatMap fun j => le32 (d.addrs j))

end Dinode

end Xv6
