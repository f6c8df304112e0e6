import Xv6.Fs.Inode

/-!
# The file-system image (`mkfs.c`)

`mkfs`'s `main`, which builds the image over the geometry of
`mkfsSb`: the root directory with `.`, `..` and one
entry per input file, each file's contents appended block by block, the root
directory's size rounded up, and the bitmap of the blocks used.

The image is `Image`: the sectors written so far and the counters
`freeinode` and `freeblock`. A failed `assert` stops `mkfs`; it is an
`Except.error`. An input file is its name as given and its contents.
-/

namespace Xv6

/-- The superblock as `memmove(buf, &sb, sizeof(sb))` lays it out. -/
def Superblock.store (sb : Superblock) (x : Blk) : Blk :=
  ((((((((x.setU32 0 sb.magic).setU32 4 sb.size).setU32 8 sb.nblocks).setU32 12 sb.ninodes).setU32 16
    sb.nlog).setU32 20 sb.logstart).setU32 24 sb.inodestart).setU32 28 sb.bmapstart)

/-- The image `mkfs` is writing. -/
structure Image where
  /-- The sectors, by number. -/
  disk : Nat → Blk
  /-- `freeinode`: the next inode `ialloc` hands out. -/
  freeinode : Nat
  /-- `freeblock`: the next block `iappend` hands out. -/
  freeblock : Nat

namespace Image

/-- `wsect(sec, buf)`. -/
def wsect (img : Image) (sec : Nat) (buf : Blk) : Image :=
  { img with disk := Function.update img.disk sec buf }

/-- `rsect(sec, buf)`. -/
def rsect (img : Image) (sec : Nat) : Blk := img.disk sec

/-- `winode(inum, ip)`. -/
def winode (img : Image) (inum : Nat) (d : Dinode) : Image :=
  img.wsect (IBLOCK inum mkfsSb) (d.store (img.rsect (IBLOCK inum mkfsSb)) (inum % IPB * DINODESZ))

/-- `rinode(inum, ip)`. -/
def rinode (img : Image) (inum : Nat) : Dinode :=
  Dinode.load (img.rsect (IBLOCK inum mkfsSb)) (inum % IPB * DINODESZ)

/-- `ialloc(type)`: the next inode, with `nlink` 1 and size 0. -/
def ialloc (img : Image) (type : Int16) : Nat × Image :=
  (img.freeinode, ({ img with freeinode := img.freeinode + 1 } : Image).winode img.freeinode
    ⟨type, 0, 0, 1, 0, fun _ => 0⟩)

/-- The block of file block `fbn` in `iappend`, handed out from
`freeblock` when missing: the block, the inode and the image. -/
def appendBlock (img : Image) (din : Dinode) (fbn : Nat) : Nat × Dinode × Image :=
  if h : fbn < NDIRECT then
    let j : Fin (NDIRECT + 1) := ⟨fbn, Nat.lt_succ_of_lt h⟩
    if din.addrs j = 0 then
      (img.freeblock, { din with addrs := Function.update din.addrs j img.freeblock },
        { img with freeblock := img.freeblock + 1 })
    else (din.addrs j, din, img)
  else
    let r : Dinode × Image := if din.addrs indSlot = 0 then
        ({ din with addrs := Function.update din.addrs indSlot img.freeblock },
          { img with freeblock := img.freeblock + 1 })
      else (din, img)
    let indirect := r.2.rsect (r.1.addrs indSlot)
    if indirect.u32 (4 * (fbn - NDIRECT)) = 0 then
      (r.2.freeblock, r.1,
        ({ r.2 with freeblock := r.2.freeblock + 1 } : Image).wsect (r.1.addrs indSlot)
          (indirect.setU32 (4 * (fbn - NDIRECT)) r.2.freeblock))
    else (indirect.u32 (4 * (fbn - NDIRECT)), r.1, r.2)

/-- The loop of `iappend` with `p` left to append at offset `off`, for at
most `k` passes. -/
def appendLoop : Nat → List UInt8 → Nat → Dinode → Image → Except String (Nat × Dinode × Image)
  | 0, _, off, din, img => .ok (off, din, img)
  | k + 1, p, off, din, img =>
    if p.length > 0 then
      let fbn := off / BSIZE
      if fbn < MAXFILE then
        let r := appendBlock img din fbn
        let n1 := min p.length ((fbn + 1) * BSIZE - off)
        let buf := (r.2.2.rsect r.1).writeAt (off - fbn * BSIZE) (p.take n1)
        appendLoop k (p.drop n1) (off + n1) r.2.1 (r.2.2.wsect r.1 buf)
      else .error "assert"
    else .ok (off, din, img)

/-- `iappend(inum, p, n)`. -/
def iappend (img : Image) (inum : Nat) (p : List UInt8) : Except String Image := do
  let din := img.rinode inum
  let r ← appendLoop p.length p din.size.toNat din img
  pure (r.2.2.winode inum { r.2.1 with size := r.1.toUInt32 })

/-- `balloc(used)` of `mkfs`: the bitmap block with the first `used` bits set. -/
def balloc (img : Image) (used : Nat) : Except String Image :=
  if used < BSIZE * 8 then
    .ok (img.wsect mkfsSb.bmapstart (Blk.ofFn fun i => if i < used / 8 then 0xFF
      else if i = used / 8 then UInt8.ofNat (2 ^ (used % 8) - 1) else 0))
  else .error "assert"

end Image

/-- The bytes of "user/". -/
def userPrefix : List UInt8 := [117, 115, 101, 114, 47]

/-- `argv[i]` with a leading "user/" dropped. -/
def stripUser (path : List UInt8) : List UInt8 :=
  if path.take 5 = userPrefix then path.drop 5 else path

/-- The name a file goes in under: `user/` and a leading `_` dropped. -/
def shortName (path : List UInt8) : List UInt8 :=
  let s := stripUser path
  if s.head? = some 95 then s.drop 1 else s

/-- `mkfs`'s `main` on the input files (their names and contents). -/
def mkfs (files : List (List UInt8 × List UInt8)) : Except String Image := do
  let img : Image := ⟨fun _ => fun _ => 0, 1, nmeta⟩
  let img := img.wsect 1 (mkfsSb.store fun _ => 0)
  let root := img.ialloc T_DIR
  if root.1 ≠ ROOTINO then throw "assert"
  -- the entries "." and ".."
  let img ← root.2.iappend root.1 (direntBytes root.1 [46])
  let img ← img.iappend root.1 (direntBytes root.1 [46, 46])
  let img ← files.foldlM (fun img f => do
    if 47 ∈ stripUser f.1 then throw "assert"
    let file := img.ialloc T_FILE
    let img ← file.2.iappend root.1 (direntBytes file.1 (shortName f.1))
    f.2.toChunks BSIZE |>.foldlM (fun img chunk => img.iappend file.1 chunk) img) img
  -- fix size of root inode dir
  let din := img.rinode root.1
  let off := (din.size.toNat / BSIZE + 1) * BSIZE
  let img := img.winode root.1 { din with size := off.toUInt32 }
  img.balloc img.freeblock

/-- Sixty-two empty input files, named `f00` … `f61`. -/
def files62 : List (List UInt8 × List UInt8) :=
  (List.range 62).map fun i => ([102, UInt8.ofNat (48 + i / 10), UInt8.ofNat (48 + i % 10)], [])

/-- The root inode of an image, as `ilock` loads it. -/
def Image.root (img : Image) : Inode := ⟨img.rinode ROOTINO, ROOTINO⟩

/-- The root directory `mkfs` builds for 62 files has a hole: its 64
entries fill block 0 exactly, the rounding makes the size 2048, and
`addrs[1]` stays 0. A `readi` of the second block inside a transaction then
allocates a block for it, block 47, the first free one. -/
theorem mkfs_root_hole :
    (mkfs files62).map (fun img =>
        ((img.rinode ROOTINO).size, (img.rinode ROOTINO).addrs ⟨1, by decide⟩)) = .ok (2048, 0) ∧
    ((mkfs files62).bind fun img =>
        (readi mkfsSb ⟨⟨logstart, nlog, 1, false, []⟩, Bcache.boot img.disk⟩ img.root fourPages false 0
          0x87000000 1024 16).map fun r => r.2.2.1.addrs ⟨1, by decide⟩) = .ok 47 := by
  decide +kernel

/-- One hundred and twenty-six empty input files, named `f000` … `f125`. -/
def files126 : List (List UInt8 × List UInt8) :=
  (List.range 126).map fun i =>
    ([102, UInt8.ofNat (48 + i / 100), UInt8.ofNat (48 + i / 10 % 10), UInt8.ofNat (48 + i % 10)], [])

/-- With 126 files the root directory's 128 entries fill blocks 0 and 1
exactly, and the rounding makes its size three blocks while `addrs[2]`
stays 0: the image `mkfs` writes has a root block index below
`ceil(size/BSIZE)` that is not allocated. -/
theorem mkfs_root_third_block_missing :
    (mkfs files126).map (fun img =>
        ((img.rinode ROOTINO).size, (img.rinode ROOTINO).addrs ⟨2, by decide⟩)) = .ok (3072, 0) := by
  decide +kernel

end Xv6
