import Xv6.Fs.Inode

/-!
# The inode table (`fs.c`)

`itable` holds `NINODE` in-memory inodes; a `struct inode *` is the index of
its entry. `iget` finds or recycles an entry, `ilock` loads the disk inode
into an entry that is not yet valid, and `iput` drops a reference, freeing
the inode on disk when it was the last one and the inode has no links.

`Ks` is the kernel state the file-system calls of one process change: the
log and the cache, the inode table, and RAM (the kernel's own buffers, such
as a `struct dirent` on the stack, are in RAM too: `readi` and `writei`
with a kernel address copy to and from it). The sleep-locks of the entries
are not modelled: the calls run one at a time.
-/

namespace Xv6

/-- `NINODE`: maximum number of active i-nodes. -/
def NINODE : Nat := 50

/-- `ROOTDEV`: the device of the root file system. -/
def ROOTDEV : Nat := 1

/-- An entry of `itable`: `struct inode`. -/
structure IEntry extends Inode where
  dev : Nat
  ref : Int
  /-- The disk inode has been read in. -/
  valid : Bool

/-- A `struct inode *`: an entry of `itable`. -/
abbrev Ip := Fin NINODE

/-- The kernel state of the file-system calls. -/
structure Ks where
  fs : Fs
  itable : Ip → IEntry
  mem : Phys

namespace Ks

/-- The entry `ip` replaced by `e`. -/
def set (k : Ks) (ip : Ip) (e : IEntry) : Ks := { k with itable := Function.update k.itable ip e }

end Ks

section

variable (sb : Superblock)

/-- `iget(dev, inum)`: the entry of the inode, one more reference. -/
def iget (k : Ks) (dev inum : Nat) : Except String (Ip × Ks) :=
  match (List.finRange NINODE).find? fun i =>
      decide (0 < (k.itable i).ref ∧ (k.itable i).dev = dev ∧ (k.itable i).inum = inum) with
  | some i => .ok (i, k.set i { k.itable i with ref := (k.itable i).ref + 1 })
  | none =>
    match (List.finRange NINODE).find? fun i => decide ((k.itable i).ref = 0) with
    | none => .error "iget: no inodes"
    | some e => .ok (e, k.set e { k.itable e with dev := dev, inum := inum, ref := 1, valid := false })

/-- `idup(ip)`. -/
def idup (k : Ks) (ip : Ip) : Ks := k.set ip { k.itable ip with ref := (k.itable ip).ref + 1 }

/-- `ilock(ip)`: reads the disk inode in if the entry is not valid. -/
def ilock (k : Ks) (ip : Ip) : Except String Ks :=
  let e := k.itable ip
  if e.ref < 1 then .error "ilock"
  else if e.valid then .ok k
  else
    let r := k.fs.bread (IBLOCK e.inum sb)
    let d := Dinode.load r.1 (e.inum % IPB * DINODESZ)
    if d.type = 0 then .error "ilock: no type"
    else .ok ({ k with fs := r.2 }.set ip { e with toDinode := d, valid := true })

/-- `iunlock(ip)`. -/
def iunlock (k : Ks) (ip : Ip) : Except String Ks :=
  if (k.itable ip).ref < 1 then .error "iunlock" else .ok k

/-- `iupdate(ip)` of an entry. -/
def iupdateE (k : Ks) (ip : Ip) : Except String Ks :=
  (iupdate sb k.fs (k.itable ip).toInode).map fun fs => { k with fs := fs }

/-- `iput(ip)`: the last reference to an inode with no links frees it. -/
def iput (k : Ks) (ip : Ip) : Except String Ks := do
  let e := k.itable ip
  let k ← if e.ref = 1 ∧ e.valid ∧ e.nlink = 0 then do
      let r ← itrunc sb k.fs e.toInode
      let ino := { r.1 with type := 0 }
      let fs ← iupdate sb r.2 ino
      pure ({ k with fs := fs }.set ip { e with toInode := ino, valid := false })
    else pure k
  pure (k.set ip { k.itable ip with ref := (k.itable ip).ref - 1 })

/-- `iunlockput(ip)`. -/
def iunlockput (k : Ks) (ip : Ip) : Except String Ks := do
  let k ← iunlock k ip
  iput sb k ip

/-- The loop of `ialloc` at inode `inum`, with at most `n` inodes to go. -/
def iallocLoop (dev : Nat) (type : Int16) : Nat → Nat → Ks → Except String (Option Ip × Ks)
  | 0, _, k => .ok (none, k)
  | n + 1, inum, k =>
    if inum < sb.ninodes then
      let r := k.fs.bread (IBLOCK inum sb)
      if (Dinode.load r.1 (inum % IPB * DINODESZ)).type = 0 then do
        let x := (⟨type, 0, 0, 0, 0, fun _ => 0⟩ : Dinode).store r.1 (inum % IPB * DINODESZ)
        let fs ← (r.2.bset (IBLOCK inum sb) x).logWrite (IBLOCK inum sb)
        let g ← iget { k with fs := fs } dev inum
        pure (some g.1, g.2)
      else iallocLoop dev type n (inum + 1) { k with fs := r.2 }
    else .ok (none, k)

/-- `ialloc(dev, type)`: a free disk inode marked with `type`; `none` when
there is none. -/
def ialloc (k : Ks) (dev : Nat) (type : Int16) : Except String (Option Ip × Ks) :=
  iallocLoop sb dev type sb.ninodes 1 k

/-- `readi` of an entry. -/
def readiE (k : Ks) (ip : Ip) (userDst : Bool) (pt dst : Nat) (off n : UInt32) :
    Except String (Int × Ks) :=
  (readi sb k.fs (k.itable ip).toInode k.mem userDst pt dst off n).map fun r =>
    (r.1, { k with fs := r.2.2.2, mem := r.2.1 }.set ip { k.itable ip with toInode := r.2.2.1 })

/-- `writei` of an entry. -/
def writeiE (k : Ks) (ip : Ip) (userSrc : Bool) (pt src : Nat) (off n : UInt32) :
    Except String (Int × Ks) :=
  (writei sb k.fs (k.itable ip).toInode k.mem userSrc pt src off n).map fun r =>
    (r.1, { k with fs := r.2.2 }.set ip { k.itable ip with toInode := r.2.1 })

end

end Xv6
