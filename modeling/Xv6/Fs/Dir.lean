import Xv6.Fs.Itable

/-!
# Directories and path names (`fs.c`)

A directory is a file of `struct dirent`s: a `ushort inum` (`0` for a free
slot) and `DIRSIZ` bytes of name. Names are compared with
`strncmp(., ., DIRSIZ)`. A C string is a byte list without its `NUL`; reading
past its end reads `NUL`.

`dirlookup` and `dirlink` read and write the entry through a `struct
dirent` on the kernel stack, at physical address `kbuf`. `namex` walks a
path one element at a time from the root or from the caller's `cwd`.
-/

namespace Xv6

/-- `sizeof(struct dirent)`. -/
def DIRENTSZ : Nat := 16

/-- `strncmp(p, q, n)`. -/
def strncmp : List UInt8 → List UInt8 → Nat → Int
  | _, _, 0 => 0
  | p, q, n + 1 =>
    if p.headD 0 ≠ 0 ∧ p.headD 0 = q.headD 0 then strncmp p.tail q.tail n
    else (p.headD 0).toNat - (q.headD 0).toNat

/-- `namecmp(s, t)`. -/
def namecmp (s t : List UInt8) : Int := strncmp s t DIRSIZ

/-- The `inum` of the dirent bytes `de`. -/
def direntInum (de : List UInt8) : Nat := (de.headD 0).toNat + 256 * (de.tail.headD 0).toNat

/-- `skipelem(path, name)`: the path after the next element, and the
element, cut to `DIRSIZ` bytes; `none` when only slashes are left. -/
def skipelem (path : List UInt8) : Option (List UInt8 × List UInt8) :=
  let path := path.dropWhile (· = 47)
  if path = [] then none
  else
    let elem := path.takeWhile (· ≠ 47)
    some ((path.dropWhile (· ≠ 47)).dropWhile (· = 47), elem.take DIRSIZ)

section

variable (sb : Superblock) (kbuf : Nat)

/-- The loop of `dirlookup` at offset `off`, at most `n` entries to go:
the inode of the entry named `name` and its offset. -/
def lookupLoop (dp : Ip) (name : List UInt8) : Nat → Nat → Ks → Except String (Option (Ip × Nat) × Ks)
  | 0, _, k => .ok (none, k)
  | n + 1, off, k =>
    if off < (k.itable dp).size.toNat then do
      let r ← readiE sb k dp false 0 kbuf off.toUInt32 DIRENTSZ.toUInt32
      if r.1 ≠ DIRENTSZ then throw "dirlookup read"
      let de := r.2.mem.readBytes kbuf DIRENTSZ
      if direntInum de = 0 then lookupLoop dp name n (off + DIRENTSZ) r.2
      else if namecmp name (de.drop 2) = 0 then do
        let g ← iget r.2 (r.2.itable dp).dev (direntInum de)
        pure (some (g.1, off), g.2)
      else lookupLoop dp name n (off + DIRENTSZ) r.2
    else .ok (none, k)

/-- `dirlookup(dp, name, &off)`. -/
def dirlookup (k : Ks) (dp : Ip) (name : List UInt8) : Except String (Option (Ip × Nat) × Ks) :=
  if (k.itable dp).type ≠ T_DIR then .error "dirlookup not DIR"
  else lookupLoop sb kbuf dp name ((k.itable dp).size.toNat / DIRENTSZ + 1) 0 k

/-- The loop of `dirlink` looking for a free entry from `off`, at most `n`
entries to go: the offset where it stops. -/
def emptyLoop (dp : Ip) : Nat → Nat → Ks → Except String (Nat × Ks)
  | 0, off, k => .ok (off, k)
  | n + 1, off, k =>
    if off < (k.itable dp).size.toNat then do
      let r ← readiE sb k dp false 0 kbuf off.toUInt32 DIRENTSZ.toUInt32
      if r.1 ≠ DIRENTSZ then throw "dirlink read"
      if direntInum (r.2.mem.readBytes kbuf DIRENTSZ) = 0 then pure (off, r.2)
      else emptyLoop dp n (off + DIRENTSZ) r.2
    else .ok (off, k)

/-- `dirlink(dp, name, inum)`: `0`, or `-1` when the name is present or
the write falls short. -/
def dirlink (k : Ks) (dp : Ip) (name : List UInt8) (inum : Nat) : Except String (Int × Ks) := do
  let l ← dirlookup sb kbuf k dp name
  match l.1 with
  | some (ip, _) => do
    let k ← iput sb l.2 ip
    pure (-1, k)
  | none => do
    let e ← emptyLoop sb kbuf dp ((l.2.itable dp).size.toNat / DIRENTSZ + 1) 0 l.2
    let k := { e.2 with mem := e.2.mem.writeBytes kbuf (direntBytes inum name) }
    let w ← writeiE sb k dp false 0 kbuf e.1.toUInt32 DIRENTSZ.toUInt32
    pure (if w.1 ≠ DIRENTSZ then -1 else 0, w.2)

/-- The loop of `namex` at inode `ip` with `path` left, for at most `n`
more elements: the inode reached (the parent when `parent` is set) and the
last element. -/
def namexLoop (parent : Bool) :
    Nat → List UInt8 → List UInt8 → Ip → Ks → Except String (Option Ip × List UInt8 × Ks)
  | 0, _, name, ip, k => .ok (some ip, name, k)
  | n + 1, path, name, ip, k =>
    match skipelem path with
    | none =>
      if parent then do
        let k ← iput sb k ip
        pure (none, name, k)
      else pure (some ip, name, k)
    | some (rest, name) => do
      let k ← ilock sb k ip
      if (k.itable ip).type ≠ T_DIR then do
        let k ← iunlockput sb k ip
        pure (none, name, k)
      else if parent ∧ rest = [] then do
        let k ← iunlock k ip
        pure (some ip, name, k)
      else do
        let l ← dirlookup sb kbuf k ip name
        match l.1 with
        | none => do
          let k ← iunlockput sb l.2 ip
          pure (none, name, k)
        | some (next, _) => do
          let k ← iunlockput sb l.2 ip
          namexLoop parent n rest name next k

/-- `namex(path, nameiparent, name)` for a process whose current directory
is `cwd`. Each pass takes one element, so `len(path)` passes end it. -/
def namex (k : Ks) (cwd : Ip) (path : List UInt8) (parent : Bool) :
    Except String (Option Ip × List UInt8 × Ks) := do
  let start ← if path.head? = some 47 then iget k ROOTDEV ROOTINO else pure (cwd, idup k cwd)
  namexLoop sb kbuf parent (path.length + 1) path [] start.1 start.2

/-- `namei(path)`. -/
def namei (k : Ks) (cwd : Ip) (path : List UInt8) : Except String (Option Ip × Ks) :=
  (namex sb kbuf k cwd path false).map fun r => (r.1, r.2.2)

/-- `nameiparent(path, name)`: the parent and the last element. -/
def nameiparent (k : Ks) (cwd : Ip) (path : List UInt8) :
    Except String (Option Ip × List UInt8 × Ks) :=
  namex sb kbuf k cwd path true

end

end Xv6
