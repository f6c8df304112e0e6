import Xv6.Fs.Dir

/-!
# File-system system calls (`sysfile.c`)

`create` and the calls that change the name space: `mkdir`, `mknod`,
`chdir`, `link` and `unlink`, each bracketed by `begin_op` and `end_op`, as
one process with current directory `cwd` makes them. A call takes its path
already copied in from the user (`argstr`). A call whose `begin_op` has to
wait is `none`; a `panic` is an `Except.error`.
-/

namespace Xv6

namespace Ks

/-- `begin_op()`; `none` while it sleeps. -/
def beginOp (k : Ks) : Option Ks := k.fs.log.beginOp.map fun lg => { k with fs := { k.fs with log := lg } }

/-- `end_op()`: the last call out commits. -/
def endOp (k : Ks) : Except String Ks :=
  k.fs.log.endOp.map fun r =>
    if r.2 then { k with fs := ⟨(r.1.commit k.fs.bc).1.commitDone, (r.1.commit k.fs.bc).2⟩ }
    else { k with fs := { k.fs with log := r.1 } }

end Ks

section

variable (sb : Superblock) (kbuf : Nat)

/-- The bytes of the name ".". -/
def dotName : List UInt8 := [46]

/-- The bytes of the name "..". -/
def dotdotName : List UInt8 := [46, 46]

/-- The failure path of `create`: the new inode loses its link and both
inodes are released. -/
def createFail (k : Ks) (dp ip : Ip) : Except String (Option Ip × Ks) := do
  let k := k.set ip { k.itable ip with nlink := 0 }
  let k ← iupdateE sb k ip
  let k ← iunlockput sb k ip
  let k ← iunlockput sb k dp
  pure (none, k)

/-- `create` once the new inode `ip` is allocated in directory `dp`. -/
def createNew (k : Ks) (dp ip : Ip) (name : List UInt8) (type major minor : Int16) :
    Except String (Option Ip × Ks) := do
  let k ← ilock sb k ip
  let k := k.set ip { k.itable ip with major := major, minor := minor, nlink := 1 }
  let k ← iupdateE sb k ip
  -- a directory gets "." and ".." first; no `nlink++` for "."
  let d ← if type = T_DIR then do
      let l ← dirlink sb kbuf k ip dotName (k.itable ip).inum
      if l.1 < 0 then pure (false, l.2)
      else do
        let l ← dirlink sb kbuf l.2 ip dotdotName (l.2.itable dp).inum
        pure (decide (0 ≤ l.1), l.2)
    else pure (true, k)
  if !d.1 then createFail sb d.2 dp ip
  else do
    let l ← dirlink sb kbuf d.2 dp name (d.2.itable ip).inum
    if l.1 < 0 then createFail sb l.2 dp ip
    else do
      let k ← if type = T_DIR then
          iupdateE sb (l.2.set dp { l.2.itable dp with nlink := (l.2.itable dp).nlink + 1 }) dp
        else pure l.2
      let k ← iunlockput sb k dp
      pure (some ip, k)

/-- `create(path, type, major, minor)`: the new (or, for a file, the
existing) inode, locked; `none` on failure. -/
def create (k : Ks) (cwd : Ip) (path : List UInt8) (type major minor : Int16) :
    Except String (Option Ip × Ks) := do
  let p ← nameiparent sb kbuf k cwd path
  match p.1 with
  | none => pure (none, p.2.2)
  | some dp => do
    let name := p.2.1
    let k ← ilock sb p.2.2 dp
    let l ← dirlookup sb kbuf k dp name
    match l.1 with
    | some (ip, _) => do
      let k ← iunlockput sb l.2 dp
      let k ← ilock sb k ip
      if type = T_FILE ∧ ((k.itable ip).type = T_FILE ∨ (k.itable ip).type = T_DEVICE) then
        pure (some ip, k)
      else do
        let k ← iunlockput sb k ip
        pure (none, k)
    | none => do
      let a ← ialloc sb l.2 (l.2.itable dp).dev type
      match a.1 with
      | none => do
        let k ← iunlockput sb a.2 dp
        pure (none, k)
      | some ip => createNew sb kbuf a.2 dp ip name type major minor

/-- `sys_mkdir(path)`. -/
def sysMkdir (k : Ks) (cwd : Ip) (path : List UInt8) : Option (Except String (Int × Ks)) :=
  k.beginOp.map fun k => do
    let c ← create sb kbuf k cwd path T_DIR 0 0
    match c.1 with
    | none => do
      let k ← c.2.endOp
      pure (-1, k)
    | some ip => do
      let k ← iunlockput sb c.2 ip
      let k ← k.endOp
      pure (0, k)

/-- `sys_mknod(path, major, minor)`. -/
def sysMknod (k : Ks) (cwd : Ip) (path : List UInt8) (major minor : Int16) :
    Option (Except String (Int × Ks)) :=
  k.beginOp.map fun k => do
    let c ← create sb kbuf k cwd path T_DEVICE major minor
    match c.1 with
    | none => do
      let k ← c.2.endOp
      pure (-1, k)
    | some ip => do
      let k ← iunlockput sb c.2 ip
      let k ← k.endOp
      pure (0, k)

/-- `sys_chdir(path)`: the result and the new current directory. -/
def sysChdir (k : Ks) (cwd : Ip) (path : List UInt8) : Option (Except String (Int × Ip × Ks)) :=
  k.beginOp.map fun k => do
    let n ← namei sb kbuf k cwd path
    match n.1 with
    | none => do
      let k ← n.2.endOp
      pure (-1, cwd, k)
    | some ip => do
      let k ← ilock sb n.2 ip
      if (k.itable ip).type ≠ T_DIR then do
        let k ← iunlockput sb k ip
        let k ← k.endOp
        pure (-1, cwd, k)
      else do
        let k ← iunlock k ip
        let k ← iput sb k cwd
        let k ← k.endOp
        pure (0, ip, k)

/-- The loop of `isdirempty` from offset `off`, at most `n` entries to go. -/
def emptyDirLoop (dp : Ip) : Nat → Nat → Ks → Except String (Bool × Ks)
  | 0, _, k => .ok (true, k)
  | n + 1, off, k =>
    if off < (k.itable dp).size.toNat then do
      let r ← readiE sb k dp false 0 kbuf off.toUInt32 DIRENTSZ.toUInt32
      if r.1 ≠ DIRENTSZ then throw "isdirempty: readi"
      if direntInum (r.2.mem.readBytes kbuf DIRENTSZ) ≠ 0 then pure (false, r.2)
      else emptyDirLoop dp n (off + DIRENTSZ) r.2
    else .ok (true, k)

/-- `isdirempty(dp)`: no entry in use past "." and "..". -/
def isdirempty (k : Ks) (dp : Ip) : Except String (Bool × Ks) :=
  emptyDirLoop sb kbuf dp ((k.itable dp).size.toNat / DIRENTSZ + 1) (2 * DIRENTSZ) k

/-- The `bad` exit of `sys_unlink`. -/
def unlinkBad (k : Ks) (dp : Ip) : Except String (Int × Ks) := do
  let k ← iunlockput sb k dp
  let k ← k.endOp
  pure (-1, k)

/-- `sys_unlink(path)` once the entry `ip` at offset `off` of `dp` is
found, with both inodes locked. -/
def unlinkEntry (k : Ks) (dp ip : Ip) (off : Nat) : Except String (Int × Ks) := do
  let w ← writeiE sb { k with mem := k.mem.writeBytes kbuf (List.replicate DIRENTSZ 0) } dp false 0 kbuf
    off.toUInt32 DIRENTSZ.toUInt32
  if w.1 ≠ DIRENTSZ then throw "unlink: writei"
  let k ← if (w.2.itable ip).type = T_DIR then
      iupdateE sb (w.2.set dp { w.2.itable dp with nlink := (w.2.itable dp).nlink - 1 }) dp
    else pure w.2
  let k ← iunlockput sb k dp
  let k := k.set ip { k.itable ip with nlink := (k.itable ip).nlink - 1 }
  let k ← iupdateE sb k ip
  let k ← iunlockput sb k ip
  let k ← k.endOp
  pure (0, k)

/-- `sys_unlink(path)`. -/
def sysUnlink (k : Ks) (cwd : Ip) (path : List UInt8) : Option (Except String (Int × Ks)) :=
  k.beginOp.map fun k => do
    let p ← nameiparent sb kbuf k cwd path
    match p.1 with
    | none => do
      let k ← p.2.2.endOp
      pure (-1, k)
    | some dp => do
      let name := p.2.1
      let k ← ilock sb p.2.2 dp
      -- Cannot unlink "." or "..".
      if namecmp name dotName = 0 ∨ namecmp name dotdotName = 0 then unlinkBad sb k dp
      else do
        let l ← dirlookup sb kbuf k dp name
        match l.1 with
        | none => unlinkBad sb l.2 dp
        | some (ip, off) => do
          let k ← ilock sb l.2 ip
          if (k.itable ip).nlink < 1 then throw "unlink: nlink < 1"
          if (k.itable ip).type = T_DIR then do
            let e ← isdirempty sb kbuf k ip
            if !e.1 then do
              let k ← iunlockput sb e.2 ip
              unlinkBad sb k dp
            else unlinkEntry sb kbuf e.2 dp ip off
          else unlinkEntry sb kbuf k dp ip off

/-- The `bad` exit of `sys_link`: the link count taken back. -/
def linkBad (k : Ks) (ip : Ip) : Except String (Int × Ks) := do
  let k ← ilock sb k ip
  let k := k.set ip { k.itable ip with nlink := (k.itable ip).nlink - 1 }
  let k ← iupdateE sb k ip
  let k ← iunlockput sb k ip
  let k ← k.endOp
  pure (-1, k)

/-- `sys_link(old, new)`. -/
def sysLink (k : Ks) (cwd : Ip) (old new : List UInt8) : Option (Except String (Int × Ks)) :=
  k.beginOp.map fun k => do
    let n ← namei sb kbuf k cwd old
    match n.1 with
    | none => do
      let k ← n.2.endOp
      pure (-1, k)
    | some ip => do
      let k ← ilock sb n.2 ip
      if (k.itable ip).type = T_DIR then do
        let k ← iunlockput sb k ip
        let k ← k.endOp
        pure (-1, k)
      else do
        let k := k.set ip { k.itable ip with nlink := (k.itable ip).nlink + 1 }
        let k ← iupdateE sb k ip
        let k ← iunlock k ip
        let p ← nameiparent sb kbuf k cwd new
        match p.1 with
        | none => linkBad sb p.2.2 ip
        | some dp => do
          let k ← ilock sb p.2.2 dp
          let l ← if (k.itable dp).dev ≠ (k.itable ip).dev then pure (-1, k)
            else dirlink sb kbuf k dp p.2.1 (k.itable ip).inum
          if l.1 < 0 then do
            let k ← iunlockput sb l.2 dp
            linkBad sb k ip
          else do
            let k ← iunlockput sb l.2 dp
            let k ← iput sb k ip
            let k ← k.endOp
            pure (0, k)

end

end Xv6
