/-!
# Kernel parameters

The constants of `param.h`, `fs.h` and `riscv.h` that the modelled code reads,
and the file-system geometry that `mkfs` writes into the superblock. Each is
a plain definition; proofs unfold the ones they compute with.
-/

namespace Xv6

/-- `MAXOPBLOCKS`: max # of blocks any FS op writes. -/
def MAXOPBLOCKS : Nat := 10

/-- `LOGSIZE`: max data blocks in on-disk log. -/
def LOGSIZE : Nat := MAXOPBLOCKS * 3

/-- `NBUF`: size of disk block cache. -/
def NBUF : Nat := MAXOPBLOCKS * 3

/-- `NPROC`: maximum number of processes. -/
def NPROC : Nat := 64

/-- `NCPU`: maximum number of CPUs. -/
def NCPU : Nat := 8

/-- `MAXARG`: maximum number of `exec` arguments. -/
def MAXARG : Nat := 32

/-- `NOFILE`: open files per process. -/
def NOFILE : Nat := 16

/-- `NFILE`: open files per system. -/
def NFILE : Nat := 100

/-- `NDEV`: maximum major device number. -/
def NDEV : Nat := 10

/-- `FSSIZE`: size of file system in blocks. -/
def FSSIZE : Nat := 2000

/-- `BSIZE`: block size. -/
def BSIZE : Nat := 1024

/-- `NDIRECT`: direct block addresses in an inode. -/
def NDIRECT : Nat := 12

/-- `NINDIRECT`: block addresses in the indirect block (`BSIZE / sizeof(uint)`). -/
def NINDIRECT : Nat := BSIZE / 4

/-- `MAXFILE`: blocks a file can have. -/
def MAXFILE : Nat := NDIRECT + NINDIRECT

/-! ## The geometry `mkfs` writes -/

/-- `mkfs`'s `nlog = LOGSIZE`, stored as `sb.nlog`: the header block and the
data blocks of the on-disk log together. -/
def nlog : Nat := LOGSIZE

/-- `sb.logstart`. -/
def logstart : Nat := 2

end Xv6
