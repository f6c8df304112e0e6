import Xv6.Lib.Bits

/-!
# Pages, page-table entries and the memory layout

The macros of `riscv.h` and the addresses of `memlayout.h` that the
virtual-memory code uses. Virtual and physical addresses are `Nat`s below
`2 ^ 64`; a page-table entry is the `uint64` of the hardware, built and read
with the same masks and shifts as in C.

The lemmas read a PTE built as `PA2PTE(pa) | flags` back: for a page-aligned
`pa` below `2 ^ 56` and flags below bit 10, `PTE2PA` gives `pa` and every flag
test sees only `flags`.
-/

namespace Xv6

open Bits

/-- `PGSIZE`: bytes per page. -/
def PGSIZE : Nat := 4096

/-- `PGROUNDUP(sz)`: `sz + PGSIZE - 1` as a `uint64` with its low 12 bits
cleared. -/
def PGROUNDUP (sz : Nat) : Nat := (sz + PGSIZE - 1) % 2 ^ 64 / PGSIZE * PGSIZE

/-- `PGROUNDDOWN(a)`: `a` with its low 12 bits cleared. -/
def PGROUNDDOWN (a : Nat) : Nat := a / PGSIZE * PGSIZE

/-! ## Page-table entries

The flag bits: valid, readable, writable, executable, and user-accessible. -/

def PTE_V : UInt64 := (1 : UInt64) <<< 0
def PTE_R : UInt64 := (1 : UInt64) <<< 1
def PTE_W : UInt64 := (1 : UInt64) <<< 2
def PTE_X : UInt64 := (1 : UInt64) <<< 3
def PTE_U : UInt64 := (1 : UInt64) <<< 4

/-- `PA2PTE(pa)`: a physical address shifted to the right place for a PTE. -/
def PA2PTE (pa : Nat) : UInt64 := (pa.toUInt64 >>> 12) <<< 10

/-- `PTE2PA(pte)`. -/
def PTE2PA (pte : UInt64) : Nat := ((pte >>> 10) <<< 12).toNat

/-- `PTE_FLAGS(pte)`. -/
def PTE_FLAGS (pte : UInt64) : UInt64 := pte &&& 0x3FF

def PXMASK : Nat := 0x1FF

def PXSHIFT (level : Nat) : Nat := 12 + 9 * level

/-- `PX(level, va)`: the 9-bit page-table index of `va` at `level`. -/
def PX (level va : Nat) : Nat := (va >>> PXSHIFT level) &&& PXMASK

/-! ## The memory layout -/

/-- `MAXVA`: one beyond the highest virtual address. -/
def MAXVA : Nat := 1 <<< (9 + 9 + 9 + 12 - 1)

def KERNBASE : Nat := 0x80000000

/-- `PHYSTOP`: the end of the RAM the kernel uses. -/
def PHYSTOP : Nat := KERNBASE + 128 * 1024 * 1024

/-- `TRAMPOLINE`: the highest virtual page. -/
def TRAMPOLINE : Nat := MAXVA - PGSIZE

/-- `TRAPFRAME`: the page below the trampoline. -/
def TRAPFRAME : Nat := TRAMPOLINE - PGSIZE

/-! ## Reading the macros as arithmetic -/

theorem PX_eq (level va : Nat) : PX level va = va / 2 ^ (12 + 9 * level) % 512 := by
  rw [PX, PXSHIFT, PXMASK, Nat.shiftRight_eq_div_pow,
    show (0x1FF : Nat) = 2 ^ 9 - 1 from rfl, Nat.and_two_pow_sub_one_eq_mod]

theorem PX_lt (level va : Nat) : PX level va < 512 := by
  rw [PX_eq]; exact Nat.mod_lt _ (by decide)

theorem MAXVA_eq : MAXVA = 2 ^ 38 := by simp [MAXVA, Nat.shiftLeft_eq]

theorem toNat_PTE_FLAGS (x : UInt64) : (PTE_FLAGS x).toNat = x.toNat % 1024 :=
  toNat_and_mask x 10 (by decide)

theorem toNat_PA2PTE {pa : Nat} (h : pa < 2 ^ 64) : (PA2PTE pa).toNat = pa / 4096 * 1024 % 2 ^ 64 := by
  rw [PA2PTE, show (10 : UInt64) = (10 : Nat).toUInt64 from rfl,
    show (12 : UInt64) = (12 : Nat).toUInt64 from rfl, toNat_shiftLeft _ _ (by decide),
    toNat_shiftRight _ _ (by decide), Nat.toUInt64_eq, UInt64.toNat_ofNat', Nat.mod_eq_of_lt h]
  norm_num

theorem PTE2PA_eq (x : UInt64) : PTE2PA x = x.toNat / 1024 * 4096 % 2 ^ 64 := by
  rw [PTE2PA, show (10 : UInt64) = (10 : Nat).toUInt64 from rfl,
    show (12 : UInt64) = (12 : Nat).toUInt64 from rfl, toNat_shiftLeft _ _ (by decide),
    toNat_shiftRight _ _ (by decide)]
  norm_num

theorem toNat_PA2PTE_or {pa : Nat} {f : UInt64} (hpa : pa < 2 ^ 56) (hf : f.toNat < 1024) :
    (PA2PTE pa ||| f).toNat = pa / 4096 * 1024 + f.toNat := by
  have h1 := toNat_PA2PTE (show pa < 2 ^ 64 by omega)
  rw [toNat_or_eq_add (k := 10) (by rw [h1]; omega) hf, h1, Nat.mod_eq_of_lt (by omega)]

@[simp] theorem PTE2PA_PA2PTE_or {pa : Nat} {f : UInt64} (hpa : pa < 2 ^ 56) (hal : pa % PGSIZE = 0)
    (hf : f.toNat < 1024) : PTE2PA (PA2PTE pa ||| f) = pa := by
  rw [PTE2PA_eq, toNat_PA2PTE_or hpa hf]
  simp only [PGSIZE] at hal
  omega

@[simp] theorem PTE_FLAGS_PA2PTE_or {pa : Nat} {f : UInt64} (hpa : pa < 2 ^ 56) (hf : f.toNat < 1024) :
    PTE_FLAGS (PA2PTE pa ||| f) = f := by
  rw [← UInt64.toNat_inj, toNat_PTE_FLAGS, toNat_PA2PTE_or hpa hf]
  omega

theorem and_flag_eq (x f : UInt64) (hf : 0x3FF &&& f = f) : x &&& f = PTE_FLAGS x &&& f := by
  rw [PTE_FLAGS, UInt64.and_assoc, hf]

end Xv6
