import Xv6.Vm

/-!
# Loading a program (`exec.c`)

`exec` maps each loadable segment with `uvmalloc(pagetable, sz, vaddr +
memsz, flags2perm(ph.flags))`: the pages get `PTE_R | PTE_U`, plus `PTE_X`
and `PTE_W` as the segment's flags ask. A text segment, readable and
executable, is mapped without `PTE_W`.

`copyout` finds the page with `walkaddr`, which tests `PTE_V` and `PTE_U`
only, so the kernel writes into such a page on the user's behalf although
the user cannot.
-/

namespace Xv6

/-! The flag bits of a program header (`elf.h`). -/

def ELF_PROG_FLAG_EXEC : Nat := 1
def ELF_PROG_FLAG_WRITE : Nat := 2
def ELF_PROG_FLAG_READ : Nat := 4

/-- `flags2perm(flags)`: the PTE bits a segment's flags ask for. -/
def flags2perm (flags : Nat) : UInt64 :=
  let perm : UInt64 := if flags &&& 0x1 ≠ 0 then PTE_X else 0
  if flags &&& 0x2 ≠ 0 then perm ||| PTE_W else perm

/-- RAM with four free pages at the top of physical memory, all zero. -/
def fourPages : Phys := ⟨fun _ => 0, fun _ => 0, [0x87fff000, 0x87ffe000, 0x87ffd000, 0x87ffc000], 0x80040000⟩

/-- The kernel writes into a text page: `exec`'s mapping of a readable,
executable segment at address `0` leaves its PTE without `PTE_W`, and a
`copyout` of one byte to address `0` (as `read(fd, 0, 1)` makes) returns `0`
and stores the byte in the page. -/
theorem copyout_writes_text :
    ∃ pt m₁ m₂ pte m₃,
      uvmcreate fourPages = some (pt, m₁) ∧
      uvmalloc m₁ pt 0 PGSIZE (flags2perm (ELF_PROG_FLAG_EXEC ||| ELF_PROG_FLAG_READ)) = .ok (PGSIZE, m₂) ∧
      walk m₂ pt 0 false = .ok (some pte, m₂) ∧
      m₂.word pte &&& PTE_W = 0 ∧ m₂.word pte &&& PTE_U ≠ 0 ∧
      copyout m₂ pt 0 [0x13] = (0, m₃) ∧ m₃.byte (PTE2PA (m₂.word pte)) = 0x13 :=
  ⟨_, _, _, _, _, rfl, rfl, rfl, by decide, by decide, rfl, by decide⟩

end Xv6
