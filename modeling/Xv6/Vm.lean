import Xv6.Riscv

/-!
# Physical memory, page tables and user copies (`kalloc.c`, `vm.c`)

`Phys` is the machine's RAM with the page allocator. Page-table pages are
read and written as 64-bit words and every other page as bytes, so RAM is
kept as a word view and a byte view over the same physical addresses;
`kalloc` hands a page out for one of the two uses, and the junk `kalloc` and
`kfree` write and the zeroing `memset` go to both views. `kmem.freelist` is
the list of free pages, head first (the link pointers inside the free pages
are this list).

The functions of `vm.c` are translated one to one: a page table is the
physical address of its root page, `walk` descends the three Sv39 levels
(allocating missing page-table pages when asked), and a `panic` is an
`Except.error` with the panic's text. `walkaddr`, `copyout` and `copyin` do
not allocate and cannot panic.

`copyout` copies a kernel byte list to user memory one page at a time and
may fail after some pages are written; `copyin` returns the bytes it has
copied to its kernel destination, all of them when it returns `0`, and the
prefix written before a failing page when it returns `-1`; `copyinstr`
likewise returns the bytes it has written, up to and with the `NUL`.
-/

namespace Xv6

/-- RAM and the page allocator. -/
structure Phys where
  /-- The 64-bit words at physical addresses (page-table pages). -/
  word : Nat → UInt64
  /-- The bytes at physical addresses (all other pages). -/
  byte : Nat → UInt8
  /-- `kmem.freelist`: the free pages, head first. -/
  free : List Nat
  /-- `end`: the first address after the kernel image. -/
  kend : Nat

namespace Phys

/-- The word whose 8 bytes are all `c`. -/
def fill8 (c : UInt8) : UInt64 := c.toUInt64 * 0x0101010101010101

/-- `memset(pa, c, n)`. -/
def memset (m : Phys) (pa : Nat) (c : UInt8) (n : Nat) : Phys :=
  { m with
    word := fun a => if pa ≤ a ∧ a < pa + n then fill8 c else m.word a
    byte := fun a => if pa ≤ a ∧ a < pa + n then c else m.byte a }

/-- `*pte = v` for the PTE at physical address `a`. -/
def setWord (m : Phys) (a : Nat) (v : UInt64) : Phys := { m with word := Function.update m.word a v }

/-- `memmove(pa, src, len(src))` from a kernel buffer. -/
def writeBytes (m : Phys) (pa : Nat) (src : List UInt8) : Phys :=
  { m with byte := fun a => if pa ≤ a ∧ a < pa + src.length then src.getD (a - pa) 0 else m.byte a }

/-- The `n` bytes at `pa`. -/
def readBytes (m : Phys) (pa n : Nat) : List UInt8 := (List.range n).map fun i => m.byte (pa + i)

end Phys

open Phys

/-! ## `kalloc.c` -/

/-- `kalloc`: the head of the free list, filled with junk; `none` for `0`. -/
def kalloc (m : Phys) : Option (Nat × Phys) :=
  match m.free with
  | [] => none
  | r :: rest => some (r, ({ m with free := rest } : Phys).memset r 5 PGSIZE)

/-- `kfree(pa)`. -/
def kfree (m : Phys) (pa : Nat) : Except String Phys :=
  if pa % PGSIZE ≠ 0 ∨ pa < m.kend ∨ PHYSTOP ≤ pa then .error "kfree"
  else .ok { m.memset pa 1 PGSIZE with free := pa :: m.free }

/-! ## `vm.c` -/

/-- The levels of `walk` from `level` down: the address of the level-0 PTE
for `va` under page-table page `pt`, allocating the missing page-table pages
when `alloc` is set; `none` for `0`. -/
def walkFrom (va : Nat) (alloc : Bool) : Nat → Nat → Phys → Option Nat × Phys
  | 0, pt, m => (some (pt + 8 * PX 0 va), m)
  | level + 1, pt, m =>
    let pte := pt + 8 * PX (level + 1) va
    if m.word pte &&& PTE_V ≠ 0 then walkFrom va alloc level (PTE2PA (m.word pte)) m
    else if !alloc then (none, m)
    else
      match kalloc m with
      | none => (none, m)
      | some r => walkFrom va alloc level r.1 ((r.2.memset r.1 0 PGSIZE).setWord pte (PA2PTE r.1 ||| PTE_V))

/-- `walk(pagetable, va, alloc)`. -/
def walk (m : Phys) (pt va : Nat) (alloc : Bool) : Except String (Option Nat × Phys) :=
  if MAXVA ≤ va then .error "walk" else .ok (walkFrom va alloc 2 pt m)

/-- `walkaddr(pagetable, va)`: the physical page of a user page, `0` if not
mapped. -/
def walkaddr (m : Phys) (pt va : Nat) : Nat :=
  if MAXVA ≤ va then 0
  else
    match walk m pt va false with
    | .ok (some pte, _) =>
      if m.word pte &&& PTE_V = 0 then 0
      else if m.word pte &&& PTE_U = 0 then 0
      else PTE2PA (m.word pte)
    | _ => 0

/-- The loop of `mappages` at page `a` (physical page `pa`), with `k` more
pages after it; `false` for `-1`. -/
def mapLoop (pt : Nat) (perm : UInt64) : Nat → Nat → Nat → Phys → Except String (Bool × Phys)
  | a, pa, k, m =>
    match walk m pt a true with
    | .error e => .error e
    | .ok (none, m) => .ok (false, m)
    | .ok (some pte, m) =>
      if m.word pte &&& PTE_V ≠ 0 then .error "mappages: remap"
      else
        let m := m.setWord pte (PA2PTE pa ||| perm ||| PTE_V)
        match k with
        | 0 => .ok (true, m)
        | k + 1 => mapLoop pt perm (a + PGSIZE) (pa + PGSIZE) k m

/-- `mappages(pagetable, va, size, pa, perm)`; `false` for `-1`. -/
def mappages (m : Phys) (pt va size pa : Nat) (perm : UInt64) : Except String (Bool × Phys) :=
  if size = 0 then .error "mappages: size"
  else
    let a := PGROUNDDOWN va
    let last := PGROUNDDOWN (va + size - 1)
    mapLoop pt perm a pa ((last - a) / PGSIZE) m

/-- The loop of `uvmunmap` at page `a` with `k` pages to go. -/
def unmapLoop (pt : Nat) (doFree : Bool) : Nat → Nat → Phys → Except String Phys
  | _, 0, m => .ok m
  | a, k + 1, m =>
    match walk m pt a false with
    | .error e => .error e
    | .ok (none, _) => .error "uvmunmap: walk"
    | .ok (some pte, _) =>
      if m.word pte &&& PTE_V = 0 then .error "uvmunmap: not mapped"
      else if PTE_FLAGS (m.word pte) = PTE_V then .error "uvmunmap: not a leaf"
      else do
        let m ← if doFree then kfree m (PTE2PA (m.word pte)) else pure m
        unmapLoop pt doFree (a + PGSIZE) k (m.setWord pte 0)

/-- `uvmunmap(pagetable, va, npages, do_free)`. -/
def uvmunmap (m : Phys) (pt va npages : Nat) (doFree : Bool) : Except String Phys :=
  if va % PGSIZE ≠ 0 then .error "uvmunmap: not aligned" else unmapLoop pt doFree va npages m

/-- `uvmcreate()`: an empty page table; `none` for `0`. -/
def uvmcreate (m : Phys) : Option (Nat × Phys) :=
  match kalloc m with
  | none => none
  | some r => some (r.1, r.2.memset r.1 0 PGSIZE)

/-- `uvmdealloc(pagetable, oldsz, newsz)`: the new size. -/
def uvmdealloc (m : Phys) (pt oldsz newsz : Nat) : Except String (Nat × Phys) :=
  if oldsz ≤ newsz then .ok (oldsz, m)
  else if PGROUNDUP newsz < PGROUNDUP oldsz then
    let npages := (PGROUNDUP oldsz - PGROUNDUP newsz) / PGSIZE
    (uvmunmap m pt (PGROUNDUP newsz) npages true).map fun m => (newsz, m)
  else .ok (newsz, m)

/-- The loop of `uvmalloc` at page `a`, growing from the rounded `oldsz`
to `newsz`, for at most `k` more pages. -/
def allocLoop (pt oldsz newsz : Nat) (xperm : UInt64) : Nat → Nat → Phys → Except String (Nat × Phys)
  | 0, _, m => .ok (newsz, m)
  | k + 1, a, m =>
    if a < newsz then
      match kalloc m with
      | none => (uvmdealloc m pt a oldsz).map fun r => (0, r.2)
      | some r =>
        let m := r.2.memset r.1 0 PGSIZE
        match mappages m pt a PGSIZE r.1 (PTE_R ||| PTE_U ||| xperm) with
        | .error e => .error e
        | .ok (false, m) => do
          let m ← kfree m r.1
          (uvmdealloc m pt a oldsz).map fun r => (0, r.2)
        | .ok (true, m) => allocLoop pt oldsz newsz xperm k (a + PGSIZE) m
    else .ok (newsz, m)

/-- `uvmalloc(pagetable, oldsz, newsz, xperm)`: the new size, `0` on error.
The loop maps one page a pass, so `⌈(newsz - a) / PGSIZE⌉` passes end it. -/
def uvmalloc (m : Phys) (pt oldsz newsz : Nat) (xperm : UInt64) : Except String (Nat × Phys) :=
  if newsz < oldsz then .ok (oldsz, m)
  else
    let a := PGROUNDUP oldsz
    allocLoop pt a newsz xperm ((newsz - a + PGSIZE - 1) / PGSIZE) a m

/-- `uvmclear(pagetable, va)`: the page loses `PTE_U` (the stack guard). -/
def uvmclear (m : Phys) (pt va : Nat) : Except String Phys :=
  match walk m pt va false with
  | .ok (some pte, _) => .ok (m.setWord pte (m.word pte &&& ~~~PTE_U))
  | .ok (none, _) => .error "uvmclear"
  | .error e => .error e

/-- The loop of `copyout` with `src` left to copy to `dstva`, for at most
`k` more pages. -/
def copyoutLoop (pt : Nat) : Nat → Nat → List UInt8 → Phys → Int × Phys
  | 0, _, _, m => (0, m)
  | k + 1, dstva, src, m =>
    if src = [] then (0, m)
    else
      let va0 := PGROUNDDOWN dstva
      let pa0 := walkaddr m pt va0
      if pa0 = 0 then (-1, m)
      else
        let n := min (PGSIZE - (dstva - va0)) src.length
        copyoutLoop pt k (va0 + PGSIZE) (src.drop n) (m.writeBytes (pa0 + (dstva - va0)) (src.take n))

/-- `copyout(pagetable, dstva, src, len)`: `0` or `-1`, and the memory with
the pages before a failing one written. Each pass copies at least one byte,
so `len` passes end the loop. -/
def copyout (m : Phys) (pt dstva : Nat) (src : List UInt8) : Int × Phys :=
  copyoutLoop pt src.length dstva src m

/-- The loop of `copyin` with `len` bytes left at `srcva`, for at most `k`
more pages: the result and the bytes written to `dst`. -/
def copyinLoop (m : Phys) (pt : Nat) : Nat → Nat → Nat → Int × List UInt8
  | 0, _, _ => (0, [])
  | k + 1, srcva, len =>
    if len = 0 then (0, [])
    else
      let va0 := PGROUNDDOWN srcva
      let pa0 := walkaddr m pt va0
      if pa0 = 0 then (-1, [])
      else
        let n := min (PGSIZE - (srcva - va0)) len
        let r := copyinLoop m pt k (va0 + PGSIZE) (len - n)
        (r.1, m.readBytes (pa0 + (srcva - va0)) n ++ r.2)

/-- `copyin(pagetable, dst, srcva, len)`: `0` or `-1`, and the bytes it
wrote to `dst`, all `len` on success and those before the failing page
otherwise. -/
def copyin (m : Phys) (pt srcva len : Nat) : Int × List UInt8 := copyinLoop m pt len srcva len

/-- The inner loop of `copyinstr` over the `n` bytes at physical address `p`
with `max` left: the bytes written to `dst`, `got_null`, and `max` after. -/
def copyinstrPage (m : Phys) : Nat → Nat → Nat → List UInt8 × Bool × Nat
  | 0, _, max => ([], false, max)
  | n + 1, p, max =>
    if m.byte p = 0 then ([0], true, max)
    else
      let r := copyinstrPage m n (p + 1) (max - 1)
      (m.byte p :: r.1, r.2)

/-- The loop of `copyinstr` at `srcva` with `max` left, for at most `k` more
pages: the result and the bytes written to `dst`. -/
def copyinstrLoop (m : Phys) (pt : Nat) : Nat → Nat → Nat → Int × List UInt8
  | 0, _, _ => (-1, [])
  | k + 1, srcva, max =>
    if max = 0 then (-1, [])
    else
      let va0 := PGROUNDDOWN srcva
      let pa0 := walkaddr m pt va0
      if pa0 = 0 then (-1, [])
      else
        let n := min (PGSIZE - (srcva - va0)) max
        let r := copyinstrPage m n (pa0 + (srcva - va0)) max
        if r.2.1 then (0, r.1)
        else
          let r' := copyinstrLoop m pt k (va0 + PGSIZE) r.2.2
          (r'.1, r.1 ++ r'.2)

/-- `copyinstr(pagetable, dst, srcva, max)`: `0` or `-1`, and the bytes it
wrote to `dst`. A pass that finds no `NUL` takes at least one byte of `max`,
so `max` passes end the loop. -/
def copyinstr (m : Phys) (pt srcva max : Nat) : Int × List UInt8 := copyinstrLoop m pt max srcva max

/-- `either_copyout(user_dst, dst, src, len)` of `proc.c`, for a process
with page table `pt`. -/
def eitherCopyout (m : Phys) (userDst : Bool) (pt dst : Nat) (src : List UInt8) : Int × Phys :=
  if userDst then copyout m pt dst src else (0, m.writeBytes dst src)

/-- `either_copyin(dst, user_src, src, len)` of `proc.c`: the result and
the bytes written to `dst`. -/
def eitherCopyin (m : Phys) (userSrc : Bool) (pt src len : Nat) : Int × List UInt8 :=
  if userSrc then copyin m pt src len else (0, m.readBytes src len)

end Xv6
