import Mathlib

/-!
# The user allocator (`user/umalloc.c`)

Kernighan and Ritchie's `malloc` and `free` over a circular free list of
`Header`s, ordered by address, and `morecore`, which asks `sbrk` for more.
Memory is read as `Header`s at their addresses; `Header *` arithmetic is in
units of `sizeof(Header)`. `base` is the static `Header` at address `base`.

`sbrk` is `sys_sbrk` with `growproc`: growing succeeds while the size stays
within `top`, and shrinking by more than the size wraps in `uint64` and
leaves the size alone. The loops of `free` and `malloc` run at most `n`
passes; `none` is a loop that needs more.

`morecore(nu)` passes `nu * sizeof(Header)`, an `unsigned long`, to
`sbrk(int)`, which keeps its low 32 bits. For `malloc(0xFFFFFFFF)`,
`nu = 2^28 + 1` and `sbrk` is asked for `16` bytes, while the new block's
header says `2^28 + 1` units (`malloc_unbacked`).
-/

namespace Xv6.Umalloc

/-- `sizeof(Header)`. -/
def HDR : Nat := 16

/-- `union header`: the next free block and the size in units. -/
structure Header where
  ptr : Nat
  size : UInt32

/-- The process's memory as `Header`s, `freep`, and its size. -/
structure Heap where
  mem : Nat → Header
  freep : Nat
  sz : Nat
  /-- The size up to which `uvmalloc` finds memory. -/
  top : Nat

/-- The `Header` at `a` replaced by `x`. -/
def Heap.set (h : Heap) (a : Nat) (x : Header) : Heap := { h with mem := Function.update h.mem a x }

/-- `sbrk(n)`: the old size, `none` for `-1`. -/
def sbrk (h : Heap) (n : Int32) : Option (Nat × Heap) :=
  if 0 < n then
    if h.sz + n.toInt.toNat ≤ h.top then some (h.sz, { h with sz := h.sz + n.toInt.toNat }) else none
  else if n < 0 then
    if n.toInt.natAbs ≤ h.sz then some (h.sz, { h with sz := h.sz - n.toInt.natAbs }) else some (h.sz, h)
  else some (h.sz, h)

/-- The search loop of `free` for the block `bp`, from `p`, at most `n`
passes: the free block after which `bp` goes. -/
def freeFind (h : Heap) (bp : Nat) : Nat → Nat → Option Nat
  | 0, _ => none
  | n + 1, p =>
    if bp > p ∧ bp < (h.mem p).ptr then some p
    else if p ≥ (h.mem p).ptr ∧ (bp > p ∨ bp < (h.mem p).ptr) then some p
    else freeFind h bp n (h.mem p).ptr

/-- `free(ap)`: the block goes into the list, merged with the free blocks
right after and right before it. -/
def free (h : Heap) (ap n : Nat) : Option Heap :=
  let bp := ap - HDR
  (freeFind h bp n h.freep).map fun p =>
    let q := (h.mem p).ptr
    let b := h.mem bp
    let b : Header :=
      if bp + HDR * b.size.toNat = q then ⟨(h.mem q).ptr, b.size + (h.mem q).size⟩ else ⟨q, b.size⟩
    let h := h.set bp b
    let h :=
      if p + HDR * (h.mem p).size.toNat = bp then h.set p ⟨b.ptr, (h.mem p).size + b.size⟩
      else h.set p ⟨bp, (h.mem p).size⟩
    { h with freep := p }

/-- `morecore(nu)`: `freep` once a new block of at least `4096` units is
freed, `0` when `sbrk` fails. -/
def morecore (h : Heap) (nu : UInt32) (n : Nat) : Option (Nat × Heap) :=
  let nu := if nu < 4096 then 4096 else nu
  match sbrk h (Int32.ofNat (nu.toNat * HDR)) with
  | none => some (0, h)
  | some (p, h) =>
    let h := h.set p { h.mem p with size := nu }
    (free h (p + HDR) n).map fun h => (h.freep, h)

/-- The loop of `malloc` for `nunits` units at `p`, after `prevp`, at most
`n` passes: the block handed out, `0` for `NULL`. A block larger than asked
is split, and its tail handed out. -/
def mallocLoop (nunits : UInt32) : Nat → Nat → Nat → Heap → Option (Nat × Heap)
  | 0, _, _, _ => none
  | n + 1, prevp, p, h =>
    if (h.mem p).size ≥ nunits then
      if (h.mem p).size = nunits then
        let h := h.set prevp { h.mem prevp with ptr := (h.mem p).ptr }
        some (p + HDR, { h with freep := prevp })
      else
        let h := h.set p { h.mem p with size := (h.mem p).size - nunits }
        let q := p + HDR * (h.mem p).size.toNat
        let h := h.set q { h.mem q with size := nunits }
        some (q + HDR, { h with freep := prevp })
    else if p = h.freep then
      match morecore h nunits n with
      | none => none
      | some (0, h) => some (0, h)
      | some (p, h) => mallocLoop nunits n p (h.mem p).ptr h
    else mallocLoop nunits n p (h.mem p).ptr h

/-- `malloc(nbytes)`, with `base` at address `base`. `nunits` is computed in
`unsigned long` and stored in a `uint`. -/
def malloc (base : Nat) (h : Heap) (nbytes : UInt32) (n : Nat) : Option (Nat × Heap) :=
  let nunits := UInt32.ofNat ((nbytes.toNat + HDR - 1) / HDR + 1)
  let h := if h.freep = 0 then { h.set base ⟨base, 0⟩ with freep := base } else h
  mallocLoop nunits n h.freep (h.mem h.freep).ptr h

/-- A process of 64 KiB that has not called `malloc` yet, with `base` in its
data at `0x1000`; `growproc` can take it to 128 MiB. -/
def fresh : Heap := ⟨fun _ => ⟨0, 0⟩, 0, 0x10000, 0x8000000⟩

/-- `malloc(0xFFFFFFFF)` returns a block whose header says `2^28 + 1` units,
of which `sbrk` has provided the header only: the block runs past the end of
the process's memory. -/
theorem malloc_unbacked :
    ∃ p h, malloc 0x1000 fresh 0xFFFFFFFF 4 = some (p, h) ∧ p ≠ 0 ∧
      (h.mem (p - HDR)).size = 268435457 ∧ h.sz < p - HDR + HDR * (h.mem (p - HDR)).size.toNat :=
  ⟨_, _, rfl, by decide, by decide, by decide⟩

end Xv6.Umalloc
