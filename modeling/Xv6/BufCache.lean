import Xv6.Bio
import Xv6.Lib.Dlist
import Mathlib.Algebra.BigOperators.Group.Finset.Piecewise
import Mathlib.Data.Fintype.Card

/-!
# The buffer cache's list (`bio.c`)

`BufCache` is `bcache` as `bio.c` has it: `NBUF` buffers, each with its
`valid` flag, its block `(dev, blockno)`, its `refcnt` and its data, and the
list through their `prev` and `next` pointers that starts and ends at
`bcache.head`. A node of the list is a buffer or, as `none`, the head.

`bget` looks for the block walking `next` from `head.next`. If it is not
cached, it walks `prev` from `head.prev` for an unused buffer to recycle.
`brelse` moves a buffer whose `refcnt` drops to `0` to the front of the
list. `bpin` and `bunpin` count `log_write`'s pins in `refcnt` and move
nothing.

`Sys` runs the cache for any number of callers. Each caller is a thread
whose every step is one critical section under `bcache.lock` or one
sleep-lock operation. A caller gets a buffer from `bget`, then takes its
sleep-lock; while it holds the buffer it may change its data, write it,
pin or unpin it, and release it. `brelse` is two steps, as in the source:
`releasesleep`, after which another caller may take the sleep-lock while
this one still counts in `refcnt`, and the critical section that drops the
reference. Ghost fields record the list as a list
of buffers (`order`), the pins, and when each buffer was last released
(`rel`, by the clock `clock`). `bcache_invariant` states what holds in
every reachable state and across every step.
-/

namespace Xv6

/-- The fields of `struct buf` that `bio.c` reads and writes. -/
structure Buf where
  /-- Has data been read from disk? -/
  valid : Bool
  dev : Nat
  blockno : Nat
  refcnt : Nat
  data : Blk

/-- A `struct buf` in static storage: all zero. -/
def Buf.zero : Buf := ⟨false, 0, 0, 0, fun _ => 0⟩

/-- A node of the list: a buffer, or `none` for `bcache.head`. -/
abbrev Node := Option (Fin NBUF)

/-- `bcache`: the buffers and the list through `prev` and `next`. -/
structure BufCache where
  buf : Fin NBUF → Buf
  next : Node → Node
  prev : Node → Node

namespace BufCache

/-- Buffer `b` replaced by `x`. -/
def setBuf (c : BufCache) (b : Fin NBUF) (x : Buf) : BufCache :=
  { c with buf := Function.update c.buf b x }

/-- `b->next = head.next; b->prev = &head; head.next->prev = b; head.next = b`. -/
def linkFront (c : BufCache) (b : Fin NBUF) : BufCache :=
  { c with next := (Dlist.linkFront c.next c.prev b).1, prev := (Dlist.linkFront c.next c.prev b).2 }

/-- `b->next->prev = b->prev; b->prev->next = b->next`. -/
def unlink (c : BufCache) (b : Fin NBUF) : BufCache :=
  { c with next := (Dlist.unlink c.next c.prev b).1, prev := (Dlist.unlink c.next c.prev b).2 }

/-- `binit()`: the list starts empty and each buffer in turn is linked in
at its front. The buffers' own pointers start out as the head's, which
the loop overwrites before anything reads them. -/
def binit : BufCache :=
  (List.finRange NBUF).foldl linkFront ⟨fun _ => Buf.zero, fun _ => none, fun _ => none⟩

/-- `b->dev == dev && b->blockno == blockno`. -/
def caches (c : BufCache) (dev blockno : Nat) (b : Fin NBUF) : Bool :=
  decide ((c.buf b).dev = dev ∧ (c.buf b).blockno = blockno)

/-- `b->refcnt == 0`. -/
def unused (c : BufCache) (b : Fin NBUF) : Bool := decide ((c.buf b).refcnt = 0)

/-- `bget(dev, blockno)`: the buffer caching the block with one more
reference, or the least recently used unused buffer retargeted to it. -/
def bget (c : BufCache) (dev blockno : Nat) : Except String (Fin NBUF × BufCache) :=
  match Dlist.walk c.next (c.caches dev blockno) NBUF (c.next none) with
  | some b => .ok (b, c.setBuf b { c.buf b with refcnt := (c.buf b).refcnt + 1 })
  | none =>
    match Dlist.walk c.prev c.unused NBUF (c.prev none) with
    | some b =>
      .ok (b, c.setBuf b { c.buf b with dev := dev, blockno := blockno, valid := false, refcnt := 1 })
    | none => .error "bget: no buffers"

/-- The rest of `bread` once its caller holds `b`: a buffer that is not
valid is read from the disk. -/
def fill (c : BufCache) (disk : Nat × Nat → Blk) (b : Fin NBUF) : BufCache :=
  if (c.buf b).valid then c
  else c.setBuf b { c.buf b with data := disk ((c.buf b).dev, (c.buf b).blockno), valid := true }

/-- `brelse(b)` once the sleep-lock is released: one reference less, and to
the front of the list when no one is left. -/
def brelse (c : BufCache) (b : Fin NBUF) : BufCache :=
  let c' := c.setBuf b { c.buf b with refcnt := (c.buf b).refcnt - 1 }
  if (c'.buf b).refcnt = 0 then (c'.unlink b).linkFront b else c'

/-- `bpin(b)`. -/
def bpin (c : BufCache) (b : Fin NBUF) : BufCache :=
  c.setBuf b { c.buf b with refcnt := (c.buf b).refcnt + 1 }

/-- `bunpin(b)`. -/
def bunpin (c : BufCache) (b : Fin NBUF) : BufCache :=
  c.setBuf b { c.buf b with refcnt := (c.buf b).refcnt - 1 }

/-! ## What each operation changes -/

@[simp] theorem setBuf_next (c : BufCache) (b : Fin NBUF) (x : Buf) : (c.setBuf b x).next = c.next := rfl
@[simp] theorem setBuf_prev (c : BufCache) (b : Fin NBUF) (x : Buf) : (c.setBuf b x).prev = c.prev := rfl
@[simp] theorem setBuf_buf_self (c : BufCache) (b : Fin NBUF) (x : Buf) : (c.setBuf b x).buf b = x := by
  simp [setBuf]
@[simp] theorem setBuf_buf_ne (c : BufCache) {a b : Fin NBUF} (x : Buf) (h : a ≠ b) :
    (c.setBuf b x).buf a = c.buf a := by
  simp [setBuf, h]
@[simp] theorem linkFront_buf (c : BufCache) (b : Fin NBUF) : (c.linkFront b).buf = c.buf := rfl
@[simp] theorem unlink_buf (c : BufCache) (b : Fin NBUF) : (c.unlink b).buf = c.buf := rfl

theorem brelse_of_ne (c : BufCache) {b : Fin NBUF} (h : (c.buf b).refcnt - 1 ≠ 0) :
    c.brelse b = c.bunpin b := by
  simp [brelse, bunpin, h]

theorem brelse_of_eq (c : BufCache) {b : Fin NBUF} (h : (c.buf b).refcnt - 1 = 0) :
    c.brelse b = ((c.bunpin b).unlink b).linkFront b := by
  simp [brelse, bunpin, h]

theorem brelse_buf (c : BufCache) (b : Fin NBUF) : (c.brelse b).buf = (c.bunpin b).buf := by
  by_cases h : (c.buf b).refcnt - 1 = 0
  · rw [brelse_of_eq c h]; rfl
  · rw [brelse_of_ne c h]

theorem fill_next (c : BufCache) (d : Nat × Nat → Blk) (b : Fin NBUF) : (c.fill d b).next = c.next := by
  unfold fill; split <;> rfl
theorem fill_prev (c : BufCache) (d : Nat × Nat → Blk) (b : Fin NBUF) : (c.fill d b).prev = c.prev := by
  unfold fill; split <;> rfl

theorem fill_buf (c : BufCache) (d : Nat × Nat → Blk) (b a : Fin NBUF) :
    ((c.fill d a).buf b).dev = (c.buf b).dev ∧ ((c.fill d a).buf b).blockno = (c.buf b).blockno ∧
      ((c.fill d a).buf b).refcnt = (c.buf b).refcnt ∧
      ((c.fill d a).buf b).valid = ((c.buf b).valid || decide (b = a)) := by
  unfold fill
  split
  · next hv => by_cases hb : b = a <;> simp_all
  · by_cases hb : b = a
    · subst hb; simp
    · simp [hb]

theorem fill_buf_of_valid (c : BufCache) (d : Nat × Nat → Blk) {a b : Fin NBUF}
    (h : (c.buf b).valid = true) : (c.fill d a).buf b = c.buf b := by
  unfold fill
  split
  · rfl
  · next hv =>
    have hab : b ≠ a := by rintro rfl; exact hv h
    simp [hab]

theorem setBuf_refcnt (c : BufCache) (b a : Fin NBUF) (n : Nat) :
    ∃ r, (c.setBuf b { c.buf b with refcnt := n }).buf a = { c.buf a with refcnt := r } := by
  by_cases hab : a = b
  · subst hab; exact ⟨n, by simp⟩
  · exact ⟨(c.buf a).refcnt, by simp [hab]⟩

end BufCache

/-! ## Callers -/

/-- Where a caller of the cache is. -/
inductive Caller
  | idle
  /-- `bget` returned the buffer; its sleep-lock is still to be taken. -/
  | waiting (b : Fin NBUF)
  /-- The caller holds the buffer's sleep-lock. -/
  | holding (b : Fin NBUF)
  /-- In `brelse`, the sleep-lock released and `bcache.lock` not yet taken. -/
  | releasing (b : Fin NBUF)
  deriving DecidableEq

/-- The caller is between its `bget` of `b` and its `brelse`. -/
def Caller.uses (x : Caller) (b : Fin NBUF) : Bool :=
  x = .waiting b || x = .holding b || x = .releasing b

@[simp] theorem Caller.uses_idle (b : Fin NBUF) : Caller.idle.uses b = false := rfl
@[simp] theorem Caller.uses_waiting (a b : Fin NBUF) : (Caller.waiting a).uses b = decide (a = b) := by
  simp [Caller.uses]
@[simp] theorem Caller.uses_holding (a b : Fin NBUF) : (Caller.holding a).uses b = decide (a = b) := by
  simp [Caller.uses]
@[simp] theorem Caller.uses_releasing (a b : Fin NBUF) :
    (Caller.releasing a).uses b = decide (a = b) := by
  simp [Caller.uses]

/-- What a caller does next. -/
inductive Event (τ : Type)
  /-- `bread`'s `bget`. -/
  | bread (t : τ) (dev blockno : Nat)
  /-- `acquiresleep` and the rest of `bread`. -/
  | acquire (t : τ)
  /-- The holder changes the buffer's data. -/
  | write (t : τ) (x : Blk)
  | bwrite (t : τ)
  | bpin (t : τ)
  | bunpin (t : τ)
  /-- `brelse`'s `holdingsleep` check and `releasesleep`. -/
  | releasesleep (t : τ)
  /-- The rest of `brelse`, under `bcache.lock`. -/
  | brelse (t : τ)

/-- The cache, the disk and the callers, with the ghost list order, pins
and release times. -/
structure Sys (τ : Type) where
  cache : BufCache
  /-- The disk blocks by `(dev, blockno)`. -/
  disk : Nat × Nat → Blk
  callers : τ → Caller
  /-- `log_write`'s pins not yet released by `bunpin`. -/
  pins : Fin NBUF → Nat
  /-- The buffers in list order from `head.next`. -/
  order : List (Fin NBUF)
  /-- When each buffer was last released to `refcnt == 0`. -/
  rel : Fin NBUF → Nat
  clock : Nat

section Run

variable {τ : Type} [DecidableEq τ] [Fintype τ]

/-- One step of caller `t`. A caller that would panic (`bget: no buffers`,
or a `brelse` or `bwrite` without the sleep-lock) makes no step; `bunpin`
undoes a pin, as `install_trans` does. -/
def step (s : Sys τ) : Event τ → Option (Sys τ)
  | .bread t dev blockno =>
    if s.callers t = .idle then
      match s.cache.bget dev blockno with
      | .ok (b, c) => some { s with cache := c, callers := Function.update s.callers t (.waiting b) }
      | .error _ => none
    else none
  | .acquire t =>
    match s.callers t with
    | .waiting b =>
      if ∀ u, s.callers u ≠ .holding b then
        some { s with
          cache := s.cache.fill s.disk b, callers := Function.update s.callers t (.holding b) }
      else none
    | _ => none
  | .write t x =>
    match s.callers t with
    | .holding b => some { s with cache := s.cache.setBuf b { s.cache.buf b with data := x } }
    | _ => none
  | .bwrite t =>
    match s.callers t with
    | .holding b =>
      some { s with
        disk := Function.update s.disk ((s.cache.buf b).dev, (s.cache.buf b).blockno)
          (s.cache.buf b).data }
    | _ => none
  | .bpin t =>
    match s.callers t with
    | .holding b =>
      some { s with cache := s.cache.bpin b, pins := Function.update s.pins b (s.pins b + 1) }
    | _ => none
  | .bunpin t =>
    match s.callers t with
    | .holding b =>
      if 0 < s.pins b then
        some { s with cache := s.cache.bunpin b, pins := Function.update s.pins b (s.pins b - 1) }
      else none
    | _ => none
  | .releasesleep t =>
    match s.callers t with
    | .holding b => some { s with callers := Function.update s.callers t (.releasing b) }
    | _ => none
  | .brelse t =>
    match s.callers t with
    | .releasing b =>
      if ((s.cache.brelse b).buf b).refcnt = 0 then
        some { s with
          cache := s.cache.brelse b, callers := Function.update s.callers t .idle,
          order := b :: s.order.erase b, rel := Function.update s.rel b s.clock,
          clock := s.clock + 1 }
      else
        some { s with
          cache := s.cache.brelse b, callers := Function.update s.callers t .idle,
          clock := s.clock + 1 }
    | _ => none

/-- After `binit()`, over disk `d`: no caller, `buf[NBUF-1]` first in the
list, each buffer released at the time of its index. -/
def init (d : Nat × Nat → Blk) : Sys τ :=
  ⟨BufCache.binit, d, fun _ => .idle, fun _ => 0, (List.finRange NBUF).reverse, fun b => b.val, NBUF⟩

/-- The states that some interleaving reaches from `init d`. -/
inductive Reachable (d : Nat × Nat → Blk) : Sys τ → Prop
  | init : Reachable d (init d)
  | step {s s' : Sys τ} (e : Event τ) : Reachable d s → step s e = some s' → Reachable d s'

/-- Run the events in order: `none` at the first one that cannot be taken. -/
def Sys.run (s : Sys τ) : List (Event τ) → Option (Sys τ)
  | [] => some s
  | e :: es => (step s e).bind (·.run es)

theorem Reachable.run {d : Nat × Nat → Blk} {s s' : Sys τ} (h : Reachable d s) {es : List (Event τ)}
    (hr : s.run es = some s') : Reachable d s' := by
  induction es generalizing s with
  | nil =>
    simp only [Sys.run, Option.some.injEq] at hr
    exact hr ▸ h
  | cons e es ih =>
    simp only [Sys.run, Option.bind_eq_some_iff] at hr
    obtain ⟨s₁, hs₁, hr⟩ := hr
    exact ih (.step e h hs₁) hr

/-! ### What one step can do -/

theorem step_bread_eq {s s' : Sys τ} {t : τ} {dev blockno : Nat}
    (hs : step s (.bread t dev blockno) = some s') :
    s.callers t = .idle ∧ ∃ b c, s.cache.bget dev blockno = .ok (b, c) ∧
      s' = { s with cache := c, callers := Function.update s.callers t (.waiting b) } := by
  simp only [step] at hs
  split at hs
  · next ht =>
    split at hs
    · next b c hg =>
      simp only [Option.some.injEq] at hs
      exact ⟨ht, b, c, hg, hs.symm⟩
    · cases hs
  · cases hs

theorem step_acquire_eq {s s' : Sys τ} {t : τ} (hs : step s (.acquire t) = some s') :
    ∃ b, s.callers t = .waiting b ∧ (∀ u, s.callers u ≠ .holding b) ∧
      s' = { s with
        cache := s.cache.fill s.disk b, callers := Function.update s.callers t (.holding b) } := by
  simp only [step] at hs
  split at hs
  · next b ht =>
    split at hs
    · next hfree =>
      simp only [Option.some.injEq] at hs
      exact ⟨b, ht, hfree, hs.symm⟩
    · cases hs
  all_goals cases hs

theorem step_write_eq {s s' : Sys τ} {t : τ} {x : Blk} (hs : step s (.write t x) = some s') :
    ∃ b, s.callers t = .holding b ∧
      s' = { s with cache := s.cache.setBuf b { s.cache.buf b with data := x } } := by
  simp only [step] at hs
  split at hs
  · next b ht =>
    simp only [Option.some.injEq] at hs
    exact ⟨b, ht, hs.symm⟩
  · cases hs

theorem step_bwrite_eq {s s' : Sys τ} {t : τ} (hs : step s (.bwrite t) = some s') :
    ∃ b, s.callers t = .holding b ∧
      s' = { s with
        disk := Function.update s.disk ((s.cache.buf b).dev, (s.cache.buf b).blockno)
          (s.cache.buf b).data } := by
  simp only [step] at hs
  split at hs
  · next b ht =>
    simp only [Option.some.injEq] at hs
    exact ⟨b, ht, hs.symm⟩
  · cases hs

theorem step_bpin_eq {s s' : Sys τ} {t : τ} (hs : step s (.bpin t) = some s') :
    ∃ b, s.callers t = .holding b ∧
      s' = { s with cache := s.cache.bpin b, pins := Function.update s.pins b (s.pins b + 1) } := by
  simp only [step] at hs
  split at hs
  · next b ht =>
    simp only [Option.some.injEq] at hs
    exact ⟨b, ht, hs.symm⟩
  · cases hs

theorem step_bunpin_eq {s s' : Sys τ} {t : τ} (hs : step s (.bunpin t) = some s') :
    ∃ b, s.callers t = .holding b ∧ 0 < s.pins b ∧
      s' = { s with cache := s.cache.bunpin b, pins := Function.update s.pins b (s.pins b - 1) } := by
  simp only [step] at hs
  split at hs
  · next b ht =>
    split at hs
    · next hp =>
      simp only [Option.some.injEq] at hs
      exact ⟨b, ht, hp, hs.symm⟩
    · cases hs
  · cases hs

theorem step_releasesleep_eq {s s' : Sys τ} {t : τ} (hs : step s (.releasesleep t) = some s') :
    ∃ b, s.callers t = .holding b ∧
      s' = { s with callers := Function.update s.callers t (.releasing b) } := by
  simp only [step] at hs
  split at hs
  · next b ht =>
    simp only [Option.some.injEq] at hs
    exact ⟨b, ht, hs.symm⟩
  · cases hs

/-- `brelse` either frees `b`, moving it to the front of the list and
stamping its release time, or only drops a reference. -/
theorem step_brelse_eq {s s' : Sys τ} {t : τ} (hs : step s (.brelse t) = some s') :
    ∃ b, s.callers t = .releasing b ∧
      ((s.cache.buf b).refcnt - 1 = 0 ∧
        s' = { s with
          cache := ((s.cache.bunpin b).unlink b).linkFront b,
          callers := Function.update s.callers t .idle,
          order := b :: s.order.erase b, rel := Function.update s.rel b s.clock,
          clock := s.clock + 1 } ∨
       (s.cache.buf b).refcnt - 1 ≠ 0 ∧
        s' = { s with
          cache := s.cache.bunpin b, callers := Function.update s.callers t .idle,
          clock := s.clock + 1 }) := by
  simp only [step] at hs
  split at hs
  · next b ht =>
    rw [BufCache.brelse_buf] at hs
    split at hs
    · next hr =>
      have hr' : (s.cache.buf b).refcnt - 1 = 0 := by simpa [BufCache.bunpin] using hr
      simp only [Option.some.injEq] at hs
      exact ⟨b, ht, .inl ⟨hr', by rw [← hs, BufCache.brelse_of_eq _ hr']⟩⟩
    · next hr =>
      have hr' : (s.cache.buf b).refcnt - 1 ≠ 0 := by simpa [BufCache.bunpin] using hr
      simp only [Option.some.injEq] at hs
      exact ⟨b, ht, .inr ⟨hr', by rw [← hs, BufCache.brelse_of_ne _ hr']⟩⟩
  · cases hs

end Run

/-! ## The invariant -/

/-- The block a buffer is for. -/
def Buf.blk (x : Buf) : Nat × Nat := (x.dev, x.blockno)

/-- The buffer is valid or in use, so its block must not be cached twice. -/
def Buf.live (x : Buf) : Prop := x.valid = true ∨ 0 < x.refcnt

theorem BufCache.caches_eq (c : BufCache) (dev blockno : Nat) :
    c.caches dev blockno = fun b => decide ((c.buf b).blk = (dev, blockno)) := by
  funext b; simp [BufCache.caches, Buf.blk]

theorem blk_of_find?_caches {o : List (Fin NBUF)} {c : BufCache} {dev blockno : Nat} {b : Fin NBUF}
    (hf : o.find? (c.caches dev blockno) = some b) : (c.buf b).blk = (dev, blockno) := by
  have := List.find?_some hf
  rw [BufCache.caches_eq] at this
  simpa using this

open Finset in
theorem card_filter_update {τ α : Type} [DecidableEq τ] [Fintype τ] (f : τ → α) (t : τ) (v : α)
    (P : α → Bool) :
    (univ.filter fun u => P (Function.update f t v u) = true).card + (if P (f t) then 1 else 0) =
      (univ.filter fun u => P (f u) = true).card + (if P v then 1 else 0) := by
  simp only [card_filter]
  rw [← add_sum_erase _ _ (mem_univ t), ← add_sum_erase _ _ (mem_univ t)]
  have hrest : ∑ u ∈ univ.erase t, (if P (Function.update f t v u) = true then 1 else 0) =
      ∑ u ∈ univ.erase t, (if P (f u) = true then 1 else 0) :=
    sum_congr rfl fun u hu => by rw [Function.update_of_ne (ne_of_mem_erase hu)]
  rw [hrest, Function.update_self]
  omega

section Inv

variable {τ : Type} [Fintype τ]

/-- The callers between their `bget` of `b` and their `brelse`. -/
def Sys.users (s : Sys τ) (b : Fin NBUF) : Nat :=
  (Finset.univ.filter fun t => (s.callers t).uses b = true).card

/-- What holds of every reachable state. -/
structure Inv (s : Sys τ) : Prop where
  /-- The pointers thread the buffers in `order`, from `head.next`. -/
  threaded : Dlist.Threaded s.cache.next s.cache.prev s.order
  nodup : s.order.Nodup
  complete : ∀ b, b ∈ s.order
  /-- `refcnt` counts the callers using the buffer and its pins. -/
  count : ∀ b, (s.cache.buf b).refcnt = s.users b + s.pins b
  held_valid : ∀ t b, s.callers t = .holding b → (s.cache.buf b).valid = true
  pinned_valid : ∀ b, 0 < s.pins b → (s.cache.buf b).valid = true
  /-- A buffer that is valid or in use is the first in the list for its block. -/
  first : ∀ b, (s.cache.buf b).live →
    s.order.find? (fun a => decide ((s.cache.buf a).blk = (s.cache.buf b).blk)) = some b
  /-- The unused buffers run from the most to the least recently released. -/
  lru : (s.order.filter s.cache.unused).Pairwise fun a b => s.rel b < s.rel a
  rel_lt : ∀ b, s.rel b < s.clock

theorem Inv.length {s : Sys τ} (h : Inv s) : s.order.length ≤ NBUF := by
  simpa using h.nodup.length_le_card

theorem Inv.walk_caches {s : Sys τ} (h : Inv s) (dev blockno : Nat) :
    Dlist.walk s.cache.next (s.cache.caches dev blockno) NBUF (s.cache.next none) =
      s.order.find? (s.cache.caches dev blockno) :=
  h.threaded.walk_next _ h.length

theorem Inv.walk_unused {s : Sys τ} (h : Inv s) :
    Dlist.walk s.cache.prev s.cache.unused NBUF (s.cache.prev none) = s.order.reverse.find? s.cache.unused :=
  h.threaded.walk_prev _ h.length

theorem Inv.users_le {s : Sys τ} (h : Inv s) {t : τ} {b : Fin NBUF} (ht : (s.callers t).uses b = true) :
    1 ≤ (s.cache.buf b).refcnt := by
  have : 0 < s.users b := Finset.card_pos.mpr ⟨t, by simpa using ht⟩
  rw [h.count b]; omega

theorem Inv.bget_eq {s : Sys τ} (h : Inv s) {dev blockno : Nat} {b : Fin NBUF} {c : BufCache}
    (hg : s.cache.bget dev blockno = .ok (b, c)) :
    (s.order.find? (s.cache.caches dev blockno) = some b ∧
      c = s.cache.setBuf b { s.cache.buf b with refcnt := (s.cache.buf b).refcnt + 1 }) ∨
    (s.order.find? (s.cache.caches dev blockno) = none ∧
      s.order.reverse.find? s.cache.unused = some b ∧
      c = s.cache.setBuf b
        { s.cache.buf b with dev := dev, blockno := blockno, valid := false, refcnt := 1 }) := by
  unfold BufCache.bget at hg
  rw [h.walk_caches, h.walk_unused] at hg
  split at hg
  · next b' hf => cases hg; exact .inl ⟨hf, rfl⟩
  · next hf =>
    split at hg
    · next b' hr => cases hg; exact .inr ⟨hf, hr, rfl⟩
    · cases hg

theorem Inv.not_cached {s : Sys τ} (h : Inv s) {dev blockno : Nat}
    (hf : s.order.find? (s.cache.caches dev blockno) = none) (a : Fin NBUF) :
    (s.cache.buf a).blk ≠ (dev, blockno) := by
  intro ha
  have := List.find?_eq_none.mp hf a (h.complete a)
  rw [BufCache.caches_eq] at this
  simp [ha] at this

theorem Inv.eq_of_blk {s : Sys τ} (h : Inv s) {a b : Fin NBUF} (ha : (s.cache.buf a).live)
    (hb : (s.cache.buf b).live) (hab : (s.cache.buf a).blk = (s.cache.buf b).blk) : a = b := by
  have h1 := h.first a ha
  have h2 := h.first b hb
  rw [hab] at h1
  exact Option.some.inj (h1.symm.trans h2)

theorem Inv.ring {s : Sys τ} (h : Inv s) :
    s.order.length = NBUF ∧ (∀ i < NBUF, s.cache.next^[i + 1] none = s.order[i]?) ∧
      s.cache.next^[NBUF + 1] none = none ∧
      ∀ x : Node, s.cache.prev (s.cache.next x) = x ∧ s.cache.next (s.cache.prev x) = x := by
  have hlen : s.order.length = NBUF := by
    have huniv : s.order.toFinset = Finset.univ :=
      Finset.eq_univ_iff_forall.mpr fun b => List.mem_toFinset.mpr (h.complete b)
    rw [← List.toFinset_card_of_nodup h.nodup, huniv, Finset.card_univ, Fintype.card_fin]
  have hit := h.threaded.iterate_next
  refine ⟨hlen, fun i hi => ?_, ?_, fun x => h.threaded.inverse fun b _ => h.complete b⟩
  · rw [List.getElem?_eq_getElem (by omega)]
    exact hit.1 i (by omega)
  · have hend := hit.2
    rwa [hlen] at hend

theorem Inv.lru_last {s : Sys τ} (h : Inv s) {b : Fin NBUF}
    (hr : s.order.reverse.find? s.cache.unused = some b) :
    s.cache.unused b = true ∧ ∀ a, s.cache.unused a = true → a ≠ b → s.rel b < s.rel a := by
  obtain ⟨hb, as, bs, hrev, has⟩ := List.find?_eq_some_iff_append.mp hr
  have hord : s.order = bs.reverse ++ b :: as.reverse := by
    rw [← List.reverse_reverse s.order, hrev]; simp
  refine ⟨hb, fun a ha hab => ?_⟩
  -- `a` lies before `b`: behind `b` no buffer is unused
  have hmem : a ∈ bs.reverse := by
    have hin := h.complete a
    rw [hord] at hin
    rcases List.mem_append.mp hin with h1 | h1
    · exact h1
    · rcases List.mem_cons.mp h1 with h2 | h2
      · exact absurd h2 hab
      · simpa [ha] using has a (List.mem_reverse.mp h2)
  have hlru := h.lru
  rw [hord, List.filter_append, List.filter_cons_of_pos hb, List.pairwise_append] at hlru
  exact hlru.2.2 a (List.mem_filter.mpr ⟨hmem, ha⟩) b (by simp)

/-! ## The initial state -/

theorem foldl_linkFront_buf :
    ∀ (l : List (Fin NBUF)) (c : BufCache), (l.foldl BufCache.linkFront c).buf = c.buf
  | [], _ => rfl
  | b :: l, c => by rw [List.foldl_cons, foldl_linkFront_buf l]; rfl

theorem threaded_foldl_linkFront :
    ∀ (l : List (Fin NBUF)) (c : BufCache) (xs : List (Fin NBUF)), Dlist.Threaded c.next c.prev xs →
      (l.reverse ++ xs).Nodup →
      Dlist.Threaded (l.foldl BufCache.linkFront c).next (l.foldl BufCache.linkFront c).prev
        (l.reverse ++ xs)
  | [], _, _, h, _ => by simpa using h
  | b :: l, c, xs, h, hnd => by
    rw [List.reverse_cons, List.append_assoc, List.singleton_append] at hnd ⊢
    have hxs := (List.nodup_append.mp hnd).2.1
    exact threaded_foldl_linkFront l (c.linkFront b) (b :: xs)
      (Dlist.threaded_linkFront h (List.nodup_cons.mp hxs).2 (List.nodup_cons.mp hxs).1) hnd

theorem binit_buf : BufCache.binit.buf = fun _ => Buf.zero :=
  foldl_linkFront_buf _ _

theorem inv_init (d : Nat × Nat → Blk) : Inv (init d : Sys τ) where
  threaded := by
    have := threaded_foldl_linkFront (List.finRange NBUF) ⟨fun _ => Buf.zero, fun _ => none, fun _ => none⟩
      [] (Dlist.threaded_nil rfl rfl) (by simpa using List.nodup_finRange NBUF)
    simpa [init, BufCache.binit] using this
  nodup := by simpa [init] using List.nodup_finRange NBUF
  complete := by simp [init]
  count := by simp [init, Sys.users, Caller.uses, binit_buf, Buf.zero]
  held_valid := by simp [init]
  pinned_valid := by simp [init]
  first := by simp [init, binit_buf, Buf.zero, Buf.live]
  lru := by
    have : ∀ b, (init d : Sys τ).cache.unused b = true := by
      simp [init, BufCache.unused, binit_buf, Buf.zero]
    rw [List.filter_eq_self.mpr fun b _ => this b]
    simpa [init, List.pairwise_reverse] using List.pairwise_lt_finRange NBUF
  rel_lt := fun b => b.isLt

end Inv

/-! ## What one step keeps -/

section Frame

variable {o : List (Fin NBUF)} {c c' : BufCache}

theorem first_of_blk (hblk : ∀ a, (c'.buf a).blk = (c.buf a).blk)
    (hlive : ∀ a, (c'.buf a).live → (c.buf a).live)
    (h : ∀ b, (c.buf b).live → o.find? (fun a => decide ((c.buf a).blk = (c.buf b).blk)) = some b) :
    ∀ b, (c'.buf b).live → o.find? (fun a => decide ((c'.buf a).blk = (c'.buf b).blk)) = some b := by
  intro b hb
  simp only [hblk]
  exact h b (hlive b hb)

theorem lru_of_unused {rel : Fin NBUF → Nat} (hun : ∀ a, c'.unused a = true → c.unused a = true)
    (h : (o.filter c.unused).Pairwise fun a b => rel b < rel a) :
    (o.filter c'.unused).Pairwise fun a b => rel b < rel a :=
  h.sublist (List.monotone_filter_right o hun)

end Frame

section Steps

variable {τ : Type} [DecidableEq τ] [Fintype τ]

theorem Sys.users_update {s : Sys τ} (s' : Sys τ) {t : τ} {v : Caller}
    (hc : s'.callers = Function.update s.callers t v) (a : Fin NBUF) :
    s'.users a + (if (s.callers t).uses a then 1 else 0) = s.users a + (if v.uses a then 1 else 0) := by
  unfold Sys.users; rw [hc]; exact card_filter_update s.callers t v fun x => x.uses a

/-- `bget` finds the block cached in `b`. -/
theorem Inv.hit {s : Sys τ} (h : Inv s) {t : τ} {dev blockno : Nat} {b : Fin NBUF}
    (ht : s.callers t = .idle) (hf : s.order.find? (s.cache.caches dev blockno) = some b) :
    Inv { s with
      cache := s.cache.setBuf b { s.cache.buf b with refcnt := (s.cache.buf b).refcnt + 1 },
      callers := Function.update s.callers t (.waiting b) } := by
  set s' : Sys τ := { s with
      cache := s.cache.setBuf b { s.cache.buf b with refcnt := (s.cache.buf b).refcnt + 1 },
      callers := Function.update s.callers t (.waiting b) } with hs'
  have hbuf : ∀ a, s'.cache.buf a =
      if a = b then { s.cache.buf b with refcnt := (s.cache.buf b).refcnt + 1 } else s.cache.buf a := by
    intro a; by_cases hab : a = b <;> simp [hs', hab]
  have hblk : ∀ a, (s'.cache.buf a).blk = (s.cache.buf a).blk := by
    intro a; rw [hbuf]; split_ifs with hab <;> simp [Buf.blk, hab]
  have hvalid : ∀ a, (s'.cache.buf a).valid = (s.cache.buf a).valid := by
    intro a; rw [hbuf]; split_ifs with hab <;> simp [hab]
  have hb : (s.cache.buf b).blk = (dev, blockno) := blk_of_find?_caches hf
  have husers := Sys.users_update (s := s) s' rfl
  refine ⟨h.threaded, h.nodup, h.complete, fun a => ?_, fun u a hu => ?_, fun a ha => ?_, ?_, ?_,
    h.rel_lt⟩
  · have hu := husers a
    have hc := h.count a
    rw [ht] at hu
    show (s'.cache.buf a).refcnt = s'.users a + s.pins a
    rw [hbuf]
    by_cases hab : a = b
    · subst hab; simp at hu ⊢; omega
    · simp [hab, Ne.symm hab] at hu ⊢; omega
  · have hut : u ≠ t := by rintro rfl; simp [hs'] at hu
    rw [hvalid]
    exact h.held_valid u a (by simpa [hs', hut] using hu)
  · rw [hvalid]; exact h.pinned_valid a ha
  · intro a ha
    simp only [hblk]
    by_cases hab : a = b
    · subst hab
      rw [hb, ← BufCache.caches_eq]; exact hf
    · exact h.first a (by rwa [hbuf, if_neg hab] at ha)
  · refine lru_of_unused (fun a ha => ?_) h.lru
    by_cases hab : a = b
    · subst hab; simp [BufCache.unused, hbuf] at ha
    · simpa [BufCache.unused, hbuf, hab] using ha

/-- `bget` recycles the unused buffer `b` for a block nobody caches. -/
theorem Inv.recycle {s : Sys τ} (h : Inv s) {t : τ} {dev blockno : Nat} {b : Fin NBUF}
    (ht : s.callers t = .idle) (hf : s.order.find? (s.cache.caches dev blockno) = none)
    (hr : s.order.reverse.find? s.cache.unused = some b) :
    Inv { s with
      cache := s.cache.setBuf b
        { s.cache.buf b with dev := dev, blockno := blockno, valid := false, refcnt := 1 },
      callers := Function.update s.callers t (.waiting b) } := by
  set s' : Sys τ := { s with
      cache := s.cache.setBuf b
        { s.cache.buf b with dev := dev, blockno := blockno, valid := false, refcnt := 1 },
      callers := Function.update s.callers t (.waiting b) } with hs'
  have hbuf : ∀ a, a ≠ b → s'.cache.buf a = s.cache.buf a := by intro a hab; simp [hs', hab]
  -- nobody uses `b` and no buffer caches the block
  have hzero : (s.cache.buf b).refcnt = 0 := by
    have := List.find?_some hr; simpa [BufCache.unused] using this
  have hcb := h.count b
  have hnouse : ∀ u, (s.callers u).uses b = false := by
    intro u
    have : s.users b = 0 := by omega
    unfold Sys.users at this
    have hu : u ∉ Finset.univ.filter fun t => (s.callers t).uses b = true := by
      rw [Finset.card_eq_zero.mp this]; exact Finset.notMem_empty u
    simpa using hu
  have hnone := h.not_cached hf
  have hbblk : (s'.cache.buf b).blk = (dev, blockno) := by simp [hs', Buf.blk]
  have husers := Sys.users_update (s := s) s' rfl
  refine ⟨h.threaded, h.nodup, h.complete, fun a => ?_, fun u a hu => ?_, fun a ha => ?_, ?_, ?_,
    h.rel_lt⟩
  · have hu := husers a
    have hc := h.count a
    rw [ht] at hu
    show (s'.cache.buf a).refcnt = s'.users a + s.pins a
    by_cases hab : a = b
    · subst hab; simp [hs'] at hu ⊢; omega
    · rw [hbuf a hab]; simp [Ne.symm hab] at hu ⊢; omega
  · have hut : u ≠ t := by rintro rfl; simp [hs'] at hu
    have hu' : s.callers u = .holding a := by simpa [hs', hut] using hu
    have hab : a ≠ b := by rintro rfl; simpa [hu'] using hnouse u
    rw [hbuf a hab]; exact h.held_valid u a hu'
  · have hab : a ≠ b := by
      rintro rfl
      have : 0 < s.pins a := ha
      omega
    rw [hbuf a hab]; exact h.pinned_valid a ha
  · intro a ha
    by_cases hab : a = b
    · subst hab
      rw [hbblk]
      refine Dlist.find?_eq_some_of_unique (h.complete a) (by simp [hbblk]) fun x _ hx => ?_
      by_contra hxa
      rw [hbuf x hxa] at hx
      exact hnone x (by simpa using hx)
    · rw [hbuf a hab] at ha ⊢
      refine Dlist.find?_of_imp (h.first a ha) (by simp [hbuf a hab]) fun x _ hx => ?_
      by_cases hxb : x = b
      · subst hxb; rw [hbblk] at hx; exact absurd (by simpa using hx) (hnone a ∘ Eq.symm)
      · rwa [hbuf x hxb] at hx
  · refine lru_of_unused (fun a ha => ?_) h.lru
    by_cases hab : a = b
    · subst hab; simp [BufCache.unused, hs'] at ha
    · simpa [BufCache.unused, hbuf a hab] using ha

omit [DecidableEq τ] in
theorem Inv.of_same {s s' : Sys τ} (h : Inv s) (hn : s'.cache.next = s.cache.next)
    (hp : s'.cache.prev = s.cache.prev) (hcall : s'.callers = s.callers) (hpins : s'.pins = s.pins)
    (ho : s'.order = s.order) (hrel : s'.rel = s.rel) (hclock : s'.clock = s.clock)
    (hbuf : ∀ a, (s'.cache.buf a).blk = (s.cache.buf a).blk ∧
      (s'.cache.buf a).valid = (s.cache.buf a).valid ∧ (s'.cache.buf a).refcnt = (s.cache.buf a).refcnt) :
    Inv s' := by
  have hlive : ∀ a, (s'.cache.buf a).live ↔ (s.cache.buf a).live := by
    intro a; simp [Buf.live, (hbuf a).2.1, (hbuf a).2.2]
  have hun : s'.cache.unused = s.cache.unused := by
    funext a; simp [BufCache.unused, (hbuf a).2.2]
  refine ⟨by rw [hn, hp, ho]; exact h.threaded, ho ▸ h.nodup, ho ▸ h.complete, fun a => ?_,
    fun u a hu => ?_, fun a ha => ?_, ?_, ?_, fun a => hrel ▸ hclock ▸ h.rel_lt a⟩
  · rw [(hbuf a).2.2, h.count a, hpins]; simp [Sys.users, hcall]
  · rw [(hbuf a).2.1]; exact h.held_valid u a (hcall ▸ hu)
  · rw [(hbuf a).2.1]; exact h.pinned_valid a (hpins ▸ ha)
  · rw [ho]; exact first_of_blk (fun a => (hbuf a).1) (fun a => (hlive a).mp) h.first
  · rw [ho, hun, hrel]; exact h.lru

/-- `b`'s sleep-lock taken by the caller `t` that waited for it. -/
theorem Inv.take {s : Sys τ} (h : Inv s) {t : τ} {b : Fin NBUF} (ht : s.callers t = .waiting b) :
    Inv { s with
      cache := s.cache.fill s.disk b, callers := Function.update s.callers t (.holding b) } := by
  set s' : Sys τ := { s with
    cache := s.cache.fill s.disk b, callers := Function.update s.callers t (.holding b) } with hs'
  have hf := fun a => s.cache.fill_buf s.disk a b
  have hb := h.users_le (t := t) (b := b) (by simp [ht])
  have husers := Sys.users_update (s := s) s' rfl
  refine ⟨by simpa [hs', BufCache.fill_next, BufCache.fill_prev] using h.threaded, h.nodup, h.complete,
    fun a => ?_, fun u a hu => ?_, fun a ha => ?_, ?_, ?_, h.rel_lt⟩
  · have hu := husers a
    rw [ht] at hu
    simp only [Caller.uses_waiting, Caller.uses_holding] at hu
    show ((s.cache.fill s.disk b).buf a).refcnt = s'.users a + s.pins a
    rw [(hf a).2.2.1, h.count a]
    omega
  · show ((s.cache.fill s.disk b).buf a).valid = true
    rw [(hf a).2.2.2]
    by_cases hut : u = t
    · subst hut; simp [hs'] at hu; subst hu; simp
    · simp [hs', hut] at hu; simp [h.held_valid u a hu]
  · show ((s.cache.fill s.disk b).buf a).valid = true
    rw [(hf a).2.2.2]; simp [h.pinned_valid a ha]
  · refine first_of_blk (fun a => ?_) (fun a ha => ?_) h.first
    · simp [hs', Buf.blk, (hf a).1, (hf a).2.1]
    · by_cases hab : a = b
      · subst hab; exact .inr (by omega)
      · simpa [hs', Buf.live, (hf a).2.2.1, (hf a).2.2.2, hab] using ha
  · have : s'.cache.unused = s.cache.unused := by
      funext a; simp [hs', BufCache.unused, (hf a).2.2.1]
    rw [this]; exact h.lru

theorem first_of_refcnt {o : List (Fin NBUF)} {c : BufCache} {b : Fin NBUF} {r : Nat}
    (hb : (c.buf b).live)
    (h : ∀ a, (c.buf a).live → o.find? (fun x => decide ((c.buf x).blk = (c.buf a).blk)) = some a) :
    ∀ a, ((c.setBuf b { c.buf b with refcnt := r }).buf a).live →
      o.find? (fun x => decide (((c.setBuf b { c.buf b with refcnt := r }).buf x).blk =
        ((c.setBuf b { c.buf b with refcnt := r }).buf a).blk)) = some a := by
  refine first_of_blk (fun a => ?_) (fun a ha => ?_) h
  · by_cases hab : a = b
    · subst hab; simp [Buf.blk]
    · simp [hab]
  · by_cases hab : a = b
    · subst hab; exact hb
    · simpa [hab] using ha

theorem unused_of_refcnt {c : BufCache} {b : Fin NBUF} {r : Nat} (hr : r ≠ 0) (a : Fin NBUF)
    (ha : (c.setBuf b { c.buf b with refcnt := r }).unused a = true) : c.unused a = true := by
  by_cases hab : a = b
  · subst hab; simp [BufCache.unused, hr] at ha
  · simpa [BufCache.unused, hab] using ha

omit [DecidableEq τ] in
theorem Inv.pin {s : Sys τ} (h : Inv s) {t : τ} {b : Fin NBUF} (ht : s.callers t = .holding b) :
    Inv { s with cache := s.cache.bpin b, pins := Function.update s.pins b (s.pins b + 1) } := by
  have hv := h.held_valid t b ht
  refine ⟨h.threaded, h.nodup, h.complete, fun a => ?_, fun u a hu => ?_, fun a ha => ?_,
    first_of_refcnt (.inl hv) h.first, lru_of_unused (unused_of_refcnt (by omega)) h.lru, h.rel_lt⟩
  · have := h.count a
    change _ = s.users a + _
    by_cases hab : a = b
    · subst hab; simp [BufCache.bpin] at this ⊢; omega
    · simp [BufCache.bpin, hab] at this ⊢; exact this
  · by_cases hab : a = b
    · subst hab; simpa [BufCache.bpin] using hv
    · simpa [BufCache.bpin, hab] using h.held_valid u a hu
  · by_cases hab : a = b
    · subst hab; simpa [BufCache.bpin] using hv
    · simp [hab] at ha; simpa [BufCache.bpin, hab] using h.pinned_valid a ha

omit [DecidableEq τ] in
theorem Inv.unpin {s : Sys τ} (h : Inv s) {t : τ} {b : Fin NBUF} (ht : s.callers t = .holding b)
    (hp : 0 < s.pins b) :
    Inv { s with cache := s.cache.bunpin b, pins := Function.update s.pins b (s.pins b - 1) } := by
  have hv := h.held_valid t b ht
  have hcb := h.count b
  have hub : 0 < s.users b := Finset.card_pos.mpr ⟨t, by simp [ht]⟩
  refine ⟨h.threaded, h.nodup, h.complete, fun a => ?_, fun u a hu => ?_, fun a ha => ?_,
    first_of_refcnt (.inl hv) h.first, lru_of_unused (unused_of_refcnt (by omega)) h.lru, h.rel_lt⟩
  · have := h.count a
    change _ = s.users a + _
    by_cases hab : a = b
    · subst hab; simp [BufCache.bunpin] at this ⊢; omega
    · simp [BufCache.bunpin, hab] at this ⊢; exact this
  · by_cases hab : a = b
    · subst hab; simpa [BufCache.bunpin] using hv
    · simpa [BufCache.bunpin, hab] using h.held_valid u a hu
  · by_cases hab : a = b
    · subst hab; simpa [BufCache.bunpin] using hv
    · simp [hab] at ha; simpa [BufCache.bunpin, hab] using h.pinned_valid a ha

/-- `brelse` by the holder of `b` leaves the counts, and the validity of
what is held or pinned, right, whether or not `b` is freed. -/
theorem Inv.release_count {s : Sys τ} (h : Inv s) (s' : Sys τ) {t : τ} {b : Fin NBUF}
    (ht : s.callers t = .releasing b) (hbuf : s'.cache.buf = (s.cache.bunpin b).buf)
    (hc : s'.callers = Function.update s.callers t .idle) (hp : s'.pins = s.pins) :
    (∀ a, (s'.cache.buf a).refcnt = s'.users a + s'.pins a) ∧
      (∀ u a, s'.callers u = .holding a → (s'.cache.buf a).valid = true) ∧
      (∀ a, 0 < s'.pins a → (s'.cache.buf a).valid = true) := by
  have hvalid : ∀ a, (s'.cache.buf a).valid = (s.cache.buf a).valid := by
    intro a; rw [hbuf]
    by_cases hab : a = b
    · subst hab; simp [BufCache.bunpin]
    · simp [BufCache.bunpin, hab]
  refine ⟨fun a => ?_, fun u a hu => ?_, fun a ha => ?_⟩
  · have hu := Sys.users_update s' hc a
    have hca := h.count a
    rw [ht, hp, hbuf] at *
    by_cases hab : a = b
    · subst hab; simp [BufCache.bunpin] at hu ⊢; omega
    · simp [BufCache.bunpin, hab, Ne.symm hab] at hu ⊢; omega
  · have hut : u ≠ t := by rintro rfl; simp [hc] at hu
    rw [hvalid]
    exact h.held_valid u a (by simpa [hc, hut] using hu)
  · rw [hvalid]; rw [hp] at ha; exact h.pinned_valid a ha

theorem Inv.release {s : Sys τ} (h : Inv s) {t : τ} {b : Fin NBUF} (ht : s.callers t = .releasing b)
    (hr : (s.cache.buf b).refcnt - 1 ≠ 0) :
    Inv { s with
      cache := s.cache.bunpin b, callers := Function.update s.callers t .idle,
      clock := s.clock + 1 } := by
  obtain ⟨hcount, hheld, hpinned⟩ := h.release_count { s with
      cache := s.cache.bunpin b, callers := Function.update s.callers t .idle,
      clock := s.clock + 1 } ht rfl rfl rfl
  refine ⟨h.threaded, h.nodup, h.complete, hcount, hheld, hpinned,
    first_of_refcnt (.inr (h.users_le (t := t) (by simp [ht]))) h.first,
    lru_of_unused (unused_of_refcnt hr) h.lru,
    fun a => Nat.lt_succ_of_lt (h.rel_lt a)⟩

omit [DecidableEq τ] in
theorem Inv.threaded_release {s : Sys τ} (h : Inv s) (b : Fin NBUF) :
    Dlist.Threaded (((s.cache.bunpin b).unlink b).linkFront b).next
      (((s.cache.bunpin b).unlink b).linkFront b).prev (b :: s.order.erase b) := by
  obtain ⟨pre, post, hord⟩ := List.append_of_mem (h.complete b)
  have hnd := h.nodup
  rw [hord] at hnd
  have hbpre : b ∉ pre := fun hb => (List.nodup_append.mp hnd).2.2 b hb b (by simp) rfl
  have herase : s.order.erase b = pre ++ post := by
    rw [hord, List.erase_append_right _ hbpre, List.erase_cons_head]
  have hth := h.threaded
  rw [hord] at hth
  have hnd' : (pre ++ post).Nodup := by
    rw [← herase]; exact h.nodup.erase b
  have hb' : b ∉ pre ++ post := by
    rw [← herase]; exact h.nodup.not_mem_erase
  rw [herase]
  exact Dlist.threaded_linkFront (Dlist.threaded_unlink hth hnd) hnd' hb'

/-- `brelse` of the last reference to `b` keeps the invariant: `b` becomes the
most recently released unused buffer. -/
theorem Inv.free {s : Sys τ} (h : Inv s) {t : τ} {b : Fin NBUF} (ht : s.callers t = .releasing b)
    (hr : (s.cache.buf b).refcnt - 1 = 0) :
    Inv { s with
      cache := ((s.cache.bunpin b).unlink b).linkFront b,
      callers := Function.update s.callers t .idle,
      order := b :: s.order.erase b, rel := Function.update s.rel b s.clock,
      clock := s.clock + 1 } := by
  obtain ⟨hcount, hheld, hpinned⟩ := h.release_count { s with
      cache := ((s.cache.bunpin b).unlink b).linkFront b,
      callers := Function.update s.callers t .idle,
      order := b :: s.order.erase b, rel := Function.update s.rel b s.clock,
      clock := s.clock + 1 } ht rfl rfl rfl
  have hlb : (s.cache.buf b).live := .inr (h.users_le (t := t) (by simp [ht]))
  have hbuf : ∀ a, a ≠ b → (((s.cache.bunpin b).unlink b).linkFront b).buf a = s.cache.buf a := by
    intro a hab; simp [BufCache.bunpin, hab]
  have hblk : ∀ a, ((((s.cache.bunpin b).unlink b).linkFront b).buf a).blk = (s.cache.buf a).blk := by
    intro a
    by_cases hab : a = b
    · subst hab; simp [BufCache.bunpin, Buf.blk]
    · rw [hbuf a hab]
  have hne : ∀ a ∈ s.order.erase b, a ≠ b := fun a ha hab => h.nodup.not_mem_erase (hab ▸ ha)
  refine ⟨h.threaded_release b, ?_, fun a => ?_, hcount, hheld, hpinned, fun a ha => ?_, ?_, fun a => ?_⟩
  · exact List.nodup_cons.mpr ⟨h.nodup.not_mem_erase, h.nodup.erase b⟩
  · by_cases hab : a = b
    · simp [hab]
    · exact List.mem_cons_of_mem _ ((List.mem_erase_of_ne hab).mpr (h.complete a))
  · -- `b` heads the list; any other live buffer holds another block than `b`
    simp only [hblk]
    by_cases hab : a = b
    · subst hab; simp
    · have hla : (s.cache.buf a).live := by rwa [hbuf a hab] at ha
      have hba : (s.cache.buf b).blk ≠ (s.cache.buf a).blk :=
        fun he => hab (h.eq_of_blk hla hlb he.symm)
      rw [List.find?_cons_of_neg (by simpa using hba), Dlist.find?_erase_of_not (by simpa using hba)]
      exact h.first a hla
  · -- `b` is released last; the other unused buffers keep their order
    have hun : ∀ a ∈ s.order.erase b,
        (((s.cache.bunpin b).unlink b).linkFront b).unused a = s.cache.unused a := by
      intro a ha; simp [BufCache.unused, hbuf a (hne a ha)]
    have hfilter := List.filter_congr hun
    simp only
    rw [List.filter_cons_of_pos (by simp [BufCache.unused, BufCache.bunpin, hr]), hfilter]
    refine List.pairwise_cons.mpr ⟨fun a ha => ?_, ?_⟩
    · have hab := hne a (List.mem_of_mem_filter ha)
      simpa [hab] using h.rel_lt a
    · refine ((h.lru.sublist (List.erase_sublist.filter _)).imp_of_mem fun ha hc hlt => ?_)
      rwa [Function.update_of_ne (hne _ (List.mem_of_mem_filter hc)),
        Function.update_of_ne (hne _ (List.mem_of_mem_filter ha))]
  · by_cases hab : a = b
    · subst hab; simp
    · simpa [hab] using Nat.lt_succ_of_lt (h.rel_lt a)

theorem Inv.unlock {s : Sys τ} (h : Inv s) {t : τ} {b : Fin NBUF} (ht : s.callers t = .holding b) :
    Inv { s with callers := Function.update s.callers t (.releasing b) } := by
  have husers := Sys.users_update
    (s := s) { s with callers := Function.update s.callers t (.releasing b) } rfl
  refine ⟨h.threaded, h.nodup, h.complete, fun a => ?_, fun u a hu => ?_, h.pinned_valid, h.first,
    h.lru, h.rel_lt⟩
  · have hu := husers a
    rw [ht, Caller.uses_holding, Caller.uses_releasing] at hu
    rw [h.count a]
    change _ = _ + s.pins a
    omega
  · have hut : u ≠ t := by rintro rfl; simp at hu
    exact h.held_valid u a (by simpa [hut] using hu)

/-- Every step keeps the invariant. -/
theorem Inv.step {s s' : Sys τ} (h : Inv s) {e : Event τ} (hs : step s e = some s') : Inv s' := by
  cases e with
  | bread t dev blockno =>
    obtain ⟨ht, b, c, hg, rfl⟩ := step_bread_eq hs
    rcases h.bget_eq hg with ⟨hf, rfl⟩ | ⟨hf, hr, rfl⟩
    · exact h.hit ht hf
    · exact h.recycle ht hf hr
  | acquire t =>
    obtain ⟨b, ht, -, rfl⟩ := step_acquire_eq hs
    exact h.take ht
  | write t x =>
    obtain ⟨b, -, rfl⟩ := step_write_eq hs
    refine h.of_same rfl rfl rfl rfl rfl rfl rfl fun a => ?_
    by_cases hab : a = b
    · subst hab; simp [Buf.blk]
    · simp [hab]
  | bwrite t =>
    obtain ⟨b, -, rfl⟩ := step_bwrite_eq hs
    exact h.of_same rfl rfl rfl rfl rfl rfl rfl fun a => ⟨rfl, rfl, rfl⟩
  | bpin t =>
    obtain ⟨b, ht, rfl⟩ := step_bpin_eq hs
    exact h.pin ht
  | bunpin t =>
    obtain ⟨b, ht, hp, rfl⟩ := step_bunpin_eq hs
    exact h.unpin ht hp
  | releasesleep t =>
    obtain ⟨b, ht, rfl⟩ := step_releasesleep_eq hs
    exact h.unlock ht
  | brelse t =>
    obtain ⟨b, ht, ⟨hr, rfl⟩ | ⟨hr, rfl⟩⟩ := step_brelse_eq hs
    · exact h.free ht hr
    · exact h.release ht hr

theorem Reachable.inv {d : Nat × Nat → Blk} {s : Sys τ} (hr : Reachable d s) : Inv s := by
  induction hr with
  | init => exact inv_init d
  | step e _ hs ih => exact ih.step hs

end Steps

/-! ## What a step does to the buffers -/

section Guarantees

variable {τ : Type} [DecidableEq τ] [Fintype τ]

/-- A step changes a buffer in one of four ways: only its count; anyhow, if
it was unused (`bget` recycles it); its data and `valid` only, if it was
not valid (`bread` reads it); or its data only, by its holder. -/
theorem Inv.step_buf {s s' : Sys τ} (h : Inv s) {e : Event τ} (hs : Xv6.step s e = some s')
    (a : Fin NBUF) :
    (∃ r, s'.cache.buf a = { s.cache.buf a with refcnt := r }) ∨ (s.cache.buf a).refcnt = 0 ∨
      ((s.cache.buf a).valid = false ∧ (s'.cache.buf a).blk = (s.cache.buf a).blk) ∨
      ∃ t x, e = .write t x ∧ s.callers t = .holding a ∧
        s'.cache.buf a = { s.cache.buf a with data := x } := by
  cases e with
  | bread t dev blockno =>
    obtain ⟨-, b, c, hg, rfl⟩ := step_bread_eq hs
    rcases h.bget_eq hg with ⟨-, rfl⟩ | ⟨-, hr, rfl⟩
    · exact .inl (s.cache.setBuf_refcnt b a _)
    · by_cases hab : a = b
      · subst hab
        exact .inr (.inl (by simpa [BufCache.unused] using List.find?_some hr))
      · exact .inl ⟨(s.cache.buf a).refcnt, by simp [hab]⟩
  | acquire t =>
    obtain ⟨b, -, -, rfl⟩ := step_acquire_eq hs
    cases hv : (s.cache.buf a).valid
    · have hf := s.cache.fill_buf s.disk a b
      exact .inr (.inr (.inl ⟨rfl, by simp [Buf.blk, hf.1, hf.2.1]⟩))
    · exact .inl ⟨(s.cache.buf a).refcnt, s.cache.fill_buf_of_valid s.disk hv⟩
  | write t x =>
    obtain ⟨b, ht, rfl⟩ := step_write_eq hs
    by_cases hab : a = b
    · subst hab; exact .inr (.inr (.inr ⟨t, x, rfl, ht, by simp⟩))
    · exact .inl ⟨(s.cache.buf a).refcnt, by simp [hab]⟩
  | bwrite t =>
    obtain ⟨b, -, rfl⟩ := step_bwrite_eq hs
    exact .inl ⟨(s.cache.buf a).refcnt, rfl⟩
  | bpin t =>
    obtain ⟨b, -, rfl⟩ := step_bpin_eq hs
    exact .inl (s.cache.setBuf_refcnt b a _)
  | bunpin t =>
    obtain ⟨b, -, -, rfl⟩ := step_bunpin_eq hs
    exact .inl (s.cache.setBuf_refcnt b a _)
  | releasesleep t =>
    obtain ⟨b, -, rfl⟩ := step_releasesleep_eq hs
    exact .inl ⟨(s.cache.buf a).refcnt, rfl⟩
  | brelse t =>
    obtain ⟨b, -, ⟨-, rfl⟩ | ⟨-, rfl⟩⟩ := step_brelse_eq hs
    · exact .inl (s.cache.setBuf_refcnt b a _)
    · exact .inl (s.cache.setBuf_refcnt b a _)

theorem Inv.retarget {s s' : Sys τ} (h : Inv s) {e : Event τ} (hs : Xv6.step s e = some s')
    (a : Fin NBUF) (hne : (s'.cache.buf a).blk ≠ (s.cache.buf a).blk) : (s.cache.buf a).refcnt = 0 := by
  rcases h.step_buf hs a with ⟨r, hr⟩ | hz | ⟨-, hblk⟩ | ⟨t, x, -, -, hx⟩
  · exact absurd (by rw [hr]; rfl) hne
  · exact hz
  · exact absurd hblk hne
  · exact absurd (by rw [hx]; rfl) hne

theorem Inv.pinned_step {s s' : Sys τ} (h : Inv s) {e : Event τ} (hs : Xv6.step s e = some s')
    (a : Fin NBUF) (hp : 0 < s.pins a) :
    (s'.cache.buf a).blk = (s.cache.buf a).blk ∧ (s'.cache.buf a).valid = true ∧
      ((s'.cache.buf a).data = (s.cache.buf a).data ∨
        ∃ t x, e = .write t x ∧ s.callers t = .holding a) := by
  have hv := h.pinned_valid a hp
  have hpos : 0 < (s.cache.buf a).refcnt := by rw [h.count a]; omega
  rcases h.step_buf hs a with ⟨r, hr⟩ | hz | ⟨hf, -⟩ | ⟨t, x, he, ht, hx⟩
  · rw [hr]; exact ⟨rfl, hv, .inl rfl⟩
  · omega
  · simp [hv] at hf
  · rw [hx]; exact ⟨rfl, hv, .inr ⟨t, x, he, ht⟩⟩

/-- Only the holder's `bunpin` takes a pin away. -/
theorem step_pins_lt {s s' : Sys τ} {e : Event τ} (hs : Xv6.step s e = some s') (a : Fin NBUF)
    (hlt : s'.pins a < s.pins a) : ∃ t, e = .bunpin t ∧ s.callers t = .holding a := by
  cases e with
  | bread t dev blockno =>
    obtain ⟨-, b, c, -, rfl⟩ := step_bread_eq hs; exact absurd hlt (lt_irrefl _)
  | acquire t =>
    obtain ⟨b, -, -, rfl⟩ := step_acquire_eq hs; exact absurd hlt (lt_irrefl _)
  | write t x =>
    obtain ⟨b, -, rfl⟩ := step_write_eq hs; exact absurd hlt (lt_irrefl _)
  | bwrite t =>
    obtain ⟨b, -, rfl⟩ := step_bwrite_eq hs; exact absurd hlt (lt_irrefl _)
  | bpin t =>
    obtain ⟨b, -, rfl⟩ := step_bpin_eq hs
    by_cases hab : a = b
    · subst hab; simp only [Function.update_self] at hlt; omega
    · simp [hab] at hlt
  | bunpin t =>
    obtain ⟨b, ht, -, rfl⟩ := step_bunpin_eq hs
    by_cases hab : a = b
    · subst hab; exact ⟨t, rfl, ht⟩
    · simp [hab] at hlt
  | releasesleep t =>
    obtain ⟨b, -, rfl⟩ := step_releasesleep_eq hs; exact absurd hlt (lt_irrefl _)
  | brelse t =>
    obtain ⟨b, -, ⟨-, rfl⟩ | ⟨-, rfl⟩⟩ := step_brelse_eq hs <;> exact absurd hlt (lt_irrefl _)

/-- The count drops to zero only at the holder's `brelse`. -/
theorem Inv.refcnt_zero {s s' : Sys τ} (h : Inv s) {e : Event τ} (hs : Xv6.step s e = some s')
    (a : Fin NBUF) (hpos : 0 < (s.cache.buf a).refcnt) (hz : (s'.cache.buf a).refcnt = 0) :
    ∃ t, e = .brelse t ∧ s.callers t = .releasing a := by
  cases e with
  | bread t dev blockno =>
    obtain ⟨-, b, c, hg, rfl⟩ := step_bread_eq hs
    exfalso
    rcases h.bget_eq hg with ⟨-, rfl⟩ | ⟨-, -, rfl⟩ <;> by_cases hab : a = b
    · subst hab; simp at hz
    · simp [hab] at hz; omega
    · subst hab; simp at hz
    · simp [hab] at hz; omega
  | acquire t =>
    obtain ⟨b, -, -, rfl⟩ := step_acquire_eq hs
    have := (s.cache.fill_buf s.disk a b).2.2.1
    simp only at hz; omega
  | write t x =>
    obtain ⟨b, -, rfl⟩ := step_write_eq hs
    by_cases hab : a = b
    · subst hab; simp at hz; omega
    · simp [hab] at hz; omega
  | bwrite t =>
    obtain ⟨b, -, rfl⟩ := step_bwrite_eq hs
    simp only at hz; omega
  | bpin t =>
    obtain ⟨b, -, rfl⟩ := step_bpin_eq hs
    by_cases hab : a = b
    · subst hab; simp [BufCache.bpin] at hz
    · simp [BufCache.bpin, hab] at hz; omega
  | bunpin t =>
    obtain ⟨b, ht, hp, rfl⟩ := step_bunpin_eq hs
    by_cases hab : a = b
    · -- the holder and the pin both count, so one reference is left
      subst hab
      have hcount := h.count a
      have hu : 0 < s.users a := Finset.card_pos.mpr ⟨t, by simp [ht]⟩
      simp [BufCache.bunpin] at hz; omega
    · simp [BufCache.bunpin, hab] at hz; omega
  | releasesleep t =>
    obtain ⟨b, -, rfl⟩ := step_releasesleep_eq hs
    simp only at hz; omega
  | brelse t =>
    obtain ⟨b, ht, ⟨-, rfl⟩ | ⟨-, rfl⟩⟩ := step_brelse_eq hs <;> by_cases hab : a = b
    · subst hab; exact ⟨t, rfl, ht⟩
    · simp [BufCache.bunpin, hab] at hz; omega
    · subst hab; exact ⟨t, rfl, ht⟩
    · simp [BufCache.bunpin, hab] at hz; omega

theorem step_rel {s s' : Sys τ} {e : Event τ} (hs : Xv6.step s e = some s') (a : Fin NBUF) :
    s'.rel a = s.rel a ∨ (∃ t, e = .brelse t ∧ s.callers t = .releasing a) ∧
      (s'.cache.buf a).refcnt = 0 ∧ s'.rel a = s.clock := by
  cases e with
  | bread t dev blockno => obtain ⟨-, b, c, -, rfl⟩ := step_bread_eq hs; exact .inl rfl
  | acquire t => obtain ⟨b, -, -, rfl⟩ := step_acquire_eq hs; exact .inl rfl
  | write t x => obtain ⟨b, -, rfl⟩ := step_write_eq hs; exact .inl rfl
  | bwrite t => obtain ⟨b, -, rfl⟩ := step_bwrite_eq hs; exact .inl rfl
  | bpin t => obtain ⟨b, -, rfl⟩ := step_bpin_eq hs; exact .inl rfl
  | bunpin t => obtain ⟨b, -, -, rfl⟩ := step_bunpin_eq hs; exact .inl rfl
  | releasesleep t => obtain ⟨b, -, rfl⟩ := step_releasesleep_eq hs; exact .inl rfl
  | brelse t =>
    obtain ⟨b, ht, ⟨hr, rfl⟩ | ⟨-, rfl⟩⟩ := step_brelse_eq hs
    · by_cases hab : a = b
      · subst hab
        exact .inr ⟨⟨t, rfl, ht⟩, by simpa [BufCache.bunpin] using hr, by simp⟩
      · exact .inl (by simp [hab])
    · exact .inl rfl

theorem Inv.bread_result {s s' : Sys τ} (h : Inv s) {t : τ} {dev blockno : Nat} {b : Fin NBUF}
    (hs : Xv6.step s (.bread t dev blockno) = some s') (hb : s'.callers t = .waiting b) :
    (s'.cache.buf b).blk = (dev, blockno) ∧
      (∀ u a, (s.callers u).uses a = true → (s.cache.buf a).blk = (dev, blockno) → a = b) ∧
      ((s.cache.buf b).blk ≠ (dev, blockno) →
        s.cache.unused b = true ∧ ∀ a, s.cache.unused a = true → a ≠ b → s.rel b < s.rel a) := by
  obtain ⟨-, b', c, hg, rfl⟩ := step_bread_eq hs
  obtain rfl : b' = b := by simpa using hb
  rcases h.bget_eq hg with ⟨hf, rfl⟩ | ⟨hf, hr, rfl⟩
  · have hblk := blk_of_find?_caches hf
    refine ⟨by simpa [Buf.blk] using hblk, fun u a hu ha => ?_, fun hne => absurd hblk hne⟩
    -- a used buffer is the first for its block, where the walk stops
    have hfirst := h.first a (.inr (h.users_le hu))
    rw [ha, ← BufCache.caches_eq] at hfirst
    exact Option.some.inj (hfirst.symm.trans hf)
  · exact ⟨by simp [Buf.blk], fun u a _ ha => absurd ha (h.not_cached hf a), fun _ => h.lru_last hr⟩

/-- The buffer cache over every interleaving of its callers: the list is a
ring through every buffer, valid or used buffers hold distinct blocks, the
counts are right, and each step retargets, unpins, frees and recycles
buffers only as `bio.c` means to. -/
theorem bcache_invariant {d : Nat × Nat → Blk} {s : Sys τ} (hr : Reachable d s) :
    -- (a) from the head, `next` visits each buffer once and comes back
    (s.order.Nodup ∧ s.order.length = NBUF ∧
      (∀ i < NBUF, s.cache.next^[i + 1] none = s.order[i]?) ∧ s.cache.next^[NBUF + 1] none = none ∧
      ∀ x : Node, s.cache.prev (s.cache.next x) = x ∧ s.cache.next (s.cache.prev x) = x) ∧
    -- (b) valid or used buffers hold distinct blocks
    (∀ a b, (s.cache.buf a).live → (s.cache.buf b).live →
      (s.cache.buf a).blk = (s.cache.buf b).blk → a = b) ∧
    -- (c) callers and pins are counted, and a caller always has a reference to drop
    (∀ b, (s.cache.buf b).refcnt = s.users b + s.pins b) ∧
    (∀ t b, (s.callers t).uses b = true → 1 ≤ (s.cache.buf b).refcnt) ∧
    -- (e) the unused buffers in order of release, the latest nearest the head
    (s.order.filter s.cache.unused).Pairwise (fun a b => s.rel b < s.rel a) ∧
    (∀ b, s.rel b < s.clock) ∧
    ∀ e s', step s e = some s' →
      -- (b) `bread` gets the buffer any other caller of its block has, and (e)
      -- recycles the least recently released unused one
      (∀ t dev blockno b, e = .bread t dev blockno → s'.callers t = .waiting b →
        (s'.cache.buf b).blk = (dev, blockno) ∧
        (∀ u a, (s.callers u).uses a = true → (s.cache.buf a).blk = (dev, blockno) → a = b) ∧
        ((s.cache.buf b).blk ≠ (dev, blockno) →
          s.cache.unused b = true ∧ ∀ a, s.cache.unused a = true → a ≠ b → s.rel b < s.rel a)) ∧
      ∀ b,
        -- (d) retargeting only when unused; a pinned buffer keeps block, data and validity
        ((s'.cache.buf b).blk ≠ (s.cache.buf b).blk → (s.cache.buf b).refcnt = 0) ∧
        (0 < s.pins b → (s'.cache.buf b).blk = (s.cache.buf b).blk ∧ (s'.cache.buf b).valid = true ∧
          ((s'.cache.buf b).data = (s.cache.buf b).data ∨
            ∃ t x, e = .write t x ∧ s.callers t = .holding b)) ∧
        (s'.pins b < s.pins b → ∃ t, e = .bunpin t ∧ s.callers t = .holding b) ∧
        -- (e) the count reaches zero only at `brelse`, which stamps the release time
        (0 < (s.cache.buf b).refcnt → (s'.cache.buf b).refcnt = 0 →
          ∃ t, e = .brelse t ∧ s.callers t = .releasing b) ∧
        (s'.rel b = s.rel b ∨ (∃ t, e = .brelse t ∧ s.callers t = .releasing b) ∧
          (s'.cache.buf b).refcnt = 0 ∧ s'.rel b = s.clock) := by
  have h := hr.inv
  obtain ⟨hlen, hnext, hend, hinv⟩ := h.ring
  refine ⟨⟨h.nodup, hlen, hnext, hend, hinv⟩, fun a b ha hb => h.eq_of_blk ha hb, h.count,
    fun t b => h.users_le, h.lru, h.rel_lt, fun e s' hs => ⟨?_, fun b => ?_⟩⟩
  · rintro t dev blockno b rfl hb
    exact h.bread_result hs hb
  · exact ⟨h.retarget hs b, h.pinned_step hs b, step_pins_lt hs b, h.refcnt_zero hs b, step_rel hs b⟩

/-- Two callers on a zero disk: caller `0` reads block `(1, 5)` into the
least recently used buffer, `buf[0]`, writes it and releases it; caller `1`
reads the same block from the cache and releases it. -/
def twoCallers : List (Event (Fin 2)) :=
  [.bread 0 1 5, .acquire 0, .write 0 (fun _ => 7), .bwrite 0, .releasesleep 0, .brelse 0,
    .bread 1 1 5, .acquire 1, .releasesleep 1, .brelse 1]

/-- After `twoCallers`, a `bread` of block `(1, 6)` recycles `buf[1]`: the
invariant says it was unused and released before every other unused buffer. -/
theorem bcache_invariant_recycle :
    ∃ s s' : Sys (Fin 2), Reachable (fun _ _ => 0) s ∧ step s (.bread 0 1 6) = some s' ∧
      s'.callers 0 = .waiting ⟨1, by decide⟩ ∧ (s.cache.buf ⟨1, by decide⟩).blk = (0, 0) ∧
      (s'.cache.buf ⟨1, by decide⟩).blk = (1, 6) ∧ s.cache.unused ⟨1, by decide⟩ = true ∧
      ∀ a, s.cache.unused a = true → a ≠ ⟨1, by decide⟩ → s.rel ⟨1, by decide⟩ < s.rel a := by
  let d : Nat × Nat → Blk := fun _ _ => 0
  obtain ⟨s, hs⟩ := Option.isSome_iff_exists.mp
    (show ((init d : Sys (Fin 2)).run twoCallers).isSome by decide)
  have hr : Reachable d s := Reachable.init.run hs
  -- the recycling `bread`, evaluated from the start of the run
  have hnext : ((init d : Sys (Fin 2)).run twoCallers).bind (step · (.bread 0 1 6)) =
      (step s (.bread 0 1 6)) := by rw [hs, Option.bind_some]
  obtain ⟨s', hs'⟩ := Option.isSome_iff_exists.mp
    (show (step s (.bread 0 1 6)).isSome by rw [← hnext]; decide)
  have hwait : s'.callers 0 = .waiting ⟨1, by decide⟩ := by
    have h : (((init d : Sys (Fin 2)).run twoCallers).bind (step · (.bread 0 1 6))).map
        (fun s' => decide (s'.callers 0 = .waiting ⟨1, by decide⟩)) = some true := by decide
    simpa [hnext, hs'] using h
  have hold : (s.cache.buf ⟨1, by decide⟩).blk = (0, 0) := by
    have h : ((init d : Sys (Fin 2)).run twoCallers).map (fun s => (s.cache.buf ⟨1, by decide⟩).blk) =
        some (0, 0) := by decide
    simpa [hs] using h
  obtain ⟨hblk, -, hlru⟩ := ((bcache_invariant hr).2.2.2.2.2.2 _ s' hs').1 0 1 6 _ rfl hwait
  obtain ⟨hunused, hlt⟩ := hlru (by rw [hold]; decide)
  exact ⟨s, s', hr, hs', hwait, hold, hblk, hunused, hlt⟩

end Guarantees

end Xv6
