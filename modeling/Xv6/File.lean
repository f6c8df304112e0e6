import Xv6.Param
import Mathlib

/-!
# A shared file offset (`file.c`)

Processes that share one `FD_INODE` struct file, through `fork` or `dup`,
read and write it with `fileread` and `filewrite`. Both read `f->off` and
advance it only between `ilock(f->ip)` and `iunlock(f->ip)`, so each chunk
is one step here: `fileread` is one chunk, and `filewrite` is a loop of
chunks of at most `maxChunk` bytes, each in its own transaction, with the
sleep-lock given up between them.

The inode is its data as a byte list. `readi` and `writei` act on it at the
byte level. How far their loops get before `bmap` finds no free block, and
whether an `either_copyout` fails, are arguments, so every outcome the
source allows is a step of the model. A chunk that moves `r > 0` bytes is
recorded in a ghost log. `shared_offset` states that the chunks' ranges run
on from the initial offset without gaps or overlaps. The file over them is
the chunks' bytes, and `f->off` is the initial offset plus their lengths.
-/

namespace Xv6.File

/-- `((MAXOPBLOCKS-1-1-2) / 2) * BSIZE`: the most `filewrite` hands to one
`writei`. -/
def maxChunk : Nat := (MAXOPBLOCKS - 1 - 1 - 2) / 2 * BSIZE

/-- `readi(ip, 1, dst, off, n)` on an inode whose data is `d`: its result and
the bytes it copies out. The loop stops after `k` bytes if `bmap` fails
there; `fault` says that an `either_copyout` fails, and then `readi`
returns `-1`. -/
def readi (d : List UInt8) (off n k : Nat) (fault : Bool) : Int × List UInt8 :=
  -- `off + n < off` on `uint`s
  if off > d.length ∨ 2 ^ 32 ≤ off + n then (0, [])
  else
    let n := min n (d.length - off)
    if fault ∧ 0 < n then (-1, [])
    else (min k n, (d.drop off).take (min k n))

/-- `writei(ip, 1, src, off, n)` of the bytes `src` on an inode whose data is
`d`: its result and the data after it. The loop stops after `k` bytes if
`bmap` or an `either_copyin` fails there. -/
def writei (d : List UInt8) (off : Nat) (src : List UInt8) (k : Nat) : Int × List UInt8 :=
  if off > d.length ∨ 2 ^ 32 ≤ off + src.length then (-1, d)
  else if off + src.length > MAXFILE * BSIZE then (-1, d)
  else
    let w := src.take k
    (w.length, d.take off ++ w ++ d.drop (off + w.length))

/-- A chunk that moved bytes: where it started, the bytes, and whether it
was a write. -/
structure Transfer where
  start : Nat
  bytes : List UInt8
  write : Bool

/-- Where a process is: in no call, or in `filewrite`'s loop over `src`
with `i` bytes written. -/
inductive Call
  | idle
  | writing (src : List UInt8) (i : Nat)

/-- The shared struct file and its inode, the processes, and the ghost log of
chunks in the order of their `ilock`s. -/
structure Sys (τ : Type) where
  data : List UInt8
  off : Nat
  calls : τ → Call
  log : List Transfer

/-- What a process does next. -/
inductive Event (τ : Type)
  /-- `fileread(f, addr, n)`, with `readi`'s outcome. -/
  | read (t : τ) (n k : Nat) (fault : Bool)
  /-- `filewrite(f, addr, n)` is called with the `n` bytes `src`. -/
  | write (t : τ) (src : List UInt8)
  /-- One pass of `filewrite`'s loop, with `writei`'s outcome. -/
  | chunk (t : τ) (k : Nat)

section Step

variable {τ : Type} [DecidableEq τ]

/-- The log entry of a chunk that moved `r` bytes, none if `r ≤ 0`. -/
def record (off : Nat) (r : Int) (bytes : List UInt8) (write : Bool) : List Transfer :=
  if 0 < r then [⟨off, bytes, write⟩] else []

/-- One step of the processes sharing the file. -/
def step (s : Sys τ) : Event τ → Option (Sys τ)
  | .read t n k fault =>
    match s.calls t with
    | .idle =>
      let r := readi s.data s.off n k fault
      -- `if((r = readi(...)) > 0) f->off += r`
      some { s with
        off := if 0 < r.1 then s.off + r.1.toNat else s.off,
        log := s.log ++ record s.off r.1 r.2 false }
    | _ => none
  | .write t src =>
    match s.calls t with
    | .idle => some { s with calls := Function.update s.calls t (if src = [] then .idle else .writing src 0) }
    | _ => none
  | .chunk t k =>
    match s.calls t with
    | .writing src i =>
      let n1 := min (src.length - i) maxChunk
      let w := (src.drop i).take n1
      let r := writei s.data s.off w k
      some { s with
        data := r.2,
        off := if 0 < r.1 then s.off + r.1.toNat else s.off,
        -- `if(r != n1) break; i += r;` and the loop's test `i < n`
        calls := Function.update s.calls t
          (if r.1 ≠ n1 then .idle
           else if i + n1 < src.length then .writing src (i + n1) else .idle),
        log := s.log ++ record s.off r.1 (w.take k) true }
    | _ => none

/-- The states some interleaving reaches from a file with data `d` and offset
`off0` within it, no process in a call. -/
inductive Reachable (d : List UInt8) (off0 : Nat) : Sys τ → Prop
  | init (h : off0 ≤ d.length) : Reachable d off0 ⟨d, off0, fun _ => .idle, []⟩
  | step {s s' : Sys τ} (e : Event τ) : Reachable d off0 s → step s e = some s' → Reachable d off0 s'

end Step

/-! ## What `readi` and `writei` move -/

theorem readi_cases (d : List UInt8) {off : Nat} (n k : Nat) (fault : Bool) (hoff : off ≤ d.length) :
    ((readi d off n k fault).1 ≤ 0 ∧ (readi d off n k fault).2 = []) ∨
      ((readi d off n k fault).1 = (readi d off n k fault).2.length ∧
        (d.drop off).take (readi d off n k fault).2.length = (readi d off n k fault).2 ∧
        off + (readi d off n k fault).2.length ≤ d.length) := by
  unfold readi
  dsimp only
  split_ifs with h1 h2
  · exact .inl ⟨Int.le_refl 0, rfl⟩
  · exact .inl ⟨by simp, rfl⟩
  · refine .inr ⟨?_, ?_, ?_⟩
    · simp only [List.length_take, List.length_drop]; omega
    · simp only [List.length_take, List.length_drop]; congr 1; omega
    · simp only [List.length_take, List.length_drop]; omega

theorem writei_cases (d : List UInt8) (off : Nat) (src : List UInt8) (k : Nat) :
    ((writei d off src k).1 < 0 ∧ (writei d off src k).2 = d) ∨
      (off ≤ d.length ∧ (writei d off src k).1 = (src.take k).length ∧
        (writei d off src k).2 = d.take off ++ src.take k ++ d.drop (off + (src.take k).length)) := by
  unfold writei
  dsimp only
  split_ifs with h1 h2
  · exact .inl ⟨by simp, rfl⟩
  · exact .inl ⟨by simp, rfl⟩
  · exact .inr ⟨by omega, rfl, rfl⟩

section Splice

variable {d w : List UInt8} {off : Nat}

theorem take_splice (h : off ≤ d.length) : (d.take off ++ w ++ d.drop (off + w.length)).take off = d.take off := by
  rw [List.append_assoc, List.take_append_of_le_length (by rw [List.length_take]; omega), List.take_take,
    Nat.min_self]

theorem drop_splice (h : off ≤ d.length) :
    ((d.take off ++ w ++ d.drop (off + w.length)).drop off).take w.length = w := by
  rw [List.append_assoc, List.drop_append_of_le_length (by rw [List.length_take]; omega),
    List.drop_eq_nil_of_le (by rw [List.length_take]; omega), List.nil_append,
    List.take_append_of_le_length (Nat.le_refl _), List.take_length]

theorem length_splice (h : off ≤ d.length) : off + w.length ≤ (d.take off ++ w ++ d.drop (off + w.length)).length := by
  rw [List.length_append, List.length_append, List.length_take, List.length_drop]
  omega

end Splice

/-! ## The offset and the chunks -/

/-- The chunks run on from `o`, each starting where the one before ended. -/
def Consec : Nat → List Transfer → Prop
  | _, [] => True
  | o, x :: l => x.start = o ∧ Consec (o + x.bytes.length) l

/-- The bytes the chunks moved. -/
def total (l : List Transfer) : Nat := (l.map fun x => x.bytes.length).sum

@[simp] theorem total_nil : total [] = 0 := rfl

@[simp] theorem total_append (l l' : List Transfer) : total (l ++ l') = total l + total l' := by
  simp [total]

@[simp] theorem total_singleton (x : Transfer) : total [x] = x.bytes.length := by
  simp [total]

theorem consec_append {o : Nat} {x : Transfer} :
    ∀ {l : List Transfer}, Consec o l → x.start = o + total l → Consec o (l ++ [x])
  | [], _, hx => ⟨by simpa using hx, trivial⟩
  | y :: l, ⟨hy, hl⟩, hx => ⟨hy, consec_append hl (by simp [total] at hx ⊢; omega)⟩

theorem Consec.le_start : ∀ {o : Nat} {l : List Transfer}, Consec o l → ∀ y ∈ l, o ≤ y.start
  | _, [], _, _, hy => absurd hy List.not_mem_nil
  | _, x :: l, ⟨hx, hl⟩, y, hy => by
    rcases List.mem_cons.mp hy with rfl | hy
    · omega
    · have := hl.le_start y hy; omega

theorem Consec.pairwise : ∀ {o : Nat} {l : List Transfer}, Consec o l →
    l.Pairwise fun x y => x.start + x.bytes.length ≤ y.start
  | _, [], _ => List.Pairwise.nil
  | _, x :: l, ⟨hx, hl⟩ => List.pairwise_cons.mpr ⟨fun y hy => by have := hl.le_start y hy; omega,
    hl.pairwise⟩

theorem Consec.mem_data {d : List UInt8} : ∀ {o : Nat} {l : List Transfer}, Consec o l →
    (d.drop o).take (total l) = (l.map Transfer.bytes).flatten →
    ∀ x ∈ l, (d.drop x.start).take x.bytes.length = x.bytes
  | _, [], _, _, _, hx => absurd hx List.not_mem_nil
  | o, y :: l, ⟨hy, hl⟩, hd, x, hx => by
    have hsum : total (y :: l) = y.bytes.length + total l := by simp [total]
    rw [hsum, List.take_add, List.map_cons, List.flatten_cons] at hd
    -- the first chunk is the first bytes; the rest run on after it
    have hlen : ((d.drop o).take y.bytes.length).length = y.bytes.length := by
      have := congrArg List.length hd
      simp only [List.length_append, List.length_take, List.length_drop] at this ⊢
      omega
    obtain ⟨h1, h2⟩ := List.append_inj hd (by rw [hlen])
    rcases List.mem_cons.mp hx with rfl | hx
    · rw [hy]; exact h1
    · rw [List.drop_drop] at h2
      exact hl.mem_data h2 x hx

section Invariant

variable {τ : Type}

/-- What holds of every reachable state, for the initial offset `off0`. -/
structure Inv (off0 : Nat) (s : Sys τ) : Prop where
  off_le : s.off ≤ s.data.length
  off_eq : s.off = off0 + total s.log
  consec : Consec off0 s.log
  pos : ∀ x ∈ s.log, 0 < x.bytes.length
  /-- The file from `off0` to `f->off` is the chunks' bytes, in order. -/
  data_eq : (s.data.drop off0).take (s.off - off0) = (s.log.map Transfer.bytes).flatten

/-- A chunk that moves the bytes `b` at the offset, writing them or finding
them there, and changes nothing below the offset, keeps the invariant. -/
theorem Inv.advance {off0 : Nat} {s : Sys τ} (h : Inv off0 s) {d' b : List UInt8} (wr : Bool)
    (calls : τ → Call) (hb : b ≠ [])
    (hpre : d'.take s.off = s.data.take s.off) (hat : (d'.drop s.off).take b.length = b)
    (hlen : s.off + b.length ≤ d'.length) :
    Inv off0 ⟨d', s.off + b.length, calls, s.log ++ [⟨s.off, b, wr⟩]⟩ := by
  have hle : off0 ≤ s.off := by rw [h.off_eq]; omega
  refine ⟨hlen, by simp [h.off_eq]; omega, consec_append h.consec (by simp [h.off_eq]), ?_, ?_⟩
  · intro x hx
    rcases List.mem_append.mp hx with hx | hx
    · exact h.pos x hx
    · simp at hx; subst hx; exact List.length_pos_iff.mpr hb
  · -- below the offset the data is as before; from it on, the chunk
    have hsplit : s.off + b.length - off0 = (s.off - off0) + b.length := by omega
    have hbelow : (d'.drop off0).take (s.off - off0) = (s.data.drop off0).take (s.off - off0) := by
      rw [← List.drop_take, ← List.drop_take, hpre]
    have habove : ((d'.drop off0).drop (s.off - off0)).take b.length = b := by
      rw [List.drop_drop, Nat.add_sub_cancel' hle]; exact hat
    simp only
    rw [hsplit, List.take_add, hbelow, habove, h.data_eq]
    simp

theorem Inv.keep {off0 : Nat} {s : Sys τ} (h : Inv off0 s) (calls : τ → Call) {d' : List UInt8}
    (hpre : d'.take s.off = s.data.take s.off) (hlen : s.off ≤ d'.length) :
    Inv off0 ⟨d', s.off, calls, s.log⟩ := by
  refine ⟨hlen, h.off_eq, h.consec, h.pos, ?_⟩
  simp only
  rw [← List.drop_take, hpre, List.drop_take]
  exact h.data_eq

theorem Inv.transfer {off0 : Nat} {s : Sys τ} (h : Inv off0 s) {d' b : List UInt8} {r : Int}
    (wr : Bool) (calls : τ → Call)
    (hr : (r ≤ 0 ∧ d' = s.data) ∨
      (r = b.length ∧ d'.take s.off = s.data.take s.off ∧ (d'.drop s.off).take b.length = b ∧
        s.off + b.length ≤ d'.length)) :
    Inv off0 ⟨d', if 0 < r then s.off + r.toNat else s.off, calls, s.log ++ record s.off r b wr⟩ := by
  rcases hr with ⟨hr, rfl⟩ | ⟨rfl, hpre, hat, hlen⟩
  · have hn : ¬0 < r := by omega
    simp only [record, hn, if_false, List.append_nil]
    exact h.keep calls rfl h.off_le
  · by_cases hb : b = []
    · subst hb
      have hn : ¬(0 : Int) < (([] : List UInt8).length : Int) := by simp
      simp only [record, hn, if_false, List.append_nil]
      exact h.keep calls hpre (by simpa using hlen)
    · have hpos : (0 : Int) < b.length := by exact_mod_cast List.length_pos_iff.mpr hb
      simp only [record, hpos, if_true, Int.toNat_natCast]
      exact h.advance wr calls hb hpre hat hlen

end Invariant

section Run

variable {τ : Type} [DecidableEq τ]

/-- Every step keeps the invariant. -/
theorem Inv.step {off0 : Nat} {s s' : Sys τ} (h : Inv off0 s) {e : Event τ}
    (hs : File.step s e = some s') : Inv off0 s' := by
  cases e with
  | read t n k fault =>
    simp only [File.step] at hs
    split at hs
    · simp only [Option.some.injEq] at hs
      subst hs
      refine h.transfer false s.calls ?_
      rcases readi_cases s.data n k fault h.off_le with ⟨hr, -⟩ | ⟨hr, hat, hlen⟩
      · exact .inl ⟨hr, rfl⟩
      · exact .inr ⟨hr, rfl, hat, hlen⟩
    · cases hs
  | write t src =>
    simp only [File.step] at hs
    split at hs
    · simp only [Option.some.injEq] at hs
      subst hs
      exact h.keep _ rfl h.off_le
    · cases hs
  | chunk t k =>
    simp only [File.step] at hs
    split at hs
    · next src i _ =>
      simp only [Option.some.injEq] at hs
      subst hs
      refine h.transfer true _ ?_
      rcases writei_cases s.data s.off ((src.drop i).take (min (src.length - i) maxChunk)) k with
        ⟨hr, hd⟩ | ⟨hoff, hr, hd⟩
      · exact .inl ⟨Int.le_of_lt hr, hd⟩
      · rw [hd]
        exact .inr ⟨hr, take_splice hoff, drop_splice hoff, length_splice hoff⟩
    · cases hs

theorem Reachable.inv {d : List UInt8} {off0 : Nat} {s : Sys τ} (hr : Reachable d off0 s) :
    Inv off0 s := by
  induction hr with
  | init h => exact ⟨h, by simp, trivial, by simp, by simp⟩
  | step e _ hs ih => exact ih.step hs

end Run

section Guarantees

variable {τ : Type} [DecidableEq τ]

/-- No update to a shared file offset is lost: in every interleaving of
`fileread`s and `filewrite` chunks on one struct file, the chunks' byte
ranges, in the order of their `ilock`s, run on from the initial offset
without gaps or overlaps; the file over them is the chunks' bytes, so every
written chunk is still there and every read chunk was read from there; and
`f->off` is the initial offset plus the bytes moved. -/
theorem shared_offset {d : List UInt8} {off0 : Nat} {s : Sys τ} (hr : Reachable d off0 s) :
    Consec off0 s.log ∧ (∀ x ∈ s.log, 0 < x.bytes.length) ∧
      s.log.Pairwise (fun x y => x.start + x.bytes.length ≤ y.start) ∧
      (s.data.drop off0).take (total s.log) = (s.log.map Transfer.bytes).flatten ∧
      (∀ x ∈ s.log, (s.data.drop x.start).take x.bytes.length = x.bytes) ∧
      s.off = off0 + total s.log := by
  have h := hr.inv
  have hdata : (s.data.drop off0).take (total s.log) = (s.log.map Transfer.bytes).flatten := by
    have := h.data_eq
    rwa [h.off_eq, Nat.add_sub_cancel_left] at this
  exact ⟨h.consec, h.pos, h.consec.pairwise, hdata, h.consec.mem_data hdata, h.off_eq⟩

/-- A process writes two bytes to an empty file in one chunk. -/
def twoBytes : Sys Unit := ⟨[7, 9], 2, fun _ => .idle, [⟨0, [7, 9], true⟩]⟩

theorem twoBytes_reachable : Reachable [] 0 twoBytes :=
  .step (.chunk () 2) (.step (.write () [7, 9]) (.init (Nat.le_refl 0)) rfl) rfl

/-- The guarantee after one write of two bytes: the chunk is the file's
first two bytes and the offset is past them. -/
theorem shared_offset_twoBytes :
    Reachable [] 0 twoBytes ∧ (twoBytes.data.drop 0).take (total twoBytes.log) = [7, 9] ∧
      twoBytes.off = 0 + total twoBytes.log :=
  ⟨twoBytes_reachable, (shared_offset twoBytes_reachable).2.2.2.1,
    (shared_offset twoBytes_reachable).2.2.2.2.2⟩

end Guarantees

end Xv6.File
