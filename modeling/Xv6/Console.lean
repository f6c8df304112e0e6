import Xv6.Lib.Ring

/-!
# The console line discipline (`kernel/console.c`)

`cons` holds a ring of `INPUT_BUF_SIZE` bytes and three free-running `uint`
counters: bytes in `[r, w)` are committed and not yet read, bytes in `[w, e)`
are the line being edited. `consoleintr` runs for each input byte and
`consoleread` copies committed bytes out; both run under `cons.lock`, so each
call of `consoleintr`, and each stretch of `consoleread` between two sleeps
on `&cons.r`, is one step. The echo to the display (`consputc`) and
`procdump` change nothing here.

A process in `consoleread(dst, n)` is a `Reader`. `room` is how many bytes
from `dst` on `either_copyout` can write: the copy of a byte at `dst + i`
fails iff `room ≤ i`. `killed` is what `killed(myproc())` says when the
reader finds the ring empty.

`Ref` is the editor the console is meant to be: the committed bytes still
unread and the pending line, as lists. The ring refines it (`Cons.toRef`),
for every byte except `C('P')`, which prints the process list and is not
stored, and for reads whose copies succeed (`sim_run`). A read whose copy
fails has already taken its byte off the ring (`consoleread_drops_byte`).
-/

namespace Xv6.Console

open Xv6.Ring

def INPUT_BUF_SIZE : UInt32 := 128

/-- `cons`: the input ring and its read, write and edit counters. -/
structure Cons where
  buf : Nat → UInt8
  r : UInt32
  w : UInt32
  e : UInt32

/-- `cons.buf[x % INPUT_BUF_SIZE]`. -/
def Cons.get (c : Cons) (x : UInt32) : UInt8 := c.buf (x % INPUT_BUF_SIZE).toNat

/-- The loop of `C('U')`, at most `k` rounds. -/
def killLine (c : Cons) : Nat → Cons
  | 0 => c
  | k + 1 => if c.e ≠ c.w ∧ c.get (c.e - 1) ≠ 10 then killLine { c with e := c.e - 1 } k else c

/-- `consoleintr(c)`. The kill-line loop moves `e` down towards `w`, so
`dist c.w c.e` rounds are all it can take. -/
def consoleintr (c : Cons) (ch : UInt8) : Cons :=
  match ch with
  | 16 => c
  | 21 => killLine c (dist c.w c.e)
  | 8 | 127 => if c.e ≠ c.w then { c with e := c.e - 1 } else c
  | ch =>
    if ch ≠ 0 ∧ c.e - c.r < INPUT_BUF_SIZE then
      let ch := if ch = 13 then 10 else ch
      let c := { c with buf := Function.update c.buf (c.e % INPUT_BUF_SIZE).toNat ch, e := c.e + 1 }
      if ch = 10 ∨ ch = 4 ∨ c.e - c.r = INPUT_BUF_SIZE then { c with w := c.e } else c
    else c

/-- A process inside `consoleread`. -/
structure Reader where
  target : Nat
  n : Nat
  /-- The bytes copied to `dst` so far. -/
  got : List UInt8
  room : Nat
  deriving DecidableEq

/-- What a stretch of `consoleread` leaves: the buffer, `n`, the bytes
copied, and `some` of the value returned, or `none` if it sleeps. -/
abbrev Stretch (B : Type) := B × Nat × List UInt8 × Option Int

/-- The loop of `consoleread` with `n` left, from the byte at `dst + target - n`. -/
def readLoop (target room : Nat) (killed : Bool) : Nat → Cons → List UInt8 → Stretch Cons
  | 0, c, got => (c, 0, got, some target)
  | n + 1, c, got =>
    if c.r = c.w then (c, n + 1, got, if killed then some (-1) else none)
    else
      let ch := c.get c.r
      let c := { c with r := c.r + 1 }
      if ch = 4 then
        ((if n + 1 < target then { c with r := c.r - 1 } else c), n + 1, got,
          some ((target : Int) - (n + 1 : Nat)))
      else if target - (n + 1) < room then
        if ch = 10 then (c, n, got ++ [ch], some ((target : Int) - n))
        else readLoop target room killed n c (got ++ [ch])
      else (c, n + 1, got, some ((target : Int) - (n + 1 : Nat)))

inductive Event
  /-- `consoleintr(c)`. -/
  | intr (c : UInt8)
  /-- Process `p` calls `consoleread(dst, n)`. -/
  | read (p : Nat) (n : Int) (room : Nat)
  /-- Process `p` runs on in `consoleread`. -/
  | run (p : Nat) (killed : Bool)
  deriving DecidableEq

/-- The console with the readers in it, and the reads returned so far:
the process, the bytes copied, the value returned. -/
structure Sys (B : Type) where
  buf : B
  rd : Nat → Option Reader
  out : List (Nat × List UInt8 × Int)

variable {B B' : Type}

/-- One step of a console whose input handler is `intr` and whose read loop
is `loop`. -/
def Sys.step (intr : B → UInt8 → B)
    (loop : Nat → Nat → Bool → Nat → B → List UInt8 → Stretch B) (s : Sys B) : Event → Sys B
  | .intr ch => { s with buf := intr s.buf ch }
  | .read p n room =>
    match s.rd p with
    | none => { s with rd := Function.update s.rd p (some ⟨n.toNat, n.toNat, [], room⟩) }
    | some _ => s
  | .run p killed =>
    match s.rd p with
    | none => s
    | some rd =>
      match loop rd.target rd.room killed rd.n s.buf rd.got with
      | (b, n, got, none) => ⟨b, Function.update s.rd p (some { rd with n, got }), s.out⟩
      | (b, _, got, some v) => ⟨b, Function.update s.rd p none, s.out ++ [(p, got, v)]⟩

def Sys.map (f : B → B') (s : Sys B) : Sys B' := ⟨f s.buf, s.rd, s.out⟩

def step : Sys Cons → Event → Sys Cons := Sys.step consoleintr readLoop

def run (es : List Event) (s : Sys Cons) : Sys Cons := es.foldl step s

/-- `cons` at boot, with no reader. -/
def boot : Sys Cons := ⟨⟨fun _ => 0, 0, 0, 0⟩, fun _ => none, []⟩

/-! ## The reference editor -/

structure Ref where
  unread : List UInt8
  line : List UInt8
  deriving DecidableEq

/-- `^H` and `DEL` erase the last pending byte, `^U` all of them, `NUL` is
ignored, `'\r'` becomes `'\n'`; any other byte is appended while fewer than
`INPUT_BUF_SIZE` bytes are unread, and the line is committed on `'\n'`, `^D`,
or when the buffer becomes full. -/
def Ref.intr (s : Ref) (ch : UInt8) : Ref :=
  if ch = 8 ∨ ch = 127 then { s with line := s.line.dropLast }
  else if ch = 21 then { s with line := [] }
  else if ch = 0 then s
  else if s.unread.length + s.line.length < 128 then
    let ch := if ch = 13 then 10 else ch
    let line := s.line ++ [ch]
    if ch = 10 ∨ ch = 4 ∨ s.unread.length + line.length = 128 then ⟨s.unread ++ line, []⟩
    else { s with line }
  else s

/-- A read takes committed bytes up to `n`, stops after a `'\n'`, stops
before a `^D`, which it takes only as its first byte, and leaves in place a
byte it cannot copy out. -/
def Ref.read (target room : Nat) (killed : Bool) : Nat → Ref → List UInt8 → Stretch Ref
  | 0, s, got => (s, 0, got, some target)
  | n + 1, s, got =>
    match s.unread with
    | [] => (s, n + 1, got, if killed then some (-1) else none)
    | ch :: q =>
      if ch = 4 then
        ((if n + 1 < target then s else { s with unread := q }), n + 1, got,
          some ((target : Int) - (n + 1 : Nat)))
      else if target - (n + 1) < room then
        if ch = 10 then ({ s with unread := q }, n, got ++ [ch], some ((target : Int) - n))
        else Ref.read target room killed n { s with unread := q } (got ++ [ch])
      else (s, n + 1, got, some ((target : Int) - (n + 1 : Nat)))

def Ref.step : Sys Ref → Event → Sys Ref := Sys.step Ref.intr Ref.read

def Ref.run (es : List Event) (s : Sys Ref) : Sys Ref := es.foldl Ref.step s

def Ref.boot : Sys Ref := ⟨⟨[], []⟩, fun _ => none, []⟩

/-! ## The ring refines the editor -/

/-- The unread bytes `[r, w)` and the pending line `[w, e)` of the ring. -/
def Cons.toRef (c : Cons) : Ref :=
  ⟨view 128 c.buf c.r (dist c.r c.w), view 128 c.buf c.w (dist c.w c.e)⟩

/-- `r <= w <= e <= r + INPUT_BUF_SIZE` in `uint` arithmetic modulo `2^32`. -/
def Bounds (c : Cons) : Prop := c.w - c.r ≤ c.e - c.r ∧ c.e - c.r ≤ INPUT_BUF_SIZE

/-- The counters in order, and no `'\n'` in the pending line (a `'\n'`
commits it at once). -/
structure Inv (c : Cons) : Prop where
  w_le : dist c.r c.w ≤ dist c.r c.e
  e_le : dist c.r c.e ≤ 128
  line : 10 ∉ c.toRef.line

theorem ring_dvd : (128 : Nat) ∣ 2 ^ 32 := ⟨2 ^ 25, by norm_num⟩

theorem get_eq (c : Cons) (x : UInt32) : c.get x = c.buf (cell 128 x) := by
  simp [Cons.get, cell, UInt32.toNat_mod, INPUT_BUF_SIZE]

theorem sub_lt_size_iff (x y : UInt32) : x - y < INPUT_BUF_SIZE ↔ dist y x < 128 := by
  simp [Ring.dist, INPUT_BUF_SIZE, UInt32.lt_iff_toNat_lt]

theorem sub_eq_size_iff (x y : UInt32) : x - y = INPUT_BUF_SIZE ↔ dist y x = 128 := by
  rw [← UInt32.toNat_inj]
  rfl

theorem Inv.bounds {c : Cons} (h : Inv c) : Bounds c := by
  simp only [Bounds, UInt32.le_iff_toNat_le]
  exact ⟨h.w_le, h.e_le⟩

@[simp]
theorem length_unread (c : Cons) : c.toRef.unread.length = dist c.r c.w := by simp [Cons.toRef]

@[simp]
theorem length_line (c : Cons) : c.toRef.line.length = dist c.w c.e := by simp [Cons.toRef]

theorem Inv.length {c : Cons} (h : Inv c) :
    c.toRef.unread.length + c.toRef.line.length = dist c.r c.e := by
  simp [dist_add h.w_le]

theorem Inv.r_ne_e {c : Cons} (h : Inv c) (hwe : c.e ≠ c.w) : c.r ≠ c.e := by
  intro hre
  have hw : dist c.r c.w = 0 := by simpa [hre, Ring.dist_self] using h.w_le
  exact hwe (hre.symm.trans (dist_eq_zero.mp hw))

/-! ### `consoleintr` -/

section Edit

variable {c : Cons}

theorem toRef_pred_e (hwe : c.e ≠ c.w) :
    ({ c with e := c.e - 1 } : Cons).toRef = { c.toRef with line := c.toRef.line.dropLast } := by
  simp only [Cons.toRef, dist_pred_right (Ne.symm hwe), dropLast_view ring_dvd]

theorem get_pred_mem (hwe : c.e ≠ c.w) : c.get (c.e - 1) ∈ c.toRef.line := by
  obtain ⟨k, hk⟩ : ∃ k, dist c.w c.e = k + 1 :=
    Nat.exists_eq_succ_of_ne_zero (mt dist_eq_zero.mp (Ne.symm hwe))
  have hk' : dist c.w (c.e - 1) = k := by rw [dist_pred_right (Ne.symm hwe), hk]; rfl
  have hcell : (c.w.toNat + k) % 128 = cell 128 (c.e - 1) := by
    rw [← hk', cell_eq_of_dist ring_dvd]
  simp [Cons.toRef, hk, view_succ ring_dvd, hcell, get_eq]

theorem Inv.pred_e (h : Inv c) (hwe : c.e ≠ c.w) : Inv { c with e := c.e - 1 } where
  w_le := by
    have := dist_add h.w_le
    have : dist c.w c.e ≠ 0 := mt dist_eq_zero.mp (Ne.symm hwe)
    simp only [dist_pred_right (h.r_ne_e hwe)]
    omega
  e_le := by
    simp only [dist_pred_right (h.r_ne_e hwe)]
    have := h.e_le
    omega
  line := by
    rw [toRef_pred_e hwe]
    exact fun hm => h.line (List.dropLast_subset _ hm)

theorem killLine_eq : ∀ (k : Nat) (c : Cons), Inv c → dist c.w c.e = k → killLine c k = { c with e := c.w }
  | 0, c, _, hk => by
    have hwe : c.w = c.e := dist_eq_zero.mp hk
    obtain ⟨buf, r, w, e⟩ := c
    simp only at hwe
    simp [killLine, hwe]
  | k + 1, c, h, hk => by
    have hwe : c.e ≠ c.w := fun hwe => by simp [hwe, Ring.dist_self] at hk
    have hstop : c.get (c.e - 1) ≠ 10 := fun h10 => h.line (h10 ▸ get_pred_mem hwe)
    have hk' : dist c.w (c.e - 1) = k := by rw [dist_pred_right (Ne.symm hwe), hk]; rfl
    rw [killLine, if_pos ⟨hwe, hstop⟩, killLine_eq k _ (h.pred_e hwe) hk']

theorem toRef_commit (h : dist c.r c.w ≤ dist c.r c.e) :
    ({ c with w := c.e } : Cons).toRef = ⟨c.toRef.unread ++ c.toRef.line, []⟩ := by
  simp [Cons.toRef, view_split c.buf h, Ring.dist_self, view]

theorem inv_commit (he : dist c.r c.e ≤ 128) : Inv { c with w := c.e } where
  w_le := le_refl _
  e_le := he
  line := by simp [Cons.toRef, Ring.dist_self, view]

theorem toRef_store (h : Inv c) (hfull : dist c.r c.e < 128) (ch : UInt8) :
    ({ c with buf := Function.update c.buf (c.e % INPUT_BUF_SIZE).toNat ch, e := c.e + 1 } : Cons).toRef =
      ⟨c.toRef.unread, c.toRef.line ++ [ch]⟩ := by
  have hsum := dist_add h.w_le
  have hidx : (c.e % INPUT_BUF_SIZE).toNat = cell 128 c.e := by
    simp [cell, UInt32.toNat_mod, INPUT_BUF_SIZE]
  have hunread : ∀ i < dist c.r c.w, (c.r.toNat + i) % 128 ≠ cell 128 c.e := by
    intro i hi
    rw [← cell_eq_of_dist ring_dvd c.r c.e]
    exact add_mod_ne _ (by omega) hfull
  have hline := view_update_succ ring_dvd c.buf c.w (dist c.w c.e) ch (by omega)
  rw [cell_eq_of_dist ring_dvd] at hline
  simp only [Cons.toRef, hidx, view_update_of_ne _ _ _ _ _ hunread ring_dvd,
    dist_succ_right (show dist c.w c.e + 1 < 2 ^ 32 by omega), hline]

theorem Inv.store (h : Inv c) (hfull : dist c.r c.e < 128) (ch : UInt8) (hch : ch ≠ 10) :
    Inv { c with buf := Function.update c.buf (c.e % INPUT_BUF_SIZE).toNat ch, e := c.e + 1 } where
  w_le := by
    simp only [dist_succ_right (show dist c.r c.e + 1 < 2 ^ 32 by omega)]
    have := h.w_le
    omega
  e_le := by
    simp only [dist_succ_right (show dist c.r c.e + 1 < 2 ^ 32 by omega)]
    omega
  line := by
    rw [toRef_store h hfull]
    simpa [Ne.symm hch] using h.line

theorem Ref.intr_store (s : Ref) {ch : UInt8} (h8 : ch ≠ 8) (h127 : ch ≠ 127) (h21 : ch ≠ 21)
    (h0 : ch ≠ 0) (hlt : s.unread.length + s.line.length < 128) :
    s.intr ch =
      let b := if ch = 13 then 10 else ch
      let line := s.line ++ [b]
      if b = 10 ∨ b = 4 ∨ s.unread.length + line.length = 128 then ⟨s.unread ++ line, []⟩
      else { s with line } := by
  rw [Ref.intr, if_neg (by tauto), if_neg h21, if_neg h0, if_pos hlt]

/-- The store of `consoleintr`'s last branch, and the commit after it. -/
theorem store_sim (h : Inv c) (hfull : dist c.r c.e < 128) (b : UInt8) :
    let c' : Cons := ⟨Function.update c.buf (c.e % INPUT_BUF_SIZE).toNat b, c.r, c.w, c.e + 1⟩
    let c'' := if b = 10 ∨ b = 4 ∨ c.e + 1 - c.r = INPUT_BUF_SIZE then { c' with w := c'.e } else c'
    let line := c.toRef.line ++ [b]
    c''.toRef = (if b = 10 ∨ b = 4 ∨ c.toRef.unread.length + line.length = 128 then
        ⟨c.toRef.unread ++ line, []⟩ else { c.toRef with line }) ∧ Inv c'' := by
  intro c' c'' line
  have hsum := h.length
  have hre : dist c.r (c.e + 1) = dist c.r c.e + 1 := dist_succ_right (by omega)
  have hfill : c.e + 1 - c.r = INPUT_BUF_SIZE ↔ c.toRef.unread.length + line.length = 128 := by
    rw [sub_eq_size_iff, hre, List.length_append, List.length_singleton]
    omega
  have hst : c'.toRef = ⟨c.toRef.unread, line⟩ := toRef_store h hfull b
  by_cases hcommit : b = 10 ∨ b = 4 ∨ c.e + 1 - c.r = INPUT_BUF_SIZE
  · have hw : dist c'.r c'.w ≤ dist c'.r c'.e := by
      show dist c.r c.w ≤ dist c.r (c.e + 1)
      have := h.w_le
      omega
    rw [if_pos (by rwa [← hfill])]
    simp only [c'', if_pos hcommit]
    refine ⟨by rw [toRef_commit hw, hst], inv_commit (by show dist c.r (c.e + 1) ≤ 128; omega)⟩
  · have hb : b ≠ 10 := fun hb => hcommit (.inl hb)
    rw [if_neg (by rwa [← hfill])]
    simp only [c'', if_neg hcommit]
    exact ⟨hst, h.store hfull b hb⟩

theorem erase_sim (h : Inv c) (ch : UInt8) (hch : ch = 8 ∨ ch = 127) :
    (if c.e ≠ c.w then { c with e := c.e - 1 } else c).toRef = c.toRef.intr ch ∧
      Inv (if c.e ≠ c.w then { c with e := c.e - 1 } else c) := by
  have hintr : c.toRef.intr ch = { c.toRef with line := c.toRef.line.dropLast } := by
    simp [Ref.intr, hch]
  rw [hintr]
  by_cases hwe : c.e ≠ c.w
  · simp only [if_pos hwe]
    exact ⟨toRef_pred_e hwe, h.pred_e hwe⟩
  · have hwe : c.e = c.w := not_not.mp hwe
    have hnil : c.toRef.line = [] := by simp [Cons.toRef, hwe, Ring.dist_self, view]
    simp only [hwe, ne_eq, not_true_eq_false, if_false, hnil, List.dropLast_nil]
    exact ⟨by rw [← hnil], h⟩

theorem kill_sim (h : Inv c) :
    (killLine c (dist c.w c.e)).toRef = c.toRef.intr 21 ∧ Inv (killLine c (dist c.w c.e)) := by
  rw [killLine_eq _ c h rfl]
  refine ⟨by simp [Ref.intr, Cons.toRef, Ring.dist_self, view], ?_⟩
  exact { w_le := le_refl _, e_le := le_trans h.w_le h.e_le, line := by simp [Cons.toRef, Ring.dist_self, view] }

/-- `consoleintr` is the editor's step for every byte but `C('P')`. -/
theorem intr_sim (h : Inv c) (ch : UInt8) (hp : ch ≠ 16) :
    (consoleintr c ch).toRef = c.toRef.intr ch ∧ Inv (consoleintr c ch) := by
  unfold consoleintr
  split
  · contradiction
  · exact kill_sim h
  · exact erase_sim h 8 (.inl rfl)
  · exact erase_sim h 127 (.inr rfl)
  · rename_i h16 h21 h8 h127
    have hsum := h.length
    by_cases hin : ch ≠ 0 ∧ c.e - c.r < INPUT_BUF_SIZE
    · have hfull : dist c.r c.e < 128 := (sub_lt_size_iff _ _).mp hin.2
      rw [if_pos hin, Ref.intr_store _ h8 h127 h21 hin.1 (by omega)]
      exact store_sim h hfull _
    · rw [if_neg hin]
      refine ⟨?_, h⟩
      rw [Ref.intr, if_neg (by tauto), if_neg h21]
      by_cases h0 : ch = 0
      · rw [if_pos h0]
      · have hge : ¬c.toRef.unread.length + c.toRef.line.length < 128 := fun hlt =>
          hin ⟨h0, (sub_lt_size_iff _ _).mpr (by omega)⟩
        rw [if_neg h0, if_neg hge]

end Edit

/-! ### `consoleread` -/

section Read

variable {c : Cons}

theorem toRef_pop (hrw : c.r ≠ c.w) :
    c.toRef.unread = c.get c.r :: ({ c with r := c.r + 1 } : Cons).toRef.unread := by
  obtain ⟨k, hk⟩ : ∃ k, dist c.r c.w = k + 1 :=
    Nat.exists_eq_succ_of_ne_zero (mt dist_eq_zero.mp hrw)
  simp [Cons.toRef, hk, dist_succ_left hrw, view, get_eq]

theorem Inv.pop (h : Inv c) (hrw : c.r ≠ c.w) : Inv { c with r := c.r + 1 } where
  w_le := by
    have hw : dist c.r c.w ≠ 0 := mt dist_eq_zero.mp hrw
    have hre : c.r ≠ c.e := fun hre => hw (by simpa [hre, Ring.dist_self] using h.w_le)
    simp only [dist_succ_left hrw, dist_succ_left hre]
    have := h.w_le
    omega
  e_le := by
    by_cases hre : c.r = c.e
    · simp only [hre] at hrw ⊢
      have := h.w_le
      simp [hre, Ring.dist_self] at this
      exact absurd (dist_eq_zero.mp this) hrw
    · simp only [dist_succ_left hre]
      have := h.e_le
      omega
  line := h.line

/-- A stretch of `consoleread` whose copies succeed is the editor's read. -/
theorem readLoop_sim (target room : Nat) (killed : Bool) (hroom : target ≤ room) :
    ∀ (n : Nat) (c : Cons) (got : List UInt8), Inv c → n ≤ target →
      Prod.map Cons.toRef id (readLoop target room killed n c got) =
          Ref.read target room killed n c.toRef got ∧
        Inv (readLoop target room killed n c got).1 ∧ (readLoop target room killed n c got).2.1 ≤ n
  | 0, c, got, h, _ => by simp [readLoop, Ref.read, h]
  | n + 1, c, got, h, hn => by
    by_cases hrw : c.r = c.w
    · have hnil : c.toRef.unread = [] := by simp [Cons.toRef, hrw, Ring.dist_self, view]
      simp [readLoop, Ref.read, hrw, hnil, h]
    · have hcopy : target - (n + 1) < room := by omega
      simp only [readLoop, Ref.read, if_neg hrw, toRef_pop hrw]
      split_ifs with h4 hlt h10
      · -- `^D` after bytes were copied goes back: `r + 1 - 1 = r`
        simp [h]
      · simp only [Prod.map, id]
        exact ⟨rfl, h.pop hrw, le_refl _⟩
      · simp only [Prod.map, id]
        exact ⟨rfl, h.pop hrw, by omega⟩
      · obtain ⟨hsim, hinv, hle⟩ :=
          readLoop_sim target room killed hroom n { c with r := c.r + 1 } (got ++ [c.get c.r])
            (h.pop hrw) (by omega)
        exact ⟨hsim, hinv, by omega⟩

end Read

/-! ### The console with its readers -/

/-- The ring's invariant, and readers whose copies all succeed. -/
structure SysInv (s : Sys Cons) : Prop where
  buf : Inv s.buf
  rd : ∀ p rd, s.rd p = some rd → rd.n ≤ rd.target ∧ rd.target ≤ rd.room

theorem SysInv.update {s : Sys Cons} (hs : SysInv s) (b : Cons) (hb : Inv b) (p : Nat)
    (x : Option Reader) (hx : ∀ rd, x = some rd → rd.n ≤ rd.target ∧ rd.target ≤ rd.room)
    (out : List (Nat × List UInt8 × Int)) : SysInv ⟨b, Function.update s.rd p x, out⟩ where
  buf := hb
  rd := by
    intro q rd hq
    by_cases hqp : q = p
    · subst hqp
      exact hx rd (by simpa using hq)
    · exact hs.rd q rd (by simpa [Function.update_of_ne hqp] using hq)

theorem step_ctrlP (s : Sys Cons) : step s (.intr 16) = s := rfl

theorem step_sim {s : Sys Cons} (hs : SysInv s) {ev : Event}
    (hfit : ∀ p n room, ev = .read p n room → n.toNat ≤ room) (hp : ev ≠ .intr 16) :
    (step s ev).map Cons.toRef = Ref.step (s.map Cons.toRef) ev ∧ SysInv (step s ev) := by
  cases ev with
  | intr ch =>
    obtain ⟨hsim, hinv⟩ := intr_sim hs.buf ch (fun h => hp (h ▸ rfl))
    exact ⟨by simp [step, Ref.step, Sys.step, Sys.map, hsim], ⟨hinv, hs.rd⟩⟩
  | read p n room =>
    cases hrd : s.rd p with
    | none =>
      refine ⟨by simp [step, Ref.step, Sys.step, Sys.map, hrd], ?_⟩
      simp only [step, Sys.step, hrd]
      refine hs.update _ hs.buf p _ ?_ _
      rintro rd ⟨⟩
      exact ⟨le_refl _, hfit p n room rfl⟩
    | some rd =>
      simp only [step, Ref.step, Sys.step, Sys.map, hrd]
      exact ⟨trivial, hs⟩
  | run p killed =>
    cases hrd : s.rd p with
    | none =>
      simp only [step, Ref.step, Sys.step, Sys.map, hrd]
      exact ⟨trivial, hs⟩
    | some rd =>
      obtain ⟨hn, hroom⟩ := hs.rd p rd hrd
      obtain ⟨hsim, hinv, hle⟩ := readLoop_sim rd.target rd.room killed hroom rd.n s.buf rd.got hs.buf hn
      simp only [step, Ref.step, Sys.step, Sys.map, hrd, ← hsim]
      generalize readLoop rd.target rd.room killed rd.n s.buf rd.got = res at hinv hle
      obtain ⟨b, n', got', v⟩ := res
      cases v with
      | none =>
        refine ⟨rfl, hs.update b hinv p _ ?_ _⟩
        rintro rd' ⟨⟩
        exact ⟨le_trans hle hn, hroom⟩
      | some v =>
        refine ⟨rfl, hs.update b hinv p _ ?_ _⟩
        rintro rd' ⟨⟩

theorem sim_run : ∀ (es : List Event) (s : Sys Cons), SysInv s →
    (∀ p n room, Event.read p n room ∈ es → n.toNat ≤ room) →
      (run es s).map Cons.toRef = Ref.run (es.filter (· ≠ .intr 16)) (s.map Cons.toRef) ∧
        SysInv (run es s)
  | [], s, hs, _ => ⟨rfl, hs⟩
  | ev :: es, s, hs, hfit => by
    have hfit' : ∀ p n room, Event.read p n room ∈ es → n.toNat ≤ room :=
      fun p n room h => hfit p n room (List.mem_cons_of_mem _ h)
    by_cases hp : ev = .intr 16
    · subst hp
      simpa [run, step_ctrlP] using sim_run es s hs hfit'
    · obtain ⟨hsim, hinv⟩ := step_sim hs
        (fun p n room (he : ev = .read p n room) => hfit p n room (he ▸ List.mem_cons_self ..)) hp
      have := sim_run es (step s ev) hinv hfit'
      simp only [run, List.foldl_cons, List.filter_cons, hp, decide_true,
        ne_eq, not_false_eq_true, if_true] at this ⊢
      rw [this.1, hsim]
      exact ⟨rfl, this.2⟩

theorem boot_sysInv : SysInv boot where
  buf := ⟨le_refl _, by decide, by simp [boot, Cons.toRef, Ring.dist_self, view]⟩
  rd := by simp [boot]

theorem boot_toRef : boot.map Cons.toRef = Ref.boot := by
  simp [boot, Ref.boot, Sys.map, Cons.toRef, Ring.dist_self, view]

theorem console_matches_editor (es : List Event)
    (hfit : ∀ p n room, Event.read p n room ∈ es → n.toNat ≤ room) :
    (run es boot).out = (Ref.run (es.filter (· ≠ .intr 16)) Ref.boot).out ∧
      (run es boot).buf.toRef = (Ref.run (es.filter (· ≠ .intr 16)) Ref.boot).buf ∧
      Bounds (run es boot).buf := by
  obtain ⟨hsim, hinv⟩ := sim_run es boot boot_sysInv hfit
  rw [boot_toRef] at hsim
  exact ⟨congrArg Sys.out hsim, congrArg Sys.buf hsim, hinv.buf.bounds⟩

/-- `C('P')` then `'\n'`: the console's read returns the newline alone, the
editor's would return `C('P')` with it, hence the filter. -/
example : (run [.intr 16, .intr 10, .read 0 4 4, .run 0 false] boot).out = [(0, [10], 1)] := by
  decide

/-- `a\n` typed; a read whose destination takes no byte, then one whose
destination takes both. -/
def failedCopyLine : List Event :=
  [.intr 97, .intr 10, .read 0 2 0, .run 0 false, .read 1 2 2, .run 1 false]

/-- A byte lost: `consoleread` does `cons.r++` before `either_copyout`, so
the first read takes the `'a'` off the ring, fails to copy it and returns
`0`; the second read delivers only the `'\n'` and leaves the ring empty. The
editor leaves the `'a'` for the second read. -/
theorem consoleread_drops_byte :
    (run failedCopyLine boot).out = [(0, [], 0), (1, [10], 1)] ∧
      (run failedCopyLine boot).buf.toRef = ⟨[], []⟩ ∧
      (Ref.run failedCopyLine Ref.boot).out = [(0, [], 0), (1, [97, 10], 2)] := by
  decide

end Xv6.Console
