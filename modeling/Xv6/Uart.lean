import Xv6.Lib.Ring

/-!
# The UART transmit ring (`kernel/uart.c`)

`uartputc` stores a byte at `uart_tx_buf[uart_tx_w % UART_TX_BUF_SIZE]`,
sleeping on `&uart_tx_r` while the ring is full, and `uartstart`, called
from `uartputc` and from `uartintr`, moves bytes from
`uart_tx_buf[uart_tx_r % UART_TX_BUF_SIZE]` to `THR` while the UART reports
`LSR_TX_IDLE`. Everything that touches the ring runs under `uart_tx_lock`,
so each call is one step here: a `uartputc` up to its `sleep` or its
`release`, a woken `uartputc` from its `while` test on, and `uartintr`'s
`uartstart`. The UART's answers to `uartstart`'s reads of `LSR` are an input
of the step: idle for the first `idle` reads, busy after.

The counters are `uint64`. They stand for the counts of bytes stored and
sent, wrapped at `2^64`, and since `UART_TX_BUF_SIZE` divides `2^64` the
wrap never shows in a ring index: the ring is a FIFO whose output is a
prefix of what `uartputc` stored (`Inv`, `uart_tx_fifo`). The comparison
`uart_tx_r <= uart_tx_w` of the counters themselves holds only until
`uart_tx_w` wraps (`uart_tx_w_wraps`).
-/

namespace Xv6.Uart

/-- `UART_TX_BUF_SIZE`. -/
def UART_TX_BUF_SIZE : Nat := 32

/-- Where a process is in `uartputc`. -/
inductive Putc
  /-- Not in `uartputc`. -/
  | out
  /-- In `sleep(&uart_tx_r, &uart_tx_lock)` with `c` still to store; `woken`
  once a `wakeup(&uart_tx_r)` has run since. -/
  | asleep (c : UInt8) (woken : Bool)
  deriving DecidableEq, Repr

/-- The transmit side of the driver, and what it has written to `THR`. -/
structure Tx where
  uart_tx_buf : Nat → UInt8
  uart_tx_w : UInt64
  uart_tx_r : UInt64
  /-- Every byte `uartstart` wrote to `THR`, in order. -/
  thr : List UInt8
  /-- Every byte a `uartputc` stored in the ring, in the order of the stores
  (not a variable of the source). -/
  accepted : List UInt8
  proc : Nat → Putc

/-- `wakeup(&uart_tx_r)`. -/
def wakeup (proc : Nat → Putc) : Nat → Putc := fun p =>
  match proc p with
  | .asleep c _ => .asleep c true
  | .out => .out

/-- A round of `uartstart`'s loop past its two tests:
`c = uart_tx_buf[uart_tx_r % UART_TX_BUF_SIZE]; uart_tx_r += 1;
wakeup(&uart_tx_r); WriteReg(THR, c)`. -/
def sendOne (s : Tx) : Tx :=
  { s with uart_tx_r := s.uart_tx_r + 1, proc := wakeup s.proc,
           thr := s.thr ++ [s.uart_tx_buf (s.uart_tx_r.toNat % UART_TX_BUF_SIZE)] }

/-- `uartstart()`, the UART reporting `LSR_TX_IDLE` to the first `idle` reads
of `LSR`. -/
def uartstart (s : Tx) (idle : Nat) : Tx :=
  if s.uart_tx_w = s.uart_tx_r then s
  else
    match idle with
    | 0 => s
    | idle + 1 => uartstart (sendOne s) idle

/-- `uart_tx_buf[uart_tx_w % UART_TX_BUF_SIZE] = c; uart_tx_w += 1;`, with
process `p` out of `uartputc`'s loop. -/
def store (s : Tx) (p : Nat) (c : UInt8) : Tx :=
  { s with uart_tx_buf := Function.update s.uart_tx_buf (s.uart_tx_w.toNat % UART_TX_BUF_SIZE) c,
           uart_tx_w := s.uart_tx_w + 1, accepted := s.accepted ++ [c],
           proc := Function.update s.proc p .out }

/-- `uartputc(c)` in process `p` from its `while` test on, holding
`uart_tx_lock`: sleep on a full ring, or store `c` and call `uartstart`. -/
def putLoop (s : Tx) (p : Nat) (c : UInt8) (idle : Nat) : Tx :=
  if s.uart_tx_w = s.uart_tx_r + UInt64.ofNat UART_TX_BUF_SIZE then
    { s with proc := Function.update s.proc p (.asleep c false) }
  else uartstart (store s p c) idle

/-- The steps of the driver's transmit side, each under `uart_tx_lock`. -/
inductive Event
  /-- Process `p` calls `uartputc(c)`. -/
  | uartputc (p : Nat) (c : UInt8) (idle : Nat)
  /-- Process `p`, woken in `uartputc`, takes `uart_tx_lock` back. -/
  | wake (p : Nat) (idle : Nat)
  /-- `uartintr`: `acquire(&uart_tx_lock); uartstart(); release(&uart_tx_lock);`. -/
  | uartintr (idle : Nat)

def step (s : Tx) : Event → Option Tx
  | .uartputc p c idle => if s.proc p = .out then some (putLoop s p c idle) else none
  | .wake p idle =>
    match s.proc p with
    | .asleep c true => some (putLoop s p c idle)
    | _ => none
  | .uartintr idle => some (uartstart s idle)

/-- Boot: an empty ring, no process in `uartputc`. -/
def init : Tx := ⟨fun _ => 0, 0, 0, [], [], fun _ => .out⟩

inductive Reachable : Tx → Prop
  | init : Reachable init
  | step {s s' : Tx} (e : Event) : Reachable s → step s e = some s' → Reachable s'

/-! ## The ring as a queue -/

/-- The bytes waiting in the ring, oldest first. -/
def unsent (s : Tx) : List UInt8 :=
  (List.range (s.uart_tx_w - s.uart_tx_r).toNat).map fun i =>
    s.uart_tx_buf ((s.uart_tx_r.toNat + i) % UART_TX_BUF_SIZE)

/-- What holds of every reachable state. -/
structure Inv (s : Tx) : Prop where
  /-- At most a ring's worth of bytes waits, counted in `uint64` arithmetic. -/
  fill : (s.uart_tx_w - s.uart_tx_r).toNat ≤ UART_TX_BUF_SIZE
  /-- The bytes sent, then those waiting, are the bytes stored. -/
  fifo : s.thr ++ unsent s = s.accepted
  /-- The counters count the bytes stored and sent, wrapped at `2^64`. -/
  w_eq : s.uart_tx_w.toNat = s.accepted.length % 2 ^ 64
  r_eq : s.uart_tx_r.toNat = s.thr.length % 2 ^ 64

theorem dvd_two_pow : UART_TX_BUF_SIZE ∣ 2 ^ 64 := ⟨2 ^ 59, by decide⟩

theorem succ_add_mod (x : UInt64) (i : Nat) :
    ((x + 1).toNat + i) % UART_TX_BUF_SIZE = (x.toNat + (i + 1)) % UART_TX_BUF_SIZE := by
  rw [UInt64.toNat_add, UInt64.toNat_one, Nat.add_mod, Nat.mod_mod_of_dvd _ dvd_two_pow, ← Nat.add_mod]
  congr 1
  omega

theorem add_sub_mod (x y : UInt64) :
    (x.toNat + (y - x).toNat) % UART_TX_BUF_SIZE = y.toNat % UART_TX_BUF_SIZE := by
  have h : (x.toNat + (y - x).toNat) % 2 ^ 64 = y.toNat := by
    rw [UInt64.toNat_sub]
    have := y.toNat_lt
    have := x.toNat_lt
    omega
  rw [← h, Nat.mod_mod_of_dvd _ dvd_two_pow]

theorem toNat_sub_pos {x y : UInt64} (h : y ≠ x) : 0 < (y - x).toNat := by
  have hne : y.toNat ≠ x.toNat := fun h' => h (UInt64.toNat_inj.mp h')
  rw [UInt64.toNat_sub]
  have := y.toNat_lt
  have := x.toNat_lt
  omega

theorem toNat_sub_succ {x y : UInt64} (h : y ≠ x) : (y - (x + 1)).toNat = (y - x).toNat - 1 := by
  have hne : y.toNat ≠ x.toNat := fun h' => h (UInt64.toNat_inj.mp h')
  rw [UInt64.toNat_sub, UInt64.toNat_sub, UInt64.toNat_add, UInt64.toNat_one]
  have := y.toNat_lt
  have := x.toNat_lt
  omega

theorem toNat_succ_sub {x y : UInt64} (h : (y - x).toNat < UART_TX_BUF_SIZE) :
    (y + 1 - x).toNat = (y - x).toNat + 1 := by
  rw [UInt64.toNat_sub, UInt64.toNat_sub, UInt64.toNat_add, UInt64.toNat_one] at *
  have := y.toNat_lt
  have := x.toNat_lt
  simp only [UART_TX_BUF_SIZE] at h
  omega

theorem full_iff (x y : UInt64) :
    y = x + UInt64.ofNat UART_TX_BUF_SIZE ↔ (y - x).toNat = UART_TX_BUF_SIZE := by
  constructor
  · rintro rfl
    simp [UART_TX_BUF_SIZE]
  · intro h
    have : y - x = UInt64.ofNat UART_TX_BUF_SIZE := UInt64.toNat_inj.mp (by simpa [UART_TX_BUF_SIZE] using h)
    rw [← this]
    simp

theorem unsent_sendOne {s : Tx} (h : s.uart_tx_w ≠ s.uart_tx_r) :
    unsent s = s.uart_tx_buf (s.uart_tx_r.toNat % UART_TX_BUF_SIZE) :: unsent (sendOne s) := by
  have hpos : (s.uart_tx_w - s.uart_tx_r).toNat = (s.uart_tx_w - (s.uart_tx_r + 1)).toNat + 1 := by
    have h0 := toNat_sub_pos h
    rw [toNat_sub_succ h]
    omega
  rw [unsent, hpos, List.range_succ_eq_map, List.map_cons, List.map_map]
  simp only [Nat.add_zero, unsent, sendOne]
  congr 1
  refine List.map_congr_left fun i _ => ?_
  simp only [Function.comp, succ_add_mod]

theorem unsent_store {s : Tx} (hlt : (s.uart_tx_w - s.uart_tx_r).toNat < UART_TX_BUF_SIZE) (p : Nat)
    (c : UInt8) : unsent (store s p c) = unsent s ++ [c] := by
  have hw := add_sub_mod s.uart_tx_r s.uart_tx_w
  rw [unsent, unsent]
  simp only [store, toNat_succ_sub hlt, List.range_succ, List.map_append, List.map_singleton, hw,
    Function.update_self]
  congr 1
  refine List.map_congr_left fun i hi => ?_
  -- a waiting byte is fewer than `UART_TX_BUF_SIZE` places from the slot written
  have hne := Ring.add_mod_ne s.uart_tx_r.toNat (List.mem_range.mp hi) hlt
  rw [hw] at hne
  exact Function.update_of_ne hne _ _

theorem inv_sendOne {s : Tx} (h : Inv s) (hne : s.uart_tx_w ≠ s.uart_tx_r) : Inv (sendOne s) where
  fill := by
    rw [show (sendOne s).uart_tx_w = s.uart_tx_w from rfl, show (sendOne s).uart_tx_r = s.uart_tx_r + 1 from rfl,
      toNat_sub_succ hne]
    exact le_trans (Nat.sub_le _ _) h.fill
  fifo := by
    show s.thr ++ [s.uart_tx_buf (s.uart_tx_r.toNat % UART_TX_BUF_SIZE)] ++ unsent (sendOne s) = s.accepted
    rw [List.append_assoc, List.singleton_append, ← unsent_sendOne hne, h.fifo]
  w_eq := h.w_eq
  r_eq := by
    simp only [sendOne, UInt64.toNat_add, UInt64.toNat_one, h.r_eq, List.length_append, List.length_singleton]
    omega

theorem inv_uartstart {s : Tx} (h : Inv s) (idle : Nat) : Inv (uartstart s idle) := by
  induction idle generalizing s with
  | zero =>
    unfold uartstart
    split_ifs <;> exact h
  | succ idle ih =>
    unfold uartstart
    split_ifs with hne
    · exact h
    · exact ih (inv_sendOne h hne)

theorem inv_store {s : Tx} (h : Inv s) (hlt : (s.uart_tx_w - s.uart_tx_r).toNat < UART_TX_BUF_SIZE)
    (p : Nat) (c : UInt8) : Inv (store s p c) where
  fill := by
    rw [show (store s p c).uart_tx_r = s.uart_tx_r from rfl, show (store s p c).uart_tx_w = s.uart_tx_w + 1 from rfl,
      toNat_succ_sub hlt]
    exact hlt
  fifo := by
    show s.thr ++ unsent (store s p c) = s.accepted ++ [c]
    rw [unsent_store hlt, ← List.append_assoc, h.fifo]
  w_eq := by
    simp only [store, UInt64.toNat_add, UInt64.toNat_one, h.w_eq, List.length_append, List.length_singleton]
    omega
  r_eq := h.r_eq

theorem inv_putLoop {s : Tx} (h : Inv s) (p : Nat) (c : UInt8) (idle : Nat) : Inv (putLoop s p c idle) := by
  unfold putLoop
  split_ifs with hfull
  · exact ⟨h.fill, h.fifo, h.w_eq, h.r_eq⟩
  · have hlt : (s.uart_tx_w - s.uart_tx_r).toNat < UART_TX_BUF_SIZE :=
      lt_of_le_of_ne h.fill fun heq => hfull ((full_iff _ _).mpr heq)
    exact inv_uartstart (inv_store h hlt p c) idle

theorem Inv.next {s s' : Tx} (h : Inv s) {e : Event} (hs : step s e = some s') : Inv s' := by
  cases e with
  | uartputc p c idle =>
    simp only [step] at hs
    split_ifs at hs
    cases hs
    exact inv_putLoop h p c idle
  | wake p idle =>
    simp only [step] at hs
    split at hs
    · cases hs
      exact inv_putLoop h p _ idle
    · cases hs
  | uartintr idle =>
    cases hs
    exact inv_uartstart h idle

theorem init_inv : Inv init := ⟨by decide, rfl, rfl, rfl⟩

theorem Reachable.inv {s : Tx} (hr : Reachable s) : Inv s := by
  induction hr with
  | init => exact init_inv
  | step e _ hs ih => exact ih.next hs

theorem Inv.counters_le {s : Tx} (h : Inv s) (hA : s.accepted.length + UART_TX_BUF_SIZE < 2 ^ 64) :
    s.uart_tx_r ≤ s.uart_tx_w ∧ s.uart_tx_w ≤ s.uart_tx_r + UInt64.ofNat UART_TX_BUF_SIZE := by
  have hlen : s.accepted.length = s.thr.length + (s.uart_tx_w - s.uart_tx_r).toNat := by
    rw [← h.fifo, List.length_append, unsent, List.length_map, List.length_range]
  have hfill := h.fill
  have hw := h.w_eq
  have hr := h.r_eq
  rw [Nat.mod_eq_of_lt (by omega)] at hw hr
  simp only [UART_TX_BUF_SIZE] at hA hfill
  constructor
  · rw [UInt64.le_iff_toNat_le]
    omega
  · have h32 : (UInt64.ofNat UART_TX_BUF_SIZE).toNat = 32 := rfl
    rw [UInt64.le_iff_toNat_le, UInt64.toNat_add, h32]
    omega

theorem uart_tx_fifo {s : Tx} (hr : Reachable s) :
    Inv s ∧ (s.accepted.length + UART_TX_BUF_SIZE < 2 ^ 64 →
      s.uart_tx_r ≤ s.uart_tx_w ∧ s.uart_tx_w ≤ s.uart_tx_r + UInt64.ofNat UART_TX_BUF_SIZE) :=
  ⟨hr.inv, hr.inv.counters_le⟩

/-- `uartputc('A')` sent at once, then `'B'` and `'C'` stored by two processes
while the UART is busy: two bytes wait in the ring. -/
def partlyFull : Tx := putLoop (putLoop (putLoop init 0 65 1) 0 66 0) 1 67 0

theorem uart_tx_fifo_partlyFull :
    Reachable partlyFull ∧ partlyFull.thr = [65] ∧ unsent partlyFull = [66, 67] ∧
      (Inv partlyFull ∧ (partlyFull.accepted.length + UART_TX_BUF_SIZE < 2 ^ 64 →
        partlyFull.uart_tx_r ≤ partlyFull.uart_tx_w ∧
          partlyFull.uart_tx_w ≤ partlyFull.uart_tx_r + UInt64.ofNat UART_TX_BUF_SIZE)) := by
  have hr : Reachable partlyFull :=
    .step (.uartputc 1 67 0) (.step (.uartputc 0 66 0) (.step (.uartputc 0 65 1) .init rfl) rfl) rfl
  exact ⟨hr, by decide, by decide, uart_tx_fifo hr⟩

/-! ## The counters wrap -/

theorem uartstart_zero (s : Tx) : uartstart s 0 = s := by
  unfold uartstart
  split_ifs <;> rfl

theorem putLoop_of_empty {s : Tx} (h : s.uart_tx_w = s.uart_tx_r) (p : Nat) (c : UInt8) (idle : Nat) :
    putLoop s p c idle = uartstart (store s p c) idle := by
  have hne : s.uart_tx_w ≠ s.uart_tx_r + UInt64.ofNat UART_TX_BUF_SIZE := by
    rw [Ne, full_iff, h, UInt64.sub_self]
    decide
  rw [putLoop, if_neg hne]

theorem putLoop_one {s : Tx} (h : s.uart_tx_w = s.uart_tx_r) (p : Nat) (c : UInt8) :
    putLoop s p c 1 = sendOne (store s p c) := by
  have hne : (store s p c).uart_tx_w ≠ (store s p c).uart_tx_r := by
    show s.uart_tx_w + 1 ≠ s.uart_tx_r
    rw [h]
    simp
  have hsent : (sendOne (store s p c)).uart_tx_w = (sendOne (store s p c)).uart_tx_r := by
    show s.uart_tx_w + 1 = s.uart_tx_r + 1
    rw [h]
  rw [putLoop_of_empty h, uartstart, if_neg hne]
  rw [uartstart, if_pos hsent]

theorem reachable_drained (k : Nat) :
    ∃ s, Reachable s ∧ s.uart_tx_w = s.uart_tx_r ∧ s.thr.length = k ∧ s.proc 0 = .out := by
  induction k with
  | zero => exact ⟨init, .init, rfl, rfl, rfl⟩
  | succ k ih =>
    obtain ⟨s, hr, hwr, hlen, hp⟩ := ih
    have hs : step s (.uartputc 0 0 1) = some (sendOne (store s 0 0)) := by
      rw [step, if_pos hp, putLoop_one hwr]
    refine ⟨_, hr.step _ hs, ?_, ?_, ?_⟩
    · show s.uart_tx_w + 1 = s.uart_tx_r + 1
      rw [hwr]
    · simp [sendOne, store, hlen]
    · simp [sendOne, store, wakeup]

/-- After `2^64 - 1` bytes, one more `uartputc` with the UART busy wraps
`uart_tx_w` to `0` while `uart_tx_r` is `2^64 - 1`. -/
theorem uart_tx_w_wraps : ∃ s, Reachable s ∧ s.uart_tx_w < s.uart_tx_r := by
  obtain ⟨s, hr, hwr, hlen, hp⟩ := reachable_drained (2 ^ 64 - 1)
  have hrn : s.uart_tx_r.toNat = 2 ^ 64 - 1 := by
    rw [hr.inv.r_eq, hlen]
    rfl
  have hs : step s (.uartputc 0 0 0) = some (store s 0 0) := by
    rw [step, if_pos hp, putLoop_of_empty hwr, uartstart_zero]
  refine ⟨_, hr.step _ hs, ?_⟩
  show s.uart_tx_w + 1 < s.uart_tx_r
  rw [UInt64.lt_iff_toNat_lt, UInt64.toNat_add, hwr, hrn]
  decide

end Xv6.Uart
