import Xv6.Printf

/-!
# `xargs` (`user/xargs.c`)

`xargs cmd a1 ... ak` reads standard input with `read_line`, one byte per
`read`, and for each call that found words forks, `exec`s `cmd` with
`[cmd, a1, ..., ak]` followed by those words, and waits. A run is the list
of `argv`s passed to `exec`, in order.

`read_line` builds a word in its stack array `buf` from index `0`: a space
ends the word and the loop goes on, a newline ends the word and the call,
and the end of input ends the call with the word being built, if any,
terminated by `buf[i + 1] = '\0'`. A word is what `strlen` and `strcpy`
take from `buf`: its bytes up to the first NUL (`Printf.strFrom`). `buf` is
not initialised; `frames n` is what the `n`-th call finds there.

Input made of newline-terminated lines is run line by line as intended
(`xargs_lines`). At the end of input the NUL lands one byte too far, and the
byte left at `buf[i]` by a longer word of the same line joins the last word
(`xargs_stale_byte`).
-/

namespace Xv6.Xargs

/-- `strlen(buf)` bytes of the 512-byte `buf`, as `strcpy` copies them. -/
def word (buf : Nat → UInt8) : List UInt8 := Printf.strFrom buf 512 0

/-- The loop `while (read(0, buf+i, 1))` of `read_line` on the bytes `inp`
still to come: the bytes left, `buf`, `i` and the words so far. -/
def readLoop : List UInt8 → (Nat → UInt8) → Nat → List (List UInt8) →
    List UInt8 × (Nat → UInt8) × Nat × List (List UInt8)
  | [], buf, i, ws => ([], buf, i, ws)
  | c :: inp, buf, i, ws =>
    let buf := Function.update buf i c
    if c = 32 then
      let buf := Function.update buf i 0
      readLoop inp buf 0 (ws ++ [word buf])
    else if c = 10 then
      let buf := Function.update buf i 0
      (inp, buf, 0, ws ++ [word buf])
    else readLoop inp buf (i + 1) ws

/-- `read_line`, with `buf` holding `stack` at the start: the words it
appends to `new_arg`, and the bytes left. -/
def readLine (stack : Nat → UInt8) (inp : List UInt8) : List (List UInt8) × List UInt8 :=
  let r := readLoop inp stack 0 []
  if r.2.2.1 ≠ 0 then (r.2.2.2 ++ [word (Function.update r.2.1 (r.2.2.1 + 1) 0)], r.1)
  else (r.2.2.2, r.1)

/-- The loop of `main` from the `n`-th `read_line`, for at most `k` passes:
the `argv` of each `exec`, `argv` being `[cmd, a1, ..., ak]`. -/
def mainLoop (argv : List (List UInt8)) (frames : Nat → Nat → UInt8) :
    Nat → Nat → List UInt8 → List (List (List UInt8))
  | 0, _, _ => []
  | k + 1, n, inp =>
    let r := readLine (frames n) inp
    if r.1 = [] then [] else (argv ++ r.1) :: mainLoop argv frames k (n + 1) r.2

/-- `xargs` with `argv[1..]` equal to `argv`: the `argv` of each `exec`; none
after the usage message for a missing command. A call that finds a word
reads a byte, so `len(inp) + 1` passes end the loop. -/
def xargs (argv : List (List UInt8)) (frames : Nat → Nat → UInt8) (inp : List UInt8) :
    List (List (List UInt8)) :=
  if argv = [] then [] else mainLoop argv frames (inp.length + 1) 0 inp

/-! ## Words in `buf` -/

/-- A word of the input: non-empty, with no NUL, space or newline. -/
def IsWord (w : List UInt8) : Prop := w ≠ [] ∧ ∀ b ∈ w, b ≠ 0 ∧ b ≠ 32 ∧ b ≠ 10

instance : DecidablePred IsWord := fun w =>
  inferInstanceAs (Decidable (w ≠ [] ∧ ∀ b ∈ w, b ≠ 0 ∧ b ≠ 32 ∧ b ≠ 10))

/-- `buf` with the bytes `w` stored from index `i`. -/
def put (buf : Nat → UInt8) (i : Nat) (w : List UInt8) : Nat → UInt8 :=
  fun a => if i ≤ a ∧ a < i + w.length then w.getD (a - i) 0 else buf a

/-- Bytes other than a space or a newline only go into `buf`. -/
theorem readLoop_bytes {w : List UInt8} (hw : ∀ b ∈ w, b ≠ 32 ∧ b ≠ 10) (inp : List UInt8) :
    ∀ (buf : Nat → UInt8) (i : Nat) (ws : List (List UInt8)),
      readLoop (w ++ inp) buf i ws = readLoop inp (put buf i w) (i + w.length) ws := by
  induction w with
  | nil =>
    intro buf i ws
    have : put buf i [] = buf := by funext a; simp [put]
    simp [this]
  | cons c w ih =>
    intro buf i ws
    have hc := hw c (by simp)
    rw [List.cons_append, readLoop, if_neg hc.1, if_neg hc.2,
      ih (fun b hb => hw b (by simp [hb]))]
    have hput : put (Function.update buf i c) (i + 1) w = put buf i (c :: w) := by
      funext a
      by_cases ha : a = i
      · subst ha; simp [put]
      · by_cases hin : i + 1 ≤ a ∧ a < i + 1 + w.length
        · have hin' : i ≤ a ∧ a < i + (c :: w).length := by simp; omega
          rw [put, put, if_pos hin, if_pos hin', show a - i = (a - (i + 1)) + 1 by omega]
          rfl
        · have hout : ¬(i ≤ a ∧ a < i + (c :: w).length) := by simp; omega
          rw [put, put, if_neg hin, if_neg hout, Function.update_of_ne ha]
    rw [hput]
    simp only [List.length_cons]
    congr 1
    omega

theorem word_eq {w : List UInt8} {buf : Nat → UInt8} (hw : ∀ b ∈ w, b ≠ 0)
    (hbuf : ∀ a, (ha : a < w.length) → buf a = w[a]) (hz : buf w.length = 0)
    (h512 : w.length < 512) : word buf = w :=
  Printf.strFrom_cstring (fun i hi => ⟨by simpa using hbuf i hi, hw _ (List.getElem_mem hi)⟩)
    (by simpa using hz) h512

theorem readLoop_word {w inp : List UInt8} (hw : IsWord w) (h512 : w.length < 512)
    (buf : Nat → UInt8) (ws : List (List UInt8)) :
    readLoop (w ++ 32 :: inp) buf 0 ws =
        readLoop inp (Function.update (put buf 0 w) w.length 0) 0 (ws ++ [w]) ∧
      readLoop (w ++ 10 :: inp) buf 0 ws =
        (inp, Function.update (put buf 0 w) w.length 0, 0, ws ++ [w]) := by
  have hsep : ∀ b ∈ w, b ≠ 32 ∧ b ≠ 10 := fun b hb => ⟨(hw.2 b hb).2.1, (hw.2 b hb).2.2⟩
  have hword : word (Function.update (put buf 0 w) w.length 0) = w :=
    word_eq (fun b hb => (hw.2 b hb).1)
      (fun a ha => by simp [put, ha, Function.update_of_ne (Nat.ne_of_lt ha)]) (by simp) h512
  constructor
  · rw [readLoop_bytes hsep, readLoop, if_pos rfl, Function.update_idem]
    simp only [Nat.zero_add, hword]
  · rw [readLoop_bytes hsep, readLoop, if_neg (by decide), if_pos rfl, Function.update_idem]
    simp only [Nat.zero_add, hword]

/-! ## Lines ended by a newline -/

/-- The input of `lines`: the words of each line joined by single spaces,
and each line ended by a newline. -/
def render (lines : List (List (List UInt8))) : List UInt8 :=
  (lines.map fun l => [32].intercalate l ++ [10]).flatten

/-- A line `xargs` can take: words, none of 512 bytes or more. -/
def LineOk (l : List (List UInt8)) : Prop := l ≠ [] ∧ ∀ w ∈ l, IsWord w ∧ w.length < 512

theorem readLoop_line {l : List (List UInt8)} (hl : LineOk l) (inp : List UInt8) :
    ∀ (buf : Nat → UInt8) (ws : List (List UInt8)),
      ∃ buf', readLoop ([32].intercalate l ++ 10 :: inp) buf 0 ws = (inp, buf', 0, ws ++ l) := by
  obtain ⟨hne, hw⟩ := hl
  induction l with
  | nil => exact absurd rfl hne
  | cons w l ih =>
    intro buf ws
    have hw₀ := hw w (by simp)
    cases l with
    | nil =>
      exact ⟨_, by simpa using (readLoop_word hw₀.1 hw₀.2 buf ws).2⟩
    | cons w' l =>
      rw [List.intercalate_cons_cons, List.append_assoc, List.append_assoc, List.singleton_append,
        (readLoop_word hw₀.1 hw₀.2 buf ws).1]
      obtain ⟨buf', h⟩ := ih (by simp) (fun v hv => hw v (by simp [hv])) _ (ws ++ [w])
      exact ⟨buf', by rw [h]; simp⟩

theorem readLine_nil (stack : Nat → UInt8) : readLine stack [] = ([], []) := rfl

theorem readLine_line {l : List (List UInt8)} (hl : LineOk l) (stack : Nat → UInt8) (inp : List UInt8) :
    readLine stack ([32].intercalate l ++ 10 :: inp) = (l, inp) := by
  obtain ⟨buf', h⟩ := readLoop_line hl inp stack []
  simp [readLine, h]

theorem mainLoop_lines (argv : List (List UInt8)) (frames : Nat → Nat → UInt8) :
    ∀ (lines : List (List (List UInt8))) (k n : Nat), (∀ l ∈ lines, LineOk l) → lines.length < k →
      mainLoop argv frames k n (render lines) = lines.map (argv ++ ·) := by
  intro lines
  induction lines with
  | nil =>
    intro k n _ hk
    obtain ⟨k, rfl⟩ : ∃ j, k = j + 1 := ⟨k - 1, by simp at hk; omega⟩
    simp [render, mainLoop, readLine_nil]
  | cons l lines ih =>
    intro k n hl hk
    obtain ⟨k, rfl⟩ : ∃ j, k = j + 1 := ⟨k - 1, by simp at hk; omega⟩
    have hl₀ := hl l (by simp)
    have hrender : render (l :: lines) = [32].intercalate l ++ 10 :: render lines := by
      simp [render]
    rw [hrender, mainLoop, readLine_line hl₀, if_neg hl₀.1,
      ih k (n + 1) (fun l' hl' => hl l' (by simp [hl'])) (by simp at hk; omega)]
    simp

theorem length_le_render (lines : List (List (List UInt8))) : lines.length ≤ (render lines).length := by
  induction lines with
  | nil => simp
  | cons l lines ih => simp [render] at ih ⊢; omega

theorem xargs_lines {argv : List (List UInt8)} (hargv : argv ≠ []) (frames : Nat → Nat → UInt8)
    {lines : List (List (List UInt8))} (hl : ∀ l ∈ lines, LineOk l) :
    xargs argv frames (render lines) = lines.map (argv ++ ·) := by
  rw [xargs, if_neg hargv]
  exact mainLoop_lines argv frames lines _ 0 hl (by have := length_le_render lines; omega)

/-! ## A last line without a newline -/

/-- Two words on a last line with no newline, the second shorter: the byte
of the first word at the second's end joins the second. -/
theorem xargs_stale_byte {argv : List (List UInt8)} (hargv : argv ≠ []) (frames : Nat → Nat → UInt8)
    {w₁ w₂ : List UInt8} (h₁ : IsWord w₁) (h₂ : IsWord w₂) (hlt : w₂.length < w₁.length)
    (h512 : w₁.length < 512) :
    xargs argv frames (w₁ ++ 32 :: w₂) = [argv ++ [w₁, w₂ ++ [w₁.getD w₂.length 0]]] ∧
      xargs argv frames (w₁ ++ 32 :: w₂) ≠ [argv ++ [w₁, w₂]] := by
  -- `buf` after the first word, and after the second one
  set B := Function.update (put (frames 0) 0 w₁) w₁.length 0 with hB
  have hsep : ∀ b ∈ w₂, b ≠ 32 ∧ b ≠ 10 := fun b hb => ⟨(h₂.2 b hb).2.1, (h₂.2 b hb).2.2⟩
  have hloop : readLoop (w₁ ++ 32 :: w₂) (frames 0) 0 [] = ([], put B 0 w₂, w₂.length, [w₁]) := by
    rw [(readLoop_word h₁ h512 (frames 0) []).1, ← hB, ← List.append_nil w₂, readLoop_bytes hsep]
    simp [readLoop]
  have hlen : w₂.length ≠ 0 := fun h => h₂.1 (List.eq_nil_of_length_eq_zero h)
  have hc : w₁.getD w₂.length 0 ≠ 0 := by
    rw [List.getD_eq_getElem _ _ hlt]
    exact (h₁.2 _ (List.getElem_mem hlt)).1
  have hword : word (Function.update (put B 0 w₂) (w₂.length + 1) 0) = w₂ ++ [w₁.getD w₂.length 0] := by
    refine word_eq (fun b hb => ?_) (fun a ha => ?_) (by simp) (by simp; omega)
    · rcases List.mem_append.mp hb with hb | hb
      · exact (h₂.2 b hb).1
      · simp at hb; rw [hb]; exact hc
    · simp only [List.length_append, List.length_singleton] at ha
      rw [Function.update_of_ne (by omega)]
      by_cases ha' : a < w₂.length
      · simp [put, ha', List.getElem_append_left ha']
      · have : a = w₂.length := by omega
        subst this
        simp [put, hB, Function.update_of_ne (Nat.ne_of_lt hlt), hlt]
  have hline : readLine (frames 0) (w₁ ++ 32 :: w₂) = ([w₁, w₂ ++ [w₁.getD w₂.length 0]], []) := by
    simp only [readLine, hloop, ne_eq, hlen, not_false_eq_true, if_true, hword]
    rfl
  have hrun : xargs argv frames (w₁ ++ 32 :: w₂) = [argv ++ [w₁, w₂ ++ [w₁.getD w₂.length 0]]] := by
    obtain ⟨k, hk⟩ : ∃ k, (w₁ ++ 32 :: w₂).length = k + 1 := ⟨w₁.length + w₂.length, by simp; omega⟩
    rw [xargs, if_neg hargv, hk, mainLoop, hline, if_neg (by simp), mainLoop, readLine_nil, if_pos rfl]
  refine ⟨hrun, fun h => ?_⟩
  rw [hrun] at h
  have h' := List.append_cancel_left (List.head_eq_of_cons_eq h)
  simp at h'

theorem xargs_abc_de :
    [[101, 99, 104, 111]] ≠ [] ∧ IsWord [97, 98, 99] ∧ IsWord [100, 101] ∧
      [100, 101].length < [97, 98, 99].length ∧ [97, 98, 99].length < 512 ∧
      (xargs [[101, 99, 104, 111]] (fun _ _ => 0) ([97, 98, 99] ++ 32 :: [100, 101]) =
          [[[101, 99, 104, 111]] ++ [[97, 98, 99], [100, 101] ++ [[97, 98, 99].getD [100, 101].length 0]]] ∧
        xargs [[101, 99, 104, 111]] (fun _ _ => 0) ([97, 98, 99] ++ 32 :: [100, 101]) ≠
          [[[101, 99, 104, 111]] ++ [[97, 98, 99], [100, 101]]]) :=
  ⟨by decide, by simp [IsWord], by simp [IsWord], by decide, by decide,
    xargs_stale_byte (by decide) _ (by simp [IsWord]) (by simp [IsWord]) (by decide) (by decide)⟩

end Xv6.Xargs
