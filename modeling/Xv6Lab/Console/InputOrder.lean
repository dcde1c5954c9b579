import Xv6Lab.Console.Input
import Xv6Lab.Kernel.Strings

/-!
# The order of the console's counters

`Ordered`: `r ≤ w ≤ e ≤ max ≤ INPUT_BUF`.  The counters are never reduced, and a byte is typed
only while `max < INPUT_BUF`, so while they stay ordered they stay inside one buffer's worth,
and every `memmove` of `consoleintr` stays inside `input.buf`.

* `moveBytes_eq_memmove` — inside the buffer, the console's shifts move the bytes that
  `string.c`'s `memmove` moves, overlapping as they do;
* `consoleintrByte_ordered` — every byte keeps the counters ordered and runs without overrun,
  except `C('U')` with the cursor left of the end of the line; no byte but `LEFT` moves the
  cursor off the end;
* `readLoop_input` — `consoleread` moves `r` only, and not past `w`;
* `overrun_needs_left` — after any run in which no `LEFT` arrives, `consoleintr` is defined on
  every byte;
* `left_then_kill_overruns` — `'a'`, `'b'`, `LEFT`, `C('U')`: the kill loop takes `max` from
  2 down to `w = 0`, and `e` with it from 1 past `w` to `2^32 - 1`; the next typed byte's
  `memmove` reads `input.buf + 0xffffffff`, the byte before the buffer.
-/

namespace Xv6Lab

open Function

theorem input_buf_lt_uint : INPUT_BUF < UINT := by decide

theorem slot_val {i : ℕ} (h : i < INPUT_BUF) : (slot i).val = i := Nat.mod_eq_of_lt h

theorem slot_eq {x : ℕ} (h : x < INPUT_BUF) : slot x = ⟨x, h⟩ := Fin.ext (slot_val h)

theorem moveBytes_zero (buf : Fin INPUT_BUF → UInt8) (dst src : ℕ) :
    moveBytes buf dst src 0 = buf := by
  funext i
  simp only [moveBytes, Nat.add_zero]
  rw [if_neg (by omega)]

/-- `memmove` inside the buffer moves the bytes. -/
theorem memmove_ok (buf : Fin INPUT_BUF → UInt8) {dst src n : ℕ} (hs : src + n ≤ INPUT_BUF)
    (hd : dst + n ≤ INPUT_BUF) : memmove buf dst src n = .ok (moveBytes buf dst src n) := by
  unfold memmove
  by_cases hn : n = 0
  · subst hn
    rw [if_pos rfl, moveBytes_zero]
  · rw [if_neg hn, if_neg (by omega), if_neg (by omega)]

/-- `input.buf` as memory at the offsets `[0, INPUT_BUF)`. -/
def bufMem (buf : Fin INPUT_BUF → UInt8) : ℕ → UInt8 :=
  fun a => if h : a < INPUT_BUF then buf ⟨a, h⟩ else 0

/-- The bytes `moveBytes` moves inside the buffer are the bytes `string.c`'s `memmove` moves, for
every overlap of the two ranges. -/
theorem moveBytes_eq_memmove (buf : Fin INPUT_BUF → UInt8) {dst src n : ℕ}
    (hs : src + n ≤ INPUT_BUF) (i : Fin INPUT_BUF) :
    moveBytes buf dst src n i = Strings.memmove (bufMem buf) dst src n i.val := by
  rw [Strings.memmove_eq]
  unfold moveBytes Copy.copyThrough bufMem
  by_cases hin : dst ≤ i.val ∧ i.val < dst + n
  · have hsrc : src + (i.val - dst) < INPUT_BUF := by omega
    rw [if_pos hin, if_pos hin, dif_pos hsrc, slot_eq hsrc]
  · rw [if_neg hin, if_neg hin, dif_pos i.isLt]

/-- The counters in order, inside one buffer's worth. -/
structure Ordered (inp : Input) : Prop where
  r_le_w : inp.r ≤ inp.w
  w_le_e : inp.w ≤ inp.e
  e_le_max : inp.e ≤ inp.max
  max_le : inp.max ≤ INPUT_BUF

theorem ordered_init : Ordered inputInit := ⟨le_rfl, le_rfl, le_rfl, Nat.zero_le _⟩

namespace Ordered

variable {inp : Input}

theorem max_lt_uint (h : Ordered inp) : inp.max < UINT :=
  lt_of_le_of_lt h.max_le input_buf_lt_uint

theorem e_lt_uint (h : Ordered inp) : inp.e < UINT := lt_of_le_of_lt h.e_le_max h.max_lt_uint

end Ordered

/-- A line committed by a newline or `C('D')`: `w` and `e` catch up with `max`. -/
theorem commit_of_eq {inp : Input} {c : UInt8} (hc : c = '\n'.toUInt8 ∨ c = C 'D') :
    commit inp c = { inp with w := inp.max, e := inp.max } := by
  unfold commit
  rw [if_pos (hc.elim Or.inl fun h => Or.inr (Or.inl h))]

/-- Any other byte leaves the line open while the buffer has room. -/
theorem commit_of_ne {inp : Input} (h : Ordered inp) (hm : inp.max < INPUT_BUF) {c : UInt8}
    (hc : ¬(c = '\n'.toUInt8 ∨ c = C 'D')) : commit inp c = inp := by
  have hr : inp.r ≤ inp.max := h.r_le_w.trans (h.w_le_e.trans h.e_le_max)
  have hfull : inp.max ≠ wrap (inp.r + INPUT_BUF) := by
    have hU : INPUT_BUF + INPUT_BUF < UINT := by decide
    rw [wrap_of_lt (by omega)]
    omega
  unfold commit
  apply if_neg
  intro hcond
  rcases hcond with hnl | hD | hmax
  · exact hc (Or.inl hnl)
  · exact hc (Or.inr hD)
  · exact hfull hmax

theorem commit_ordered {inp : Input} (h : Ordered inp) (c : UInt8) : Ordered (commit inp c) := by
  unfold commit
  split
  · exact ⟨h.r_le_w.trans (h.w_le_e.trans h.e_le_max), le_rfl, le_rfl, h.max_le⟩
  · exact h

theorem commit_atEnd {inp : Input} (h : inp.e = inp.max) (c : UInt8) :
    (commit inp c).e = (commit inp c).max := by
  unfold commit
  split
  · rfl
  · exact h

/-! ### Each case of `consoleintr` in plain arithmetic

Under `Ordered`, no `uint` counter wraps and every `memmove` stays inside the buffer. -/

section Cases

variable {inp : Input}

/-- A newline (or `'\r'`) is stored at the end of the line and commits it. -/
theorem typeByte_newline_eq (hm : inp.max < INPUT_BUF) {c : UInt8}
    (hc : c = '\n'.toUInt8 ∨ c = '\r'.toUInt8) :
    typeByte inp c = .ok { inp with
      buf := update inp.buf (slot inp.max) '\n'.toUInt8,
      w := inp.max + 1, e := inp.max + 1, max := inp.max + 1 } := by
  have hc0 : c ≠ 0 := by rcases hc with rfl | rfl <;> decide
  have hcr : (if c = '\r'.toUInt8 then '\n'.toUInt8 else c) = '\n'.toUInt8 := by
    rcases hc with rfl | rfl <;> decide
  have hwm1 : wrap (inp.max + 1) = inp.max + 1 := wrap_of_lt (by have := input_buf_lt_uint; omega)
  unfold typeByte
  rw [if_pos ⟨hc0, hm⟩]
  dsimp only
  rw [hcr, if_neg (not_not.mpr rfl), hwm1, commit_of_eq (Or.inl rfl)]

/-- Any other byte is inserted at the cursor: `[e, max)` moves up by one. -/
theorem typeByte_insert_eq (h : Ordered inp) (hm : inp.max < INPUT_BUF) {c : UInt8} (hc0 : c ≠ 0)
    (hc : ¬(c = '\n'.toUInt8 ∨ c = '\r'.toUInt8)) :
    typeByte inp c = .ok (commit { inp with
      buf := update (moveBytes inp.buf (inp.e + 1) inp.e (inp.max - inp.e)) (slot inp.e) c,
      e := inp.e + 1, max := inp.max + 1 } c) := by
  have he := h.e_le_max
  have hcr : (if c = '\r'.toUInt8 then '\n'.toUInt8 else c) = c := if_neg fun h => hc (Or.inr h)
  have hwe1 : wrap (inp.e + 1) = inp.e + 1 := wrap_of_lt (by have := input_buf_lt_uint; omega)
  have hwm1 : wrap (inp.max + 1) = inp.max + 1 := wrap_of_lt (by have := input_buf_lt_uint; omega)
  unfold typeByte
  rw [if_pos ⟨hc0, hm⟩]
  dsimp only
  rw [hcr, if_pos fun h => hc (Or.inl h), hwe1, hwm1, usub_of_le he h.max_lt_uint,
    memmove_ok _ (by omega) (by omega)]
  rfl

theorem typeByte_ignored {c : UInt8} (h : ¬(c ≠ 0 ∧ inp.max < INPUT_BUF)) :
    typeByte inp c = .ok inp := by
  unfold typeByte
  rw [if_neg h]

/-- Backspace with the cursor past `w`: `[e, max)` moves down by one. -/
theorem backspace_eq (h : Ordered inp) (hwe : inp.w < inp.e) :
    backspace inp = .ok { inp with
      buf := moveBytes inp.buf (inp.e - 1) inp.e (inp.max - inp.e),
      e := inp.e - 1, max := inp.max - 1 } := by
  have he := h.e_le_max
  have hm1 : usub inp.max 1 = inp.max - 1 := usub_of_le (by omega) h.max_lt_uint
  have he1 : usub inp.e 1 = inp.e - 1 := usub_of_le (by omega) h.e_lt_uint
  have hsucc : wrap (inp.e - 1 + 1) = inp.e := by
    rw [Nat.sub_add_cancel (by omega)]
    exact wrap_of_lt h.e_lt_uint
  have hn : usub (inp.max - 1) (inp.e - 1) = inp.max - inp.e := by
    rw [usub_of_le (by omega) (by have := h.max_lt_uint; omega)]
    omega
  unfold backspace
  rw [if_pos (Nat.ne_of_gt hwe)]
  dsimp only
  rw [hm1, he1, hsucc, hn, memmove_ok _ (by have := h.max_le; omega)
    (by have := h.max_le; omega)]
  rfl

theorem backspace_at_w (hwe : inp.e = inp.w) : backspace inp = .ok inp := by
  unfold backspace
  rw [if_neg (not_not.mpr hwe)]

theorem cursorLeft_eq (h : Ordered inp) (hwe : inp.w < inp.e) :
    cursorLeft inp = { inp with e := inp.e - 1 } := by
  unfold cursorLeft
  rw [if_pos (Nat.ne_of_gt hwe), usub_of_le (by omega) h.e_lt_uint]

theorem cursorLeft_at_w (hwe : inp.e = inp.w) : cursorLeft inp = inp := by
  unfold cursorLeft
  rw [if_neg (not_not.mpr hwe)]

theorem cursorRight_eq (h : Ordered inp) (hlt : inp.e < inp.max) :
    cursorRight inp = { inp with e := inp.e + 1 } := by
  unfold cursorRight
  rw [if_pos hlt, wrap_of_lt (by have := h.max_lt_uint; omega)]

theorem cursorRight_at_max (hlt : ¬inp.e < inp.max) : cursorRight inp = inp := by
  unfold cursorRight
  rw [if_neg hlt]

end Cases

/-- **The default case**: a typed byte keeps the counters ordered, and a cursor at the end of
the line stays there. -/
theorem typeByte_ordered {inp : Input} (h : Ordered inp) (c : UInt8) :
    ∃ inp', typeByte inp c = .ok inp' ∧ Ordered inp' ∧ (inp.e = inp.max → inp'.e = inp'.max) := by
  by_cases hc : c ≠ 0 ∧ inp.max < INPUT_BUF
  · have hm : inp.max < INPUT_BUF := hc.2
    have he := h.e_le_max
    by_cases hnl : c = '\n'.toUInt8 ∨ c = '\r'.toUInt8
    · -- a newline goes to the end of the line and commits it
      rw [typeByte_newline_eq hm hnl]
      refine ⟨_, rfl, ⟨?_, le_rfl, le_rfl, hm⟩, fun _ => rfl⟩
      exact Nat.le_succ_of_le (h.r_le_w.trans (h.w_le_e.trans he))
    · -- inserted at the cursor: `[e, max)` moves up by one
      rw [typeByte_insert_eq h hm hc.1 hnl]
      refine ⟨_, rfl, ?_, fun heq => ?_⟩
      · apply commit_ordered
        exact ⟨h.r_le_w, Nat.le_succ_of_le h.w_le_e, Nat.succ_le_succ he, hm⟩
      · apply commit_atEnd
        show inp.e + 1 = inp.max + 1
        rw [heq]
  · exact ⟨inp, typeByte_ignored hc, h, id⟩

/-- Backspace: `e` and `max` move down together, and `[e + 1, max)` down by one. -/
theorem backspace_ordered {inp : Input} (h : Ordered inp) :
    ∃ inp', backspace inp = .ok inp' ∧ Ordered inp' ∧ (inp.e = inp.max → inp'.e = inp'.max) := by
  by_cases hwe : inp.w < inp.e
  · have he := h.e_le_max
    have hm := h.max_le
    rw [backspace_eq h hwe]
    refine ⟨_, rfl, ⟨h.r_le_w, ?_, ?_, ?_⟩, fun heq => ?_⟩
    · show inp.w ≤ inp.e - 1
      omega
    · show inp.e - 1 ≤ inp.max - 1
      omega
    · show inp.max - 1 ≤ INPUT_BUF
      omega
    · show inp.e - 1 = inp.max - 1
      rw [heq]
  · exact ⟨inp, backspace_at_w (by have := h.w_le_e; omega), h, id⟩

/-- The line one byte shorter, with the cursor at its end. -/
theorem Ordered.shorten {inp : Input} (h : Ordered inp) (hw : inp.w < inp.max) :
    Ordered { inp with max := inp.max - 1, e := inp.max - 1 } :=
  ⟨h.r_le_w, show inp.w ≤ inp.max - 1 by omega, le_rfl,
    show inp.max - 1 ≤ INPUT_BUF by have := h.max_le; omega⟩

/-- One round of the kill loop from the end of the line: while `max` is past `w` and the byte
before it is not a newline, `max` and `e` move down together. -/
theorem killLoop_succ_atEnd (n : ℕ) {inp : Input} (h : Ordered inp) (he : inp.e = inp.max)
    (hw : inp.w < inp.max) (hlast : inp.buf (slot (inp.max - 1)) ≠ '\n'.toUInt8) :
    killLoop (n + 1) inp = killLoop n { inp with max := inp.max - 1, e := inp.max - 1 } := by
  have hm1 : usub inp.max 1 = inp.max - 1 := usub_of_le (by omega) h.max_lt_uint
  rw [killLoop, if_pos ⟨Nat.ne_of_gt hw, by rw [hm1]; exact hlast⟩, he, hm1]

/-- The kill loop stops at `w` or after a newline. -/
theorem killLoop_stop (n : ℕ) {inp : Input} (h : Ordered inp)
    (hk : ¬(inp.w < inp.max ∧ inp.buf (slot (inp.max - 1)) ≠ '\n'.toUInt8)) :
    killLoop (n + 1) inp = inp := by
  rw [killLoop, if_neg]
  intro ⟨hne, hlast⟩
  have hw : inp.w < inp.max := lt_of_le_of_ne (h.w_le_e.trans h.e_le_max) (Ne.symm hne)
  rw [usub_of_le (by omega) h.max_lt_uint] at hlast
  exact hk ⟨hw, hlast⟩

/-- The kill loop from a cursor at the end of the line: `e` and `max` move down together and
stop at `w` at the latest. -/
theorem killLoop_ordered (n : ℕ) {inp : Input} (h : Ordered inp) (he : inp.e = inp.max) :
    Ordered (killLoop n inp) ∧ (killLoop n inp).e = (killLoop n inp).max := by
  induction n generalizing inp with
  | zero => exact ⟨h, he⟩
  | succ n ih =>
    by_cases hk : inp.w < inp.max ∧ inp.buf (slot (inp.max - 1)) ≠ '\n'.toUInt8
    · rw [killLoop_succ_atEnd n h he hk.1 hk.2]
      exact ih (h.shorten hk.1) rfl
    · rw [killLoop_stop n h hk]
      exact ⟨h, he⟩

/-- `LEFT` keeps the cursor in `[w, max]`. -/
theorem cursorLeft_ordered {inp : Input} (h : Ordered inp) : Ordered (cursorLeft inp) := by
  by_cases hwe : inp.w < inp.e
  · rw [cursorLeft_eq h hwe]
    have := h.e_le_max
    exact ⟨h.r_le_w, show inp.w ≤ inp.e - 1 by omega, show inp.e - 1 ≤ inp.max by omega, h.max_le⟩
  · rw [cursorLeft_at_w (by have := h.w_le_e; omega)]
    exact h

/-- `RIGHT` keeps the cursor in `[w, max]`, and does nothing at the end of the line. -/
theorem cursorRight_ordered {inp : Input} (h : Ordered inp) :
    Ordered (cursorRight inp) ∧ (inp.e = inp.max → (cursorRight inp).e = (cursorRight inp).max) := by
  by_cases hlt : inp.e < inp.max
  · rw [cursorRight_eq h hlt]
    refine ⟨⟨h.r_le_w, ?_, hlt, h.max_le⟩, fun heq => absurd heq (by omega)⟩
    show inp.w ≤ inp.e + 1
    exact Nat.le_succ_of_le h.w_le_e
  · rw [cursorRight_at_max hlt]
    exact ⟨h, id⟩

/-- **One byte of `consoleintr`**: every byte keeps the counters ordered without an overrun, as
long as `C('U')` comes with the cursor at the end of the line; and only `LEFT` moves the cursor
off the end. -/
theorem consoleintrByte_ordered {inp : Input} (h : Ordered inp) {c : UInt8}
    (hc : c = C 'U' → inp.e = inp.max) :
    ∃ inp', consoleintrByte inp c = .ok inp' ∧ Ordered inp' ∧
      (c ≠ LEFT → inp.e = inp.max → inp'.e = inp'.max) := by
  unfold consoleintrByte
  split_ifs with hP hU hH hUD hL hR
  · exact ⟨inp, rfl, h, fun _ => id⟩
  · obtain ⟨ho, he⟩ := killLoop_ordered (usub inp.max inp.w) h (hc hU)
    exact ⟨_, rfl, ho, fun _ _ => he⟩
  · obtain ⟨inp', hb, ho, he⟩ := backspace_ordered h
    exact ⟨inp', hb, ho, fun _ => he⟩
  · exact ⟨inp, rfl, h, fun _ => id⟩
  · exact ⟨_, rfl, cursorLeft_ordered h, fun hne => absurd hL hne⟩
  · obtain ⟨ho, he⟩ := cursorRight_ordered h
    exact ⟨_, rfl, ho, fun _ => he⟩
  · obtain ⟨inp', ht, ho, he⟩ := typeByte_ordered h c
    exact ⟨inp', ht, ho, fun _ => he⟩

/-- **`consoleread`'s loop** moves `r` only, and not past `w`. -/
theorem readLoop_input (target n : ℕ) {inp : Input} (h : Ordered inp) :
    ∃ r, (readLoop target n inp).1 = { inp with r := r } ∧ inp.r ≤ r ∧ r ≤ inp.w := by
  induction n generalizing inp with
  | zero => exact ⟨inp.r, rfl, le_rfl, h.r_le_w⟩
  | succ n ih =>
    unfold readLoop
    split
    · exact ⟨inp.r, rfl, le_rfl, h.r_le_w⟩
    · rename_i hne
      have hrw : inp.r < inp.w := lt_of_le_of_ne h.r_le_w hne
      have hr1 : wrap (inp.r + 1) = inp.r + 1 :=
        wrap_of_lt (by have := h.max_lt_uint; have := h.w_le_e; have := h.e_le_max; omega)
      dsimp only
      split
      · -- `C('D')`: `r` steps over it, or back onto it
        split
        · refine ⟨inp.r, ?_, le_rfl, h.r_le_w⟩
          show { inp with r := usub (wrap (inp.r + 1)) 1 } = _
          rw [hr1, usub_of_le (by omega) (by rw [← hr1]; exact wrap_lt _)]
          rfl
        · exact ⟨wrap (inp.r + 1), rfl, by omega, by omega⟩
      · split
        · exact ⟨wrap (inp.r + 1), rfl, by omega, by omega⟩
        · have h1 : Ordered { inp with r := wrap (inp.r + 1) } :=
            ⟨by show wrap (inp.r + 1) ≤ inp.w; omega, h.w_le_e, h.e_le_max, h.max_le⟩
          obtain ⟨r, hr, hle, hrw'⟩ := ih h1
          exact ⟨r, hr, by simp only at hle; omega, hrw'⟩

/-- The cursor at the end of an ordered line. -/
def Console.AtEnd (s : Console) : Prop := Ordered s.input ∧ s.input.e = s.input.max

theorem Console.atEnd_read {s : Console} (h : s.AtEnd) (target n : ℕ) :
    (s.read target n).AtEnd := by
  obtain ⟨r, hr, -, hrw⟩ := readLoop_input target n h.1
  show Ordered (readLoop target n s.input).1 ∧
    (readLoop target n s.input).1.e = (readLoop target n s.input).1.max
  rw [hr]
  exact ⟨⟨hrw, h.1.w_le_e, h.1.e_le_max, h.1.max_le⟩, h.2⟩

/-- **Step lemma**: every step but `LEFT` keeps the cursor at the end of an ordered line. -/
theorem Console.atEnd_step {s t : Console} {op : ConsOp} (h : s.AtEnd) (hop : op ≠ .intr LEFT)
    (hst : s.step op = some t) : t.AtEnd := by
  cases op with
  | intr c =>
    obtain ⟨inp', hok, ho, he⟩ := consoleintrByte_ordered h.1 (c := c) fun _ => h.2
    simp only [step, hok, Except.toOption, Option.map_some, Option.some.injEq] at hst
    subst hst
    exact ⟨ho, he (fun hc => hop (hc ▸ rfl)) h.2⟩
  | read n =>
    simp only [step, Option.ite_none_right_eq_some, Option.some.injEq] at hst
    obtain ⟨-, rfl⟩ := hst
    exact atEnd_read h n n
  | wake =>
    simp only [step] at hst
    split at hst
    · simp only [Option.ite_none_right_eq_some, Option.some.injEq] at hst
      obtain ⟨-, rfl⟩ := hst
      exact atEnd_read h _ _
    · cases hst

/-- **No overrun without `LEFT`**: after any run in which no `LEFT` arrives, `consoleintr` is
defined on every byte. -/
theorem overrun_needs_left {ls : List ConsOp} (hls : ∀ op ∈ ls, op ≠ .intr LEFT) {s : Console}
    (hrun : Console.exec ls = some s) (c : UInt8) : ∃ inp, consoleintrByte s.input c = .ok inp := by
  have hs : s.AtEnd :=
    Run.exec_invariant_of_forall (fun op => op ≠ .intr LEFT) Console.AtEnd
      (fun _ _ _ hop hu hst => Console.atEnd_step hu hop hst) ls Console.init s hls
      ⟨ordered_init, rfl⟩ hrun
  obtain ⟨inp, hok, -⟩ := consoleintrByte_ordered hs.1 (c := c) fun _ => hs.2
  exact ⟨inp, hok⟩

/-- `'a'`, `'b'`, `LEFT`, `C('U')` leave `e = 2^32 - 1` beyond `max = w = 0`; the next typed
byte's `memmove` reads from offset `0xffffffff`, outside `input.buf`. -/
theorem left_then_kill_overruns :
    (consoleintr inputInit ['a'.toUInt8, 'b'.toUInt8, LEFT, C 'U']).toOption.map
        (fun i => (i.w, i.e, i.max)) = some (0, UINT - 1, 0) ∧
      consoleintr inputInit ['a'.toUInt8, 'b'.toUInt8, LEFT, C 'U', 'x'.toUInt8] =
        .error (.outOfBounds "input.buf" (UINT - 1 : ℕ)) :=
  ⟨by decide, Run.errorOf_eq_some.mp (by decide)⟩

end Xv6Lab
