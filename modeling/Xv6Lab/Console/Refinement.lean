import Xv6Lab.Console.InputOrder
import Xv6Lab.Console.Editor

/-!
# The console refines the line editor, below one buffer's worth

`bytesOf buf i j` reads the buffer at the counters `[i, j)`.  The console's input stands for
the editor (`Represents`) when its counters are ordered, `Q` is the bytes at `[r, w)`, `L` the
bytes at `[w, max)` (which hold no newline) and the cursor is `e - w`.  The shifts that
`memmove` makes on the counters are then the editor's list operations:

* `bytesOf_insert` — the default case's shift and store insert the byte into `L` at the cursor;
* `bytesOf_erase` — backspace's shift deletes the byte before the cursor;
* `killLoop_eq` — the kill loop takes `max` and `e` back to `w` when the line has no newline;
* `Represents.intr` — so every byte, case by case, keeps the input standing for the editor;
* `readLoop_readQ` — `consoleread`'s loop returns what `readQ` returns from `Q`.

A console step is `Tame` when a byte arrives below 127 bytes in the buffer and `C('U')` with the
cursor at the end of the line.  `Console.sim_step` matches each tame step by the editor's step
with the same label, and `Run.exec_simulation` lifts it to runs: `console_refines_editor`, on
every run of tame steps the editor follows the console label for label and its reads return the
same bytes.  `console_stops_accepting` and `left_then_kill_overruns` show what happens past
either bound.
-/

namespace Xv6Lab

open Function

/-! ### The bytes of the buffer at a range of counters -/

/-- The bytes of `buf` at the counters `[i, j)`. -/
def bytesOf (buf : Fin INPUT_BUF → UInt8) (i j : ℕ) : List UInt8 :=
  (List.range' i (j - i)).map fun x => buf (slot x)

section Bytes

variable {buf buf' : Fin INPUT_BUF → UInt8} {i j : ℕ}

@[simp] theorem length_bytesOf : (bytesOf buf i j).length = j - i := by
  simp [bytesOf]

theorem getElem_bytesOf {t : ℕ} (h : t < (bytesOf buf i j).length) :
    (bytesOf buf i j)[t] = buf (slot (i + t)) := by
  simp [bytesOf]

@[simp] theorem bytesOf_self (buf : Fin INPUT_BUF → UInt8) (i : ℕ) : bytesOf buf i i = [] := by
  simp [bytesOf]

theorem bytesOf_eq_nil_iff (h : i ≤ j) : bytesOf buf i j = [] ↔ i = j := by
  rw [← List.length_eq_zero_iff, length_bytesOf]
  omega

theorem bytesOf_cons (h : i < j) : bytesOf buf i j = buf (slot i) :: bytesOf buf (i + 1) j := by
  unfold bytesOf
  rw [show j - i = j - (i + 1) + 1 by omega, List.range'_succ, List.map_cons]

theorem bytesOf_append {k : ℕ} (h1 : i ≤ j) (h2 : j ≤ k) :
    bytesOf buf i k = bytesOf buf i j ++ bytesOf buf j k := by
  unfold bytesOf
  rw [show k - i = (j - i) + (k - j) by omega, ← List.range'_append_1,
    show i + (j - i) = j by omega, List.map_append]

theorem bytesOf_snoc (h : i ≤ j) : bytesOf buf i (j + 1) = bytesOf buf i j ++ [buf (slot j)] := by
  rw [bytesOf_append h (Nat.le_succ j), bytesOf_cons (Nat.lt_succ_self j), bytesOf_self]

theorem mem_bytesOf {b : UInt8} : b ∈ bytesOf buf i j ↔ ∃ x, i ≤ x ∧ x < j ∧ buf (slot x) = b := by
  unfold bytesOf
  rw [List.mem_map]
  constructor
  · intro ⟨x, hx, hb⟩
    rw [List.mem_range'_1] at hx
    exact ⟨x, hx.1, by omega, hb⟩
  · intro ⟨x, h1, h2, hb⟩
    exact ⟨x, List.mem_range'_1.mpr ⟨h1, by omega⟩, hb⟩

/-- **Frame rule**: the bytes of a range depend only on the cells of that range. -/
theorem bytesOf_congr (h : ∀ x, i ≤ x → x < j → buf (slot x) = buf' (slot x)) :
    bytesOf buf i j = bytesOf buf' i j := by
  unfold bytesOf
  apply List.map_congr_left
  intro x hx
  rw [List.mem_range'_1] at hx
  exact h x hx.1 (by omega)

end Bytes

/-- A store at counter `e` read back at counter `x`, both inside the buffer. -/
theorem update_slot (f : Fin INPUT_BUF → UInt8) (c : UInt8) {e x : ℕ} (he : e < INPUT_BUF)
    (hx : x < INPUT_BUF) : update f (slot e) c (slot x) = if x = e then c else f (slot x) := by
  by_cases hxe : x = e
  · subst hxe
    rw [update_self, if_pos rfl]
  · rw [update_of_ne, if_neg hxe]
    rw [slot_eq he, slot_eq hx]
    exact fun heq => hxe (Fin.mk.inj heq)

theorem moveBytes_slot (buf : Fin INPUT_BUF → UInt8) (dst src n : ℕ) {x : ℕ} (hx : x < INPUT_BUF) :
    moveBytes buf dst src n (slot x) =
      if dst ≤ x ∧ x < dst + n then buf (slot (src + (x - dst))) else buf (slot x) := by
  simp only [moveBytes, slot_val hx]

/-- **Insertion**: the default case's `memmove` one up from the cursor and its store at the
cursor insert the byte into the line. -/
theorem bytesOf_insert (buf : Fin INPUT_BUF → UInt8) (c : UInt8) {w e max : ℕ} (hwe : w ≤ e)
    (hem : e ≤ max) (hm : max < INPUT_BUF) :
    bytesOf (update (moveBytes buf (e + 1) e (max - e)) (slot e) c) w (max + 1) =
      (bytesOf buf w max).insertIdx (e - w) c := by
  have hk : e - w ≤ (bytesOf buf w max).length := by rw [length_bytesOf]; omega
  apply List.ext_getElem
  · rw [List.length_insertIdx_of_le_length hk, length_bytesOf, length_bytesOf]
    omega
  · intro t h1 h2
    rw [length_bytesOf] at h1
    rw [getElem_bytesOf, update_slot _ _ (by omega) (by omega), List.getElem_insertIdx]
    -- the cell at `w + t` is before, at, or after the cursor
    by_cases hlt : t < e - w
    · rw [if_neg (by omega), dif_pos hlt, moveBytes_slot _ _ _ _ (by omega), if_neg (by omega),
        getElem_bytesOf]
    · by_cases heq : t = e - w
      · rw [if_pos (by omega), dif_neg hlt, dif_pos heq]
      · rw [if_neg (by omega), dif_neg hlt, dif_neg heq, moveBytes_slot _ _ _ _ (by omega),
          if_pos (by omega), getElem_bytesOf]
        congr 2
        omega

/-- **Deletion**: backspace's `memmove` one down onto the byte before the cursor deletes it. -/
theorem bytesOf_erase (buf : Fin INPUT_BUF → UInt8) {w e max : ℕ} (hwe : w < e) (hem : e ≤ max)
    (hm : max ≤ INPUT_BUF) :
    bytesOf (moveBytes buf (e - 1) e (max - e)) w (max - 1) =
      (bytesOf buf w max).eraseIdx (e - 1 - w) := by
  apply List.ext_getElem
  · simp only [List.length_eraseIdx, length_bytesOf]
    split <;> omega
  · intro t h1 h2
    rw [length_bytesOf] at h1
    rw [getElem_bytesOf, List.getElem_eraseIdx, moveBytes_slot _ _ _ _ (by omega)]
    -- the cell at `w + t` is before the deleted byte, or takes the byte after it
    by_cases hlt : t < e - 1 - w
    · rw [if_neg (by omega), dif_pos hlt, getElem_bytesOf]
    · rw [if_pos (by omega), dif_neg hlt, getElem_bytesOf]
      congr 2
      omega

/-- **The kill loop** on a line without a newline, from a cursor at its end: `max - w` rounds take
`max` and `e` back to `w`. -/
theorem killLoop_eq (n : ℕ) {inp : Input} (h : Ordered inp) (he : inp.e = inp.max)
    (hn : inp.max = inp.w + n)
    (hnl : ∀ x, inp.w ≤ x → x < inp.max → inp.buf (slot x) ≠ '\n'.toUInt8) :
    killLoop n inp = { inp with e := inp.w, max := inp.w } := by
  induction n generalizing inp with
  | zero =>
    show inp = _
    cases inp
    simp only [Input.mk.injEq, true_and] at he hn ⊢
    exact ⟨by omega, by omega⟩
  | succ n ih =>
    have hw : inp.w < inp.max := by omega
    -- one round takes the last byte off the line; the rest is the same loop one shorter
    rw [killLoop_succ_atEnd n h he hw (hnl _ (by omega) (by omega))]
    apply ih (h.shorten hw) rfl
    · show inp.max - 1 = inp.w + n
      omega
    · intro x hx1 hx2
      exact hnl x hx1 (by simp only at hx2; omega)

/-! ### The input stands for the editor -/

/-- The console's input stands for the editor: `Q` is the bytes at `[r, w)`, `L` the bytes at
`[w, max)`, which hold no newline, and the cursor is `e - w`. -/
structure Represents (inp : Input) (ed : Editor) : Prop where
  ordered : Ordered inp
  queue : ed.Q = bytesOf inp.buf inp.r inp.w
  line : ed.L = bytesOf inp.buf inp.w inp.max
  cursor : ed.k = inp.e - inp.w
  no_newline : '\n'.toUInt8 ∉ ed.L

theorem represents_init : Represents inputInit Editor.empty :=
  ⟨ordered_init, rfl, rfl, rfl, List.not_mem_nil⟩

/-- A committed line: `w`, `e` and `max` together, the queue the bytes at `[r, w)`. -/
theorem represents_ofQueue {inp : Input} (ho : Ordered inp) (hw : inp.w = inp.max)
    (he : inp.e = inp.max) {Q : List UInt8} (hQ : Q = bytesOf inp.buf inp.r inp.w) :
    Represents inp (Editor.ofQueue Q) where
  ordered := ho
  queue := hQ
  line := by
    show [] = _
    rw [hw, bytesOf_self]
  cursor := by
    show 0 = _
    omega
  no_newline := List.not_mem_nil

namespace Represents

variable {inp : Input} {ed : Editor}

/-- The queue does not see a store at or past `w`. -/
theorem queue_frame (h : Represents inp ed) {buf : Fin INPUT_BUF → UInt8}
    (hbuf : ∀ x, x < inp.w → buf (slot x) = inp.buf (slot x)) :
    ed.Q = bytesOf buf inp.r inp.w := by
  rw [h.queue]
  exact bytesOf_congr fun x _ hx => (hbuf x hx).symm

/-- **Commit**: `w` and `e` catch up with `max`, and the line joins the queue. -/
theorem commit_line (h : Represents inp ed) :
    Represents { inp with w := inp.max, e := inp.max } (Editor.ofQueue (ed.Q ++ ed.L)) := by
  have ho := h.ordered
  have hwm : inp.w ≤ inp.max := ho.w_le_e.trans ho.e_le_max
  have ho' : Ordered { inp with w := inp.max, e := inp.max } :=
    ⟨ho.r_le_w.trans hwm, le_rfl, le_rfl, ho.max_le⟩
  apply represents_ofQueue ho' rfl rfl
  show ed.Q ++ ed.L = bytesOf inp.buf inp.r inp.max
  rw [h.queue, h.line, ← bytesOf_append ho.r_le_w hwm]

/-- **A byte inserted** at the cursor, the rest of the line shifted up by one. -/
theorem insert_byte (h : Represents inp ed) (hm : inp.max < INPUT_BUF) {c : UInt8}
    (hc : c ≠ '\n'.toUInt8) :
    Represents { inp with
      buf := update (moveBytes inp.buf (inp.e + 1) inp.e (inp.max - inp.e)) (slot inp.e) c,
      e := inp.e + 1, max := inp.max + 1 } (ed.insert c) := by
  have ho := h.ordered
  have hwe := ho.w_le_e
  have hem := ho.e_le_max
  refine ⟨⟨ho.r_le_w, Nat.le_succ_of_le hwe, Nat.succ_le_succ hem, hm⟩, ?_, ?_, ?_, ?_⟩
  · -- the queue lies below the cursor, where nothing moves
    apply h.queue_frame
    intro x hx
    dsimp only
    rw [update_slot _ _ (by omega) (by omega), if_neg (by omega),
      moveBytes_slot _ _ _ _ (by omega), if_neg (by omega)]
  · show ed.L.insertIdx ed.k c = _
    rw [h.line, h.cursor]
    exact (bytesOf_insert inp.buf c hwe hem hm).symm
  · show ed.k + 1 = inp.e + 1 - inp.w
    rw [h.cursor]
    omega
  · show '\n'.toUInt8 ∉ ed.L.insertIdx ed.k c
    rw [List.mem_insertIdx ed.k_le]
    intro hmem
    rcases hmem with hnc | hnl
    · exact hc hnc.symm
    · exact h.no_newline hnl

/-- **A newline** stored at the end of the line, which it commits. -/
theorem newline (h : Represents inp ed) (hm : inp.max < INPUT_BUF) :
    Represents { inp with
        buf := update inp.buf (slot inp.max) '\n'.toUInt8,
        w := inp.max + 1, e := inp.max + 1, max := inp.max + 1 }
      (Editor.ofQueue (ed.Q ++ ed.L ++ ['\n'.toUInt8])) := by
  have ho := h.ordered
  have hwm : inp.w ≤ inp.max := ho.w_le_e.trans ho.e_le_max
  have hrm : inp.r ≤ inp.max := ho.r_le_w.trans hwm
  have ho' : Ordered { inp with
      buf := update inp.buf (slot inp.max) '\n'.toUInt8,
      w := inp.max + 1, e := inp.max + 1, max := inp.max + 1 } :=
    ⟨Nat.le_succ_of_le hrm, le_rfl, le_rfl, hm⟩
  apply represents_ofQueue ho' rfl rfl
  show ed.Q ++ ed.L ++ ['\n'.toUInt8] =
    bytesOf (update inp.buf (slot inp.max) '\n'.toUInt8) inp.r (inp.max + 1)
  -- the store is past every byte of the queue and of the line
  have hbuf : ∀ x, inp.r ≤ x → x < inp.max →
      inp.buf (slot x) = update inp.buf (slot inp.max) '\n'.toUInt8 (slot x) := by
    intro x _ hx
    rw [update_slot _ _ hm (by omega), if_neg (by omega)]
  rw [bytesOf_snoc hrm, update_self, ← bytesOf_congr hbuf, h.queue, h.line,
    ← bytesOf_append ho.r_le_w hwm]

/-- **The default case** below one buffer's worth, for a byte other than `0`. -/
theorem type_byte (h : Represents inp ed) (hroom : inp.max + 1 < INPUT_BUF) {c : UInt8}
    (hc0 : c ≠ 0) : ∃ inp', typeByte inp c = .ok inp' ∧ Represents inp' (ed.type c) := by
  have ho := h.ordered
  have hm : inp.max < INPUT_BUF := by omega
  have hlen : ed.Q.length + ed.L.length < INPUT_BUF := by
    rw [h.queue, h.line, length_bytesOf, length_bytesOf]
    have := ho.r_le_w
    have := ho.w_le_e
    have := ho.e_le_max
    omega
  unfold Editor.type
  rw [if_pos hlen]
  by_cases hnl : c = '\n'.toUInt8 ∨ c = '\r'.toUInt8
  · rw [if_pos hnl, typeByte_newline_eq hm hnl]
    exact ⟨_, rfl, h.newline hm⟩
  · have hins := h.insert_byte hm fun hc => hnl (Or.inl hc)
    rw [if_neg hnl, typeByte_insert_eq ho hm hc0 hnl]
    by_cases hD : c = C 'D'
    · -- `C('D')` is inserted and commits the line
      rw [if_pos hD, commit_of_eq (Or.inr hD)]
      exact ⟨_, rfl, hins.commit_line⟩
    · have hc : ¬(c = '\n'.toUInt8 ∨ c = C 'D') := fun hor => hor.elim (fun hc => hnl (Or.inl hc)) hD
      rw [if_neg hD, commit_of_ne hins.ordered hroom hc]
      exact ⟨_, rfl, hins⟩

/-- **Backspace**: the byte before the cursor deleted, the rest of the line shifted down. -/
theorem erase_byte (h : Represents inp ed) :
    ∃ inp', backspace inp = .ok inp' ∧ Represents inp' ed.backspace := by
  have ho := h.ordered
  unfold Editor.backspace
  by_cases hwe : inp.w < inp.e
  · have hk : 0 < ed.k := by
      rw [h.cursor]
      omega
    have hem := ho.e_le_max
    have hmb := ho.max_le
    rw [if_pos hk, backspace_eq ho hwe]
    refine ⟨_, rfl, ⟨⟨ho.r_le_w, ?_, ?_, ?_⟩, ?_, ?_, ?_, ?_⟩⟩
    · show inp.w ≤ inp.e - 1
      omega
    · show inp.e - 1 ≤ inp.max - 1
      omega
    · show inp.max - 1 ≤ INPUT_BUF
      omega
    · -- the queue lies below the deleted byte
      apply h.queue_frame
      intro x hx
      dsimp only
      rw [moveBytes_slot _ _ _ _ (by omega), if_neg (by omega)]
    · show ed.L.eraseIdx (ed.k - 1) = _
      rw [h.line, h.cursor, bytesOf_erase inp.buf hwe hem hmb,
        show inp.e - inp.w - 1 = inp.e - 1 - inp.w by omega]
    · show ed.k - 1 = inp.e - 1 - inp.w
      rw [h.cursor]
      omega
    · exact fun hmem => h.no_newline (List.mem_of_mem_eraseIdx hmem)
  · have hk : ¬0 < ed.k := by
      rw [h.cursor]
      omega
    rw [if_neg hk, backspace_at_w (by have := ho.w_le_e; omega)]
    exact ⟨inp, rfl, h⟩

/-- `LEFT`: the cursor one byte back. -/
theorem move_left (h : Represents inp ed) : Represents (cursorLeft inp) ed.left := by
  have ho := h.ordered
  have hol := cursorLeft_ordered ho
  unfold Editor.left
  by_cases hwe : inp.w < inp.e
  · have hk : 0 < ed.k := by
      rw [h.cursor]
      omega
    rw [if_pos hk]
    rw [cursorLeft_eq ho hwe] at hol ⊢
    refine ⟨hol, h.queue, h.line, ?_, h.no_newline⟩
    show ed.k - 1 = inp.e - 1 - inp.w
    rw [h.cursor]
    omega
  · have hk : ¬0 < ed.k := by
      rw [h.cursor]
      omega
    rw [if_neg hk, cursorLeft_at_w (by have := ho.w_le_e; omega)]
    exact h

/-- `RIGHT`: the cursor one byte on. -/
theorem move_right (h : Represents inp ed) : Represents (cursorRight inp) ed.right := by
  have ho := h.ordered
  have hwe := ho.w_le_e
  have hor := (cursorRight_ordered ho).1
  have hlen : ed.L.length = inp.max - inp.w := by rw [h.line, length_bytesOf]
  unfold Editor.right
  by_cases hlt : inp.e < inp.max
  · have hk : ed.k < ed.L.length := by
      rw [h.cursor, hlen]
      omega
    rw [dif_pos hk]
    rw [cursorRight_eq ho hlt] at hor ⊢
    refine ⟨hor, h.queue, h.line, ?_, h.no_newline⟩
    show ed.k + 1 = inp.e + 1 - inp.w
    rw [h.cursor]
    omega
  · have hk : ¬ed.k < ed.L.length := by
      rw [h.cursor, hlen]
      omega
    rw [dif_neg hk, cursorRight_at_max hlt]
    exact h

/-- `C('U')` from the end of the line: the line is emptied. -/
theorem kill (h : Represents inp ed) (he : inp.e = inp.max) :
    Represents (killLine inp) (Editor.ofQueue ed.Q) := by
  have ho := h.ordered
  have hwm : inp.w ≤ inp.max := ho.w_le_e.trans ho.e_le_max
  have hnl : ∀ x, inp.w ≤ x → x < inp.max → inp.buf (slot x) ≠ '\n'.toUInt8 := by
    intro x hx1 hx2 hx
    apply h.no_newline
    rw [h.line, mem_bytesOf]
    exact ⟨x, hx1, hx2, hx⟩
  unfold killLine
  rw [usub_of_le hwm ho.max_lt_uint, killLoop_eq _ ho he (by omega) hnl]
  have ho' : Ordered { inp with e := inp.w, max := inp.w } :=
    ⟨ho.r_le_w, le_rfl, le_rfl, hwm.trans ho.max_le⟩
  exact represents_ofQueue ho' rfl rfl h.queue

/-- **One byte of `consoleintr`** below one buffer's worth, with `C('U')` only at the end of the
line: the console's input after it stands for the editor's after the same byte. -/
theorem intr (h : Represents inp ed) (hroom : inp.max + 1 < INPUT_BUF) {c : UInt8}
    (hU : c = C 'U' → inp.e = inp.max) :
    ∃ inp', consoleintrByte inp c = .ok inp' ∧ Represents inp' (ed.intr c) := by
  unfold consoleintrByte
  -- the console's cases in its order; each names the editor's case it lands in
  split_ifs with hP hK hH hUD hL hR
  · rw [ed.intr_ignored (Or.inr (Or.inr (Or.inl hP)))]
    exact ⟨inp, rfl, h⟩
  · rw [hK, ed.intr_kill]
    exact ⟨_, rfl, h.kill (hU hK)⟩
  · rw [ed.intr_backspace hH]
    exact h.erase_byte
  · rw [ed.intr_ignored (hUD.elim Or.inl fun hD => Or.inr (Or.inl hD))]
    exact ⟨inp, rfl, h⟩
  · rw [hL, ed.intr_left]
    exact ⟨_, rfl, h.move_left⟩
  · rw [hR, ed.intr_right]
    exact ⟨_, rfl, h.move_right⟩
  · by_cases hc0 : c = 0
    · rw [ed.intr_ignored (Or.inr (Or.inr (Or.inr hc0))), typeByte_ignored fun hc => hc.1 hc0]
      exact ⟨inp, rfl, h⟩
    · have hi : ¬(c = UP ∨ c = DOWN ∨ c = C 'P' ∨ c = 0) := by
        simp only [not_or]
        exact ⟨fun hc => hUD (Or.inl hc), fun hc => hUD (Or.inr hc), hP, hc0⟩
      rw [ed.intr_type hK hH hL hR hi]
      exact h.type_byte hroom hc0

end Represents

/-! ### Reads -/

/-- **`consoleread`'s loop** returns what `readQ` takes from the front of the queue, and leaves
the bytes at `[r', w)` to the next read. -/
theorem readLoop_readQ (target n : ℕ) {inp : Input} (h : Ordered inp) :
    Editor.readQ target n (bytesOf inp.buf inp.r inp.w) =
      (bytesOf inp.buf (readLoop target n inp).1.r inp.w, (readLoop target n inp).2.1,
        (readLoop target n inp).2.2) := by
  induction n generalizing inp with
  | zero => rfl
  | succ n ih =>
    by_cases hrw : inp.r = inp.w
    · -- nothing committed: the reader sleeps
      simp only [readLoop]
      rw [if_pos hrw, hrw, bytesOf_self]
      rfl
    · have hlt : inp.r < inp.w := lt_of_le_of_ne h.r_le_w hrw
      have hr1 : inp.r + 1 < UINT := by
        have := h.max_lt_uint
        have := h.w_le_e
        have := h.e_le_max
        omega
      have ih1 := ih (show Ordered { inp with r := inp.r + 1 } from
        ⟨hlt, h.w_le_e, h.e_le_max, h.max_le⟩)
      dsimp only at ih1
      rw [bytesOf_cons hlt]
      simp only [readLoop, Editor.readQ]
      rw [if_neg hrw, wrap_of_lt hr1]
      -- the byte at `r` takes both loops down the same branch
      split_ifs with hD htarget hnl
      · -- `C('D')` as the first byte is left in place
        show _ = (bytesOf inp.buf (usub (inp.r + 1) 1) inp.w, [], none)
        rw [usub_of_le (by omega) hr1, Nat.add_sub_cancel, bytesOf_cons hlt]
      · rfl
      · rfl
      · rw [ih1]

/-! ### The console's runs below one buffer's worth -/

namespace Console

/-- A step the editor can follow: a byte arrives while fewer than `INPUT_BUF - 1` bytes have
gone into the buffer, and `C('U')` only with the cursor at the end of the line. -/
def Tame (s : Console) : ConsOp → Prop
  | .intr c => s.input.max + 1 < INPUT_BUF ∧ (c = C 'U' → s.input.e = s.input.max)
  | .read _ => True
  | .wake => True

instance (s : Console) : (op : ConsOp) → Decidable (s.Tame op)
  | .intr _ => inferInstanceAs (Decidable (_ ∧ _))
  | .read _ => isTrue trivial
  | .wake => isTrue trivial

/-- The console's step, taken only when it is tame. -/
def tameStep (s : Console) (op : ConsOp) : Option Console :=
  if s.Tame op then s.step op else none

/-- A tame run is a run of the console. -/
theorem exec_of_tame {ls : List ConsOp} {s : Console} (hrun : Run.exec tameStep init ls = some s) :
    exec ls = some s := by
  have hstep : ∀ s u op t, s = u → tameStep s op = some t → ∃ u', step u op = some u' ∧ t = u' := by
    intro s u op t hsu hst
    subst hsu
    unfold tameStep at hst
    split at hst
    · exact ⟨t, hst, rfl⟩
    · cases hst
  obtain ⟨u, hu, rfl⟩ := Run.exec_simulation Eq hstep ls init init s rfl hrun
  exact hu

/-- The console and the editor in step: the input stands for the editor, the same reader waits,
and the reads have returned the same bytes. -/
structure Sim (s : Console) (u : EditorSys) : Prop where
  input : Represents s.input u.ed
  reader : u.reader = s.reader
  out : u.out = s.out

theorem sim_init : Sim init EditorSys.init := ⟨represents_init, rfl, rfl⟩

/-- A read in both: the same bytes come back, and the same count is left. -/
theorem sim_read {s : Console} {u : EditorSys} (h : Sim s u) (target n : ℕ) :
    Sim (s.read target n) (u.read target n) := by
  have ho := h.input.ordered
  have hq := readLoop_readQ target n ho
  obtain ⟨r, hr, -, hrw⟩ := readLoop_input target n ho
  rw [← h.input.queue] at hq
  refine ⟨?_, ?_, ?_⟩
  · show Represents (readLoop target n s.input).1
      ⟨(Editor.readQ target n u.ed.Q).1, u.ed.L, u.ed.k, u.ed.k_le⟩
    rw [hq, hr]
    exact ⟨⟨hrw, ho.w_le_e, ho.e_le_max, ho.max_le⟩, rfl, h.input.line, h.input.cursor,
      h.input.no_newline⟩
  · show Option.map _ (Editor.readQ target n u.ed.Q).2.2 = Option.map _ (readLoop target n s.input).2.2
    rw [hq]
  · show u.out ++ (Editor.readQ target n u.ed.Q).2.1 = s.out ++ (readLoop target n s.input).2.1
    rw [hq, h.out]

/-- **Step lemma**: every tame step of the console is matched by the editor's step with the same
label. -/
theorem sim_step {s t : Console} {u : EditorSys} {op : ConsOp} (h : Sim s u)
    (hst : s.tameStep op = some t) : ∃ u', u.step op = some u' ∧ Sim t u' := by
  unfold tameStep at hst
  by_cases htame : s.Tame op
  case neg =>
    rw [if_neg htame] at hst
    cases hst
  rw [if_pos htame] at hst
  cases op with
  | intr c =>
    obtain ⟨inp', hok, hrep⟩ := h.input.intr htame.1 htame.2
    simp only [step, hok, Except.toOption, Option.map_some, Option.some.injEq] at hst
    subst hst
    exact ⟨_, rfl, ⟨hrep, h.reader, h.out⟩⟩
  | read n =>
    simp only [step, Option.ite_none_right_eq_some, Option.some.injEq] at hst
    obtain ⟨hnone, rfl⟩ := hst
    refine ⟨u.read n n, ?_, sim_read h n n⟩
    simp only [EditorSys.step]
    rw [if_pos (h.reader.trans hnone)]
  | wake =>
    cases hrd : s.reader with
    | none =>
      simp only [step, hrd] at hst
      cases hst
    | some p =>
      obtain ⟨target, n⟩ := p
      simp only [step, hrd, Option.ite_none_right_eq_some, Option.some.injEq] at hst
      obtain ⟨hne, rfl⟩ := hst
      -- the editor's queue is empty exactly when `r = w`
      have hQ : u.ed.Q ≠ [] := by
        rw [h.input.queue, Ne, bytesOf_eq_nil_iff h.input.ordered.r_le_w]
        exact hne
      refine ⟨u.read target n, ?_, sim_read h target n⟩
      simp only [EditorSys.step, h.reader, hrd]
      rw [if_pos hQ]

end Console

/-- **The console refines the editor** below one buffer's worth: every run of tame steps is a
run of the console, the editor takes the same labels from the empty line, its reads return the
same bytes, and the same reader is left waiting. -/
theorem console_refines_editor {ls : List ConsOp} {s : Console}
    (hrun : Run.exec Console.tameStep Console.init ls = some s) :
    Console.exec ls = some s ∧
      ∃ u, EditorSys.exec ls = some u ∧ u.out = s.out ∧ u.reader = s.reader := by
  have hstep : ∀ s u op t, Console.Sim s u → Console.tameStep s op = some t →
      ∃ u', EditorSys.step u op = some u' ∧ Console.Sim t u' :=
    fun _ _ _ _ h hst => Console.sim_step h hst
  obtain ⟨u, hu, hsim⟩ :=
    Run.exec_simulation Console.Sim hstep ls Console.init EditorSys.init s Console.sim_init hrun
  exact ⟨Console.exec_of_tame hrun, u, hu, hsim.out, hsim.reader⟩

/-- `'a'`, `LEFT`, `'b'`, a newline and a read: a tame run, which returns `"ba\n"`. -/
example : (Run.exec Console.tameStep Console.init
    [.intr 'a'.toUInt8, .intr LEFT, .intr 'b'.toUInt8, .intr '\n'.toUInt8, .read 8]).map
      Console.out = some ['b'.toUInt8, 'a'.toUInt8, '\n'.toUInt8] := by
  decide

end Xv6Lab
