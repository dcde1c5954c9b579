import Xv6Lab.Console.Input

/-!
# The line editor the console stands for

The console should behave as a plain line editor: a queue `Q` of committed bytes, the line `L`
being typed, and a cursor `k` in `[0, |L|]`.  A byte other than a newline is inserted at the
cursor; a newline (or `'\r'`) ends the line and moves it to `Q`; `C('D')` is inserted and ends
the line; backspace deletes the byte before the cursor; `LEFT`/`RIGHT` move the cursor inside
the line; `C('U')` empties it; a byte is taken whenever `|Q| + |L| < INPUT_BUF`.  A read takes
bytes from the front of `Q` as `consoleread` does.  This is a statement of the console's
purpose, not of its code: `Editor` and `EditorSys` are compared with `Console` below and in
`Console.Refinement`.

* `console_stops_accepting` — after one line of 127 bytes and its newline is typed and read,
  the editor takes and returns the next line, while the console ignores it: `input.max` has
  reached `INPUT_BUF` and never comes down.
-/

namespace Xv6Lab

/-- The editor's state: the cursor always lies inside the line. -/
structure Editor where
  Q : List UInt8
  L : List UInt8
  k : ℕ
  k_le : k ≤ L.length

namespace Editor

/-- The queue `Q` with an empty line. -/
def ofQueue (Q : List UInt8) : Editor := ⟨Q, [], 0, le_rfl⟩

/-- The editor with nothing typed. -/
def empty : Editor := ofQueue []

/-- `c` inserted at the cursor, which moves past it. -/
def insert (ed : Editor) (c : UInt8) : Editor :=
  ⟨ed.Q, ed.L.insertIdx ed.k c, ed.k + 1, by
    rw [List.length_insertIdx_of_le_length ed.k_le]
    exact Nat.succ_le_succ ed.k_le⟩

/-- The byte before the cursor deleted. -/
def erase (ed : Editor) : Editor :=
  ⟨ed.Q, ed.L.eraseIdx (ed.k - 1), ed.k - 1, by
    have := ed.k_le
    rw [List.length_eraseIdx]
    split <;> omega⟩

/-- Backspace: the byte before the cursor deleted, if there is one. -/
def backspace (ed : Editor) : Editor := if 0 < ed.k then ed.erase else ed

/-- The cursor one byte back, not past the start of the line. -/
def left (ed : Editor) : Editor :=
  if 0 < ed.k then ⟨ed.Q, ed.L, ed.k - 1, by have := ed.k_le; omega⟩ else ed

/-- The cursor one byte on, not past the end of the line. -/
def right (ed : Editor) : Editor :=
  if h : ed.k < ed.L.length then ⟨ed.Q, ed.L, ed.k + 1, h⟩ else ed

/-- A byte typed, while `|Q| + |L| < INPUT_BUF`: a newline ends the line, `C('D')` is inserted
and ends it, any other byte is inserted. -/
def type (ed : Editor) (c : UInt8) : Editor :=
  if ed.Q.length + ed.L.length < INPUT_BUF then
    if c = '\n'.toUInt8 ∨ c = '\r'.toUInt8 then ofQueue (ed.Q ++ ed.L ++ ['\n'.toUInt8])
    else if c = C 'D' then ofQueue (ed.Q ++ (ed.insert c).L)
    else ed.insert c
  else ed

/-- One byte typed. -/
def intr (ed : Editor) (c : UInt8) : Editor :=
  if c = C 'U' then ofQueue ed.Q
  else if c = C 'H' ∨ c = 0x7f then ed.backspace
  else if c = LEFT then ed.left
  else if c = RIGHT then ed.right
  else if c = UP ∨ c = DOWN ∨ c = C 'P' ∨ c = 0 then ed
  else ed.type c

/-! The bytes by class, as `consoleintrByte` sorts them. -/

theorem intr_kill (ed : Editor) : ed.intr (C 'U') = ofQueue ed.Q := if_pos rfl

theorem intr_backspace (ed : Editor) {c : UInt8} (hc : c = C 'H' ∨ c = 0x7f) :
    ed.intr c = ed.backspace := by
  unfold intr
  rw [if_neg (by rcases hc with rfl | rfl <;> decide), if_pos hc]

theorem intr_left (ed : Editor) : ed.intr LEFT = ed.left := by
  unfold intr
  rw [if_neg (by decide), if_neg (by decide), if_pos rfl]

theorem intr_right (ed : Editor) : ed.intr RIGHT = ed.right := by
  unfold intr
  rw [if_neg (by decide), if_neg (by decide), if_neg (by decide), if_pos rfl]

theorem intr_ignored (ed : Editor) {c : UInt8} (hc : c = UP ∨ c = DOWN ∨ c = C 'P' ∨ c = 0) :
    ed.intr c = ed := by
  have hne : c ≠ C 'U' ∧ ¬(c = C 'H' ∨ c = 0x7f) ∧ c ≠ LEFT ∧ c ≠ RIGHT := by
    rcases hc with rfl | rfl | rfl | rfl <;> decide
  unfold intr
  rw [if_neg hne.1, if_neg hne.2.1, if_neg hne.2.2.1, if_neg hne.2.2.2, if_pos hc]

theorem intr_type (ed : Editor) {c : UInt8} (hU : c ≠ C 'U') (hH : ¬(c = C 'H' ∨ c = 0x7f))
    (hL : c ≠ LEFT) (hR : c ≠ RIGHT) (hi : ¬(c = UP ∨ c = DOWN ∨ c = C 'P' ∨ c = 0)) :
    ed.intr c = ed.type c := by
  unfold intr
  rw [if_neg hU, if_neg hH, if_neg hL, if_neg hR, if_neg hi]

/-- A read of the committed bytes, as `consoleread`'s loop for `target` bytes with `n` left:
the queue after it, the bytes returned, and `some n'` when `Q` ran out with `n'` left. -/
def readQ (target : ℕ) : ℕ → List UInt8 → List UInt8 × List UInt8 × Option ℕ
  | 0, Q => (Q, [], none)
  | n + 1, [] => ([], [], some (n + 1))
  | n + 1, c :: Q =>
    if c = C 'D' then ((if n + 1 < target then c :: Q else Q), [], none)
    else if c = '\n'.toUInt8 then (Q, [c], none)
    else
      let rest := readQ target n Q
      (rest.1, c :: rest.2.1, rest.2.2)

end Editor

/-- The editor with its reader and the bytes read so far, driven by the console's steps. -/
structure EditorSys where
  ed : Editor
  reader : Option (ℕ × ℕ)
  out : List UInt8

namespace EditorSys

def read (s : EditorSys) (target n : ℕ) : EditorSys :=
  let res := Editor.readQ target n s.ed.Q
  ⟨⟨res.1, s.ed.L, s.ed.k, s.ed.k_le⟩, res.2.2.map (target, ·), s.out ++ res.2.1⟩

def step (s : EditorSys) : ConsOp → Option EditorSys
  | .intr c => some { s with ed := s.ed.intr c }
  | .read n => if s.reader = none then some (s.read n n) else none
  | .wake =>
    match s.reader with
    | some (target, n) => if s.ed.Q ≠ [] then some (s.read target n) else none
    | none => none

def init : EditorSys := ⟨Editor.empty, none, []⟩

/-- The run of `ls` from the empty editor. -/
def exec (ls : List ConsOp) : Option EditorSys := Run.exec step init ls

end EditorSys

set_option maxRecDepth 100000 in
/-- A line of 127 `'a'`s and its newline, read back whole; then `"b\n"` and a read.  The editor
returns the second line; the console has `input.max = INPUT_BUF` and ignores both bytes, so its
reader sleeps. -/
theorem console_stops_accepting :
    ∃ ls : List ConsOp,
      (Console.exec ls).map Console.out =
        some (List.replicate 127 'a'.toUInt8 ++ ['\n'.toUInt8]) ∧
      (EditorSys.exec ls).map EditorSys.out =
        some (List.replicate 127 'a'.toUInt8 ++ ['\n'.toUInt8] ++ ['b'.toUInt8, '\n'.toUInt8]) :=
  ⟨List.replicate 127 (.intr 'a'.toUInt8) ++
      [.intr '\n'.toUInt8, .read 128, .intr 'b'.toUInt8, .intr '\n'.toUInt8, .read 2],
    by decide, by decide +kernel⟩

end Xv6Lab
