import Xv6Lab.Kernel.Basic
import Xv6Lab.Lib.Run

/-!
# Console input (`console.c`)

`input` is a 128-byte buffer with four `uint` counters that only ever grow: bytes in
`[r, w)` are committed and wait for `consoleread`, bytes in `[w, max)` are the line being
edited, and `e` is the cursor in it.  Stores index `buf` with `% INPUT_BUF`; the lab's cursor
editing shifts the line with `memmove` on the counters themselves, unreduced.

* `memmove` — the bytes moved must lie in `buf[0..INPUT_BUF)`, or the call is undefined
  (`Crash.outOfBounds "input.buf"`);
* `consoleintrByte` — one byte of `consoleintr`'s loop, case by case: `C('P')`, `C('U')`,
  backspace, `UP`/`DOWN`, `LEFT`, `RIGHT` and the default case that types a byte;
* `readLoop` — `consoleread`'s loop, which copies committed bytes until a newline, `C('D')`
  or the count, and sleeps on `&input.r` when nothing is committed;
* `Console` — the buffer, the reader asleep in `consoleread` if any, and the bytes the reads
  returned; `Console.step` takes a keyboard byte, a `read` call, or the wakeup of the reader.

The echo to the screen (`consputc`), `procdump` and a reader's `killed` check are left out.
-/

namespace Xv6Lab

open Function

def INPUT_BUF : ℕ := 128

/-- `C(x)`: Control-x. -/
def C (x : Char) : UInt8 := x.toUInt8 - '@'.toUInt8

def UP : UInt8 := 226
def DOWN : UInt8 := 227
def LEFT : UInt8 := 228
def RIGHT : UInt8 := 229

/-- The slot `i % INPUT_BUF` of `input.buf`. -/
def slot (i : ℕ) : Fin INPUT_BUF := ⟨i % INPUT_BUF, Nat.mod_lt _ (by decide)⟩

/-- The `input` structure of `console.c`. -/
structure Input where
  buf : Fin INPUT_BUF → UInt8
  /-- Read index. -/
  r : ℕ
  /-- Write index. -/
  w : ℕ
  /-- Edit index. -/
  e : ℕ
  /-- Maximum index. -/
  max : ℕ

/-- `input` at boot: zero. -/
def inputInit : Input := ⟨fun _ => 0, 0, 0, 0, 0⟩

/-- The buffer after the bytes `[src, src + n)` are copied to `[dst, dst + n)`, as through a
temporary buffer. -/
def moveBytes (buf : Fin INPUT_BUF → UInt8) (dst src n : ℕ) : Fin INPUT_BUF → UInt8 :=
  fun i => if dst ≤ i.val ∧ i.val < dst + n then buf (slot (src + (i.val - dst))) else buf i

/-- `memmove(input.buf + dst, input.buf + src, n)`.  The offsets are the `uint`s added to
`input.buf`; a byte outside the buffer stops the model at the first such offset. -/
def memmove (buf : Fin INPUT_BUF → UInt8) (dst src n : ℕ) :
    Except Crash (Fin INPUT_BUF → UInt8) :=
  if n = 0 then .ok buf
  else if INPUT_BUF < src + n then .error (.outOfBounds "input.buf" (Max.max src INPUT_BUF))
  else if INPUT_BUF < dst + n then .error (.outOfBounds "input.buf" (Max.max dst INPUT_BUF))
  else .ok (moveBytes buf dst src n)

/-- `case C('U')`: `while (input.max != input.w &&
input.buf[(input.max-1) % INPUT_BUF] != '\n') { input.max--; input.e--; }`, for at most `n`
rounds. -/
def killLoop : ℕ → Input → Input
  | 0, inp => inp
  | n + 1, inp =>
    if inp.max ≠ inp.w ∧ inp.buf (slot (usub inp.max 1)) ≠ '\n'.toUInt8 then
      killLoop n { inp with max := usub inp.max 1, e := usub inp.e 1 }
    else inp

/-- The kill loop: every round moves `max` one step down towards `w`, so it has run out after
`max - w` rounds. -/
def killLine (inp : Input) : Input := killLoop (usub inp.max inp.w) inp

/-- `case C('H'): case '\x7f'`: with the cursor past `w`, delete the byte before it. -/
def backspace (inp : Input) : Except Crash Input :=
  if inp.e ≠ inp.w then
    let max := usub inp.max 1
    let e := usub inp.e 1
    (memmove inp.buf e (wrap (e + 1)) (usub max e)).map fun buf => { inp with buf, e, max }
  else .ok inp

/-- The end of the default case: a newline, `C('D')` or a full buffer commits the line and
wakes the reader. -/
def commit (inp : Input) (c : UInt8) : Input :=
  if c = '\n'.toUInt8 ∨ c = C 'D' ∨ inp.max = wrap (inp.r + INPUT_BUF) then
    { inp with w := inp.max, e := inp.max }
  else inp

/-- `default:` a byte typed into the line, while `input.max < INPUT_BUF`.  A newline goes to
the end of the line; any other byte is inserted at the cursor, the rest of the line shifted up
by one. -/
def typeByte (inp : Input) (c : UInt8) : Except Crash Input :=
  if c ≠ 0 ∧ inp.max < INPUT_BUF then
    let c := if c = '\r'.toUInt8 then '\n'.toUInt8 else c
    if c ≠ '\n'.toUInt8 then
      (memmove inp.buf (wrap (inp.e + 1)) inp.e (usub inp.max inp.e)).map fun buf =>
        commit { inp with
          buf := update buf (slot inp.e) c, e := wrap (inp.e + 1), max := wrap (inp.max + 1) } c
    else
      .ok (commit { inp with buf := update inp.buf (slot inp.max) c, max := wrap (inp.max + 1) } c)
  else .ok inp

/-- `case LEFT`: the cursor moves back one byte, not past `w`. -/
def cursorLeft (inp : Input) : Input :=
  if inp.e ≠ inp.w then { inp with e := usub inp.e 1 } else inp

/-- `case RIGHT`: the cursor moves on one byte, not past `max`. -/
def cursorRight (inp : Input) : Input :=
  if inp.e < inp.max then { inp with e := wrap (inp.e + 1) } else inp

/-- One byte `c` of `consoleintr`'s loop. -/
def consoleintrByte (inp : Input) (c : UInt8) : Except Crash Input :=
  if c = C 'P' then .ok inp
  else if c = C 'U' then .ok (killLine inp)
  else if c = C 'H' ∨ c = 0x7f then backspace inp
  else if c = UP ∨ c = DOWN then .ok inp
  else if c = LEFT then .ok (cursorLeft inp)
  else if c = RIGHT then .ok (cursorRight inp)
  else typeByte inp c

/-- `consoleintr(getc)`, over the bytes `getc` returns before it returns `-1`. -/
def consoleintr (inp : Input) (cs : List UInt8) : Except Crash Input :=
  cs.foldlM consoleintrByte inp

/-- `consoleread`'s loop for a call of `target` bytes with `n` left: the input after it, the
bytes copied to `dst`, and `some n'` when it went to sleep on `&input.r` with `n'` left. -/
def readLoop (target : ℕ) : ℕ → Input → Input × List UInt8 × Option ℕ
  | 0, inp => (inp, [], none)
  | n + 1, inp =>
    if inp.r = inp.w then (inp, [], some (n + 1))
    else
      let c := inp.buf (slot inp.r)
      let inp1 := { inp with r := wrap (inp.r + 1) }
      if c = C 'D' then
        -- end of file: saved for the next call unless it is the first byte of this one
        ((if n + 1 < target then { inp1 with r := usub inp1.r 1 } else inp1), [], none)
      else if c = '\n'.toUInt8 then (inp1, [c], none)
      else
        let rest := readLoop target n inp1
        (rest.1, c :: rest.2.1, rest.2.2)

/-- The console: its input, the `consoleread` call asleep on `&input.r` (its `target` and the
count left), and the bytes the reads have returned, in order. -/
structure Console where
  input : Input
  reader : Option (ℕ × ℕ)
  out : List UInt8

/-- What happens at the console. -/
inductive ConsOp where
  /-- A keyboard or serial interrupt delivers byte `c`. -/
  | intr (c : UInt8)
  /-- A process calls `consoleread` for `n` bytes. -/
  | read (n : ℕ)
  /-- The reader asleep on `&input.r` runs again after a commit. -/
  | wake
  deriving DecidableEq, Repr

namespace Console

/-- Run `consoleread`'s loop for a call of `target` bytes with `n` left. -/
def read (s : Console) (target n : ℕ) : Console :=
  let res := readLoop target n s.input
  ⟨res.1, res.2.2.map (target, ·), s.out ++ res.2.1⟩

/-- One step: `none` when it is not enabled, or when `consoleintr` is undefined. -/
def step (s : Console) : ConsOp → Option Console
  | .intr c => (consoleintrByte s.input c).toOption.map fun inp => { s with input := inp }
  | .read n => if s.reader = none then some (s.read n n) else none
  | .wake =>
    match s.reader with
    | some (target, n) => if s.input.r ≠ s.input.w then some (s.read target n) else none
    | none => none

def init : Console := ⟨inputInit, none, []⟩

def Init (s : Console) : Prop := s = init

def Reachable : Console → Prop := Run.Reachable step Init

/-- The run of `ls` from boot. -/
def exec (ls : List ConsOp) : Option Console := Run.exec step init ls

theorem exists_reachable_of_exec {β : Type*} (ls : List ConsOp) {f : Console → β} {b : β}
    (h : (exec ls).map f = some b) : ∃ s, Reachable s ∧ f s = b :=
  Run.exists_reachable_of_exec_map ls (show Init init from rfl) h

end Console

end Xv6Lab
