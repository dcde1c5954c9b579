import Xv6Lab.Sync.Semaphore
import Xv6Lab.Lib.Tally

/-!
# The writer-preferring reader/writer lock (`wr_lock.c`)

`struct wr_lock` holds three semaphores (`mutex`, `okToRead`, `okToWrite`) and four counters:
active and waiting writers (`aw`, `ww`) and readers (`ar`, `wr`).  `sys_wrtest` brackets each
read with `acquire_reader_b`/`release_reader_b` and each write with
`acquire_writer_b`/`release_writer_b`.  A process is at a line of one of the four functions
(`WrLine`); the lines between `sem_wait(&lk->mutex)` and `sem_signal(&lk->mutex)` run with the
mutex held and are one step each.  Every `sem_wait` sleeps on the caller's own `struct proc`, so
a `sem_signal` on one semaphore wakes its head process wherever that process sleeps.

* `WrSys.step` — begin a write or a read, or run the process's current line;
* `mutex_excludes` — the counters are guarded: at every reachable state
  `mutex.val` plus the number of processes between `sem_wait(&lk->mutex)` and
  `sem_signal(&lk->mutex)` is `1`;
* `two_writers` — `init_wr_lock` starts `okToWrite` (and `okToRead`) at `1`: a first writer
  finds the lock free, signals `okToWrite` and takes a unit, which leaves one for the next
  writer, who then enters its section beside the first.
-/

namespace Xv6Lab

open Tally

/-- The semaphores of `struct wr_lock`. -/
inductive WrSem where
  | mutex
  | okToRead
  | okToWrite
  deriving DecidableEq, Repr

/-- Where a process stands in `wr_lock.c`. -/
inductive WrLine where
  /-- Outside the lock, between sections of `sys_wrtest`. -/
  | idle
  /-- `acquire_writer_b`: `sem_wait(&lk->mutex)`. -/
  | aw0
  /-- The test of `aw + ar`, with the mutex held. -/
  | aw1
  /-- `sem_signal(&lk->mutex)`. -/
  | aw2
  /-- `sem_wait(&lk->okToWrite)`. -/
  | aw3
  /-- In the writer's section. -/
  | writing
  /-- `release_writer_b`: `sem_wait(&lk->mutex)`. -/
  | rw0
  /-- The hand-over to a waiting writer or readers, with the mutex held. -/
  | rw1
  /-- `sem_signal(&lk->mutex)`. -/
  | rw2
  /-- `acquire_reader_b`: `sem_wait(&lk->mutex)`. -/
  | ar0
  /-- The test of `aw + ww`, with the mutex held. -/
  | ar1
  /-- `sem_signal(&lk->mutex)`. -/
  | ar2
  /-- `sem_wait(&lk->okToRead)`. -/
  | ar3
  /-- In the reader's section. -/
  | reading
  /-- `release_reader_b`: `sem_wait(&lk->mutex)`. -/
  | rr0
  /-- The hand-over to a waiting writer, with the mutex held. -/
  | rr1
  /-- `sem_signal(&lk->mutex)`. -/
  | rr2
  deriving DecidableEq, Repr

/-- The lines that run with `lk->mutex` held. -/
def WrLine.inMutex : WrLine → Bool
  | .aw1 | .aw2 | .rw1 | .rw2 | .ar1 | .ar2 | .rr1 | .rr2 => true
  | _ => false

/-- The lock, its three semaphores, and where each process stands.  `st p` is `p`'s place in
the `sem_wait` of its current line. -/
structure WrSys where
  mutex : Sem
  okToRead : Sem
  okToWrite : Sem
  aw : ℤ
  ww : ℤ
  ar : ℤ
  wr : ℤ
  line : Fin NPROC → WrLine
  st : Fin NPROC → SemPc

/-- The steps of a process: start a write or a read, or run its current line. -/
inductive WrOp where
  | beginWrite
  | beginRead
  | next
  deriving DecidableEq, Repr

namespace WrSys

def sem (s : WrSys) : WrSem → Sem
  | .mutex => s.mutex
  | .okToRead => s.okToRead
  | .okToWrite => s.okToWrite

def setSem (s : WrSys) : WrSem → Sem → WrSys
  | .mutex, x => { s with mutex := x }
  | .okToRead, x => { s with okToRead := x }
  | .okToWrite, x => { s with okToWrite := x }

/-- `sem_signal` on semaphore `x`, waking its head process. -/
def signal (s : WrSys) (x : WrSem) : WrSys :=
  let r := (s.sem x).signal
  { s.setSem x r.1 with
    st := match r.2 with
      | some q => wakeProc s.st q
      | none => s.st }

/-- One test of `sem_wait(x)` by `p`: on a unit it moves on to line `l`, otherwise it queues
itself and sleeps. -/
def wait (s : WrSys) (p : Fin NPROC) (x : WrSem) (l : WrLine) : WrSys :=
  let r := (s.sem x).waitTest p
  if r.2 then
    { s.setSem x r.1 with
      line := Function.update s.line p l, st := Function.update s.st p .out }
  else { s.setSem x r.1 with st := Function.update s.st p .asleep }

/-- Move `p` to line `l`. -/
def goto (s : WrSys) (p : Fin NPROC) (l : WrLine) : WrSys :=
  { s with line := Function.update s.line p l }

/-- Run line `l` of process `p`. -/
def run (s : WrSys) (p : Fin NPROC) : WrLine → WrSys
  | .idle => s
  | .aw0 => s.wait p .mutex .aw1
  | .aw1 =>
    if 0 < s.aw + s.ar then { s.goto p .aw2 with ww := s.ww + 1 }
    else { (s.signal .okToWrite).goto p .aw2 with aw := s.aw + 1 }
  | .aw2 => (s.signal .mutex).goto p .aw3
  | .aw3 => s.wait p .okToWrite .writing
  | .writing => s.goto p .rw0
  | .rw0 => s.wait p .mutex .rw1
  | .rw1 =>
    -- `aw -= 1` before the test, and again when a waiting writer takes over
    let s : WrSys := { s with aw := s.aw - 1 }
    if 0 < s.ww then
      { (s.signal .okToWrite).goto p .rw2 with aw := s.aw - 1, ww := s.ww - 1 }
    else if 0 < s.wr then
      { (s.signal .okToRead).goto p .rw2 with ar := s.ar + 1, wr := s.wr - 1 }
    else s.goto p .rw2
  | .rw2 => (s.signal .mutex).goto p .idle
  | .ar0 => s.wait p .mutex .ar1
  | .ar1 =>
    if 0 < s.aw + s.ww then { s.goto p .ar2 with wr := s.wr + 1 }
    else { (s.signal .okToRead).goto p .ar2 with ar := s.ar + 1 }
  | .ar2 => (s.signal .mutex).goto p .ar3
  | .ar3 => s.wait p .okToRead .reading
  | .reading => s.goto p .rr0
  | .rr0 => s.wait p .mutex .rr1
  | .rr1 =>
    -- the last reader hands over to a waiting writer by counting only
    let s : WrSys := { s with ar := s.ar - 1 }
    if s.ar = 0 ∧ 0 < s.ww then { s.goto p .rr2 with ww := s.ww - 1, aw := s.aw + 1 }
    else s.goto p .rr2
  | .rr2 => (s.signal .mutex).goto p .idle

/-- One step of process `p`: `none` when it sleeps, or cannot begin a section now. -/
def step (s : WrSys) : Fin NPROC × WrOp → Option WrSys
  | (p, .beginWrite) => if s.line p = .idle then some (s.goto p .aw0) else none
  | (p, .beginRead) => if s.line p = .idle then some (s.goto p .ar0) else none
  | (p, .next) =>
    if s.line p ≠ .idle ∧ s.st p ≠ .asleep then some (s.run p (s.line p)) else none

/-- `init_wr_lock`: every semaphore at `1`, every counter at `0`. -/
def init : WrSys :=
  ⟨semInit 1, semInit 1, semInit 1, 0, 0, 0, 0, fun _ => .idle, fun _ => .out⟩

def Init (s : WrSys) : Prop := s = init

def Reachable : WrSys → Prop := Run.Reachable step Init

/-- The run of `ls` from `init_wr_lock`. -/
def exec (ls : List (Fin NPROC × WrOp)) : Option WrSys := Run.exec step init ls

theorem exists_reachable_of_exec {β : Type*} (ls : List (Fin NPROC × WrOp)) {f : WrSys → β}
    {b : β} (h : (exec ls).map f = some b) : ∃ s, Reachable s ∧ f s = b :=
  Run.exists_reachable_of_exec_map ls (show Init init from rfl) h

/-- The number of processes between `sem_wait(&lk->mutex)` and `sem_signal(&lk->mutex)`. -/
def inMutex (s : WrSys) : ℕ := tally s.line fun l => l.inMutex

/-! ### The mutex -/

@[simp] theorem sem_setSem_self (s : WrSys) (x : WrSem) (m : Sem) : (s.setSem x m).sem x = m := by
  cases x <;> rfl

theorem sem_setSem_ne (s : WrSys) {x y : WrSem} (m : Sem) (h : y ≠ x) :
    (s.setSem x m).sem y = s.sem y := by
  cases x <;> cases y <;> first | rfl | exact absurd rfl h

@[simp] theorem setSem_line (s : WrSys) (x : WrSem) (m : Sem) : (s.setSem x m).line = s.line := by
  cases x <;> rfl

@[simp] theorem signal_line (s : WrSys) (x : WrSem) : (s.signal x).line = s.line := by
  simp [signal]

theorem signal_mutex_ne (s : WrSys) {x : WrSem} (h : x ≠ .mutex) :
    (s.signal x).mutex = s.mutex := by
  have := sem_setSem_ne s (x := x) (y := .mutex) ((s.sem x).signal.1) (Ne.symm h)
  simpa [signal, sem] using this

@[simp] theorem signal_mutex_val (s : WrSys) : (s.signal .mutex).mutex.val = s.mutex.val + 1 := by
  simp only [signal, setSem, Sem.signal, sem]
  split <;> rfl

@[simp] theorem goto_mutex (s : WrSys) (p : Fin NPROC) (l : WrLine) :
    (s.goto p l).mutex = s.mutex := rfl

@[simp] theorem goto_line (s : WrSys) (p : Fin NPROC) (l : WrLine) :
    (s.goto p l).line = Function.update s.line p l := rfl

/-- `sem_wait(x)` for a semaphore other than the mutex leaves the mutex alone. -/
theorem wait_mutex_ne (s : WrSys) (p : Fin NPROC) {x : WrSem} (l : WrLine) (h : x ≠ .mutex) :
    (s.wait p x l).mutex = s.mutex := by
  have := sem_setSem_ne s (x := x) (y := .mutex) ((s.sem x).waitTest p).1 (Ne.symm h)
  unfold wait
  dsimp only
  split <;> simpa [sem] using this

/-- The mutex's count plus its holders, the quantity `mutex_excludes` keeps at `1`. -/
def mutexUse (s : WrSys) : ℕ := s.mutex.val + s.inMutex

/-- Moving one process between lines: the holders change by the two lines' votes. -/
theorem inMutex_update (s : WrSys) (p : Fin NPROC) (l : WrLine) :
    tally (Function.update s.line p l) (fun l => l.inMutex) + (if (s.line p).inMutex then 1 else 0) =
      s.inMutex + (if l.inMutex then 1 else 0) :=
  tally_update (fun l => l.inMutex = true) s.line p l

/-- A step that keeps the mutex and moves one process between lines of the same kind keeps the
count plus the holders. -/
theorem mutexUse_of_line_update {s t : WrSys} {p : Fin NPROC} {l : WrLine}
    (hm : t.mutex = s.mutex) (ht : t.line = Function.update s.line p l)
    (hl : (s.line p).inMutex = l.inMutex) : t.mutexUse = s.mutexUse := by
  have h := s.inMutex_update p l
  rw [hl] at h
  unfold inMutex at h
  unfold mutexUse inMutex
  rw [hm, ht, Nat.add_right_cancel h]

theorem mutexUse_goto (s : WrSys) (p : Fin NPROC) (l : WrLine)
    (hl : (s.line p).inMutex = l.inMutex) : (s.goto p l).mutexUse = s.mutexUse :=
  mutexUse_of_line_update rfl rfl hl

theorem mutexUse_signal_ne (s : WrSys) {x : WrSem} (h : x ≠ .mutex) :
    (s.signal x).mutexUse = s.mutexUse := by
  unfold mutexUse inMutex
  rw [signal_mutex_ne s h, signal_line]

/-- `sem_wait(&lk->mutex)`: a process that takes the unit enters the guarded lines. -/
theorem mutexUse_wait_mutex (s : WrSys) (p : Fin NPROC) (l : WrLine)
    (hl : (s.line p).inMutex = false) (hl' : l.inMutex = true) :
    (s.wait p .mutex l).mutexUse = s.mutexUse := by
  have h := s.inMutex_update p l
  rw [hl, hl'] at h
  simp only [Bool.false_eq_true, if_false, add_zero, if_true] at h
  by_cases hv : s.mutex.val = 0
  · -- no unit: the caller only queues itself
    simp [wait, sem, setSem, Sem.waitTest, hv, mutexUse, inMutex]
  · simp only [wait, sem, setSem, Sem.waitTest, hv, if_false, if_true, mutexUse, inMutex]
    simp only [inMutex] at h
    omega

/-- `sem_wait` on `okToRead` or `okToWrite` from a line outside the guarded ones. -/
theorem mutexUse_wait_ne (s : WrSys) (p : Fin NPROC) {x : WrSem} (l : WrLine) (hx : x ≠ .mutex)
    (hl : (s.line p).inMutex = l.inMutex) : (s.wait p x l).mutexUse = s.mutexUse := by
  have hm := s.wait_mutex_ne p l hx
  unfold wait at hm ⊢
  dsimp only at hm ⊢
  split
  · rw [if_pos ‹_›] at hm
    exact mutexUse_of_line_update hm rfl hl
  · rw [if_neg ‹_›] at hm
    unfold mutexUse inMutex
    rw [hm]
    exact congrArg (s.mutex.val + tally · _) (setSem_line s x _)

/-- `sem_signal(&lk->mutex)`: the caller leaves the guarded lines and gives the unit back. -/
theorem mutexUse_signal_mutex_goto (s : WrSys) (p : Fin NPROC) (l : WrLine)
    (hl : (s.line p).inMutex = true) (hl' : l.inMutex = false) :
    ((s.signal .mutex).goto p l).mutexUse = s.mutexUse := by
  have h := s.inMutex_update p l
  rw [hl, hl'] at h
  simp only [Bool.false_eq_true, if_false, add_zero, if_true] at h
  unfold mutexUse inMutex
  rw [goto_mutex, signal_mutex_val, goto_line, signal_line]
  simp only [inMutex] at h
  omega

/-- **Every step keeps the mutex's count plus its holders.** -/
theorem mutexUse_step {s t : WrSys} {a : Fin NPROC × WrOp} (h : s.step a = some t) :
    t.mutexUse = s.mutexUse := by
  obtain ⟨p, op⟩ := a
  cases op with
  | beginWrite | beginRead =>
    simp only [step, Option.ite_none_right_eq_some, Option.some.injEq] at h
    obtain ⟨hl, rfl⟩ := h
    exact s.mutexUse_goto p _ (by rw [hl]; rfl)
  | next =>
    simp only [step, Option.ite_none_right_eq_some, Option.some.injEq] at h
    obtain ⟨-, rfl⟩ := h
    -- one case per line of the source, each through the lemma for its kind of line
    have hnm : ∀ (u : WrSys) (x : WrSem), x ≠ .mutex → ∀ l, (u.line p).inMutex = l.inMutex →
        ((u.signal x).goto p l).mutexUse = u.mutexUse := fun u x hx l hl =>
      (mutexUse_goto _ p l (by rw [signal_line]; exact hl)).trans (u.mutexUse_signal_ne hx)
    generalize hl : s.line p = l
    cases l with
    | idle => rfl
    | aw0 => exact s.mutexUse_wait_mutex p _ (by rw [hl]; rfl) rfl
    | aw1 =>
      simp only [run]
      split
      · exact s.mutexUse_goto p _ (by rw [hl]; rfl)
      · exact hnm s .okToWrite (by decide) _ (by rw [hl]; rfl)
    | aw2 => exact s.mutexUse_signal_mutex_goto p _ (by rw [hl]; rfl) rfl
    | aw3 => exact s.mutexUse_wait_ne p _ (by decide) (by rw [hl]; rfl)
    | writing => exact s.mutexUse_goto p _ (by rw [hl]; rfl)
    | rw0 => exact s.mutexUse_wait_mutex p _ (by rw [hl]; rfl) rfl
    | rw1 =>
      simp only [run]
      split
      · exact hnm { s with aw := s.aw - 1 } .okToWrite (by decide) _ (by rw [hl]; rfl)
      · split
        · exact hnm { s with aw := s.aw - 1 } .okToRead (by decide) _ (by rw [hl]; rfl)
        · exact mutexUse_goto { s with aw := s.aw - 1 } p _ (by rw [hl]; rfl)
    | rw2 => exact s.mutexUse_signal_mutex_goto p _ (by rw [hl]; rfl) rfl
    | ar0 => exact s.mutexUse_wait_mutex p _ (by rw [hl]; rfl) rfl
    | ar1 =>
      simp only [run]
      split
      · exact s.mutexUse_goto p _ (by rw [hl]; rfl)
      · exact hnm s .okToRead (by decide) _ (by rw [hl]; rfl)
    | ar2 => exact s.mutexUse_signal_mutex_goto p _ (by rw [hl]; rfl) rfl
    | ar3 => exact s.mutexUse_wait_ne p _ (by decide) (by rw [hl]; rfl)
    | reading => exact s.mutexUse_goto p _ (by rw [hl]; rfl)
    | rr0 => exact s.mutexUse_wait_mutex p _ (by rw [hl]; rfl) rfl
    | rr1 =>
      simp only [run]
      split
      · exact mutexUse_goto { s with ar := s.ar - 1 } p _ (by rw [hl]; rfl)
      · exact mutexUse_goto { s with ar := s.ar - 1 } p _ (by rw [hl]; rfl)
    | rr2 => exact s.mutexUse_signal_mutex_goto p _ (by rw [hl]; rfl) rfl

/-- **The mutex of `wr_lock` excludes**: at every reachable state its count plus the processes
between `sem_wait(&lk->mutex)` and `sem_signal(&lk->mutex)` is `1`, so at most one process
touches the counters at a time. -/
theorem mutex_excludes {s : WrSys} (h : s.Reachable) : s.mutex.val + s.inMutex = 1 :=
  Run.Reachable.induction (fun s : WrSys => s.mutexUse = 1)
    (fun s hs => by
      rw [hs]
      show 1 + tally (fun _ => WrLine.idle) _ = 1
      rw [(tally_eq_zero _ _).mpr (fun _ => by decide)])
    (fun _ _ _ hs hstep => (mutexUse_step hstep).trans hs) h

end WrSys

set_option maxRecDepth 100000 in
/-- Two writers, one after the other: both pass `sem_wait(&lk->okToWrite)` and are in their
sections together. -/
theorem two_writers :
    ∃ s, WrSys.Reachable s ∧ s.line 0 = .writing ∧ s.line 1 = .writing := by
  obtain ⟨s, hs, hf⟩ := WrSys.exists_reachable_of_exec
    [(0, .beginWrite), (0, .next), (0, .next), (0, .next), (0, .next),
      (1, .beginWrite), (1, .next), (1, .next), (1, .next), (1, .next)]
    (f := fun s => (s.line 0, s.line 1)) (b := (.writing, .writing)) (by decide)
  simp only [Prod.mk.injEq] at hf
  exact ⟨s, hs, hf.1, hf.2⟩

end Xv6Lab
