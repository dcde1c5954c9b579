import Xv6Lab.Kernel.Basic
import Xv6Lab.Lib.Run

/-!
# Counting semaphores (`semaphore.c`)

`struct semaphore` keeps a count `val` and a circular queue `thread[NPROC]` of waiting
processes, from `next` (the head) to `end` (one past the tail).  Every field is read and written
with `s->lock` held, so each operation is one atomic step:

* `Sem.waitTest` — one test of `sem_wait`'s loop `while (s->val == 0)`: with no unit left the
  caller appends itself at `end` and sleeps, otherwise it takes a unit and returns;
* `Sem.signal` — `sem_signal`: one more unit, and the process at `next`, if any, is dequeued and
  passed to `wakeup`.

`sem_wait` sleeps on `myproc()`, the address of the caller's own `struct proc`.  That channel is
not the semaphore's: `exit` wakes a parent that sleeps on it (`wakeup1(curproc->parent)`), and
`kill` wakes any sleeper.  `SemSys` is one semaphore with the processes that use it: each is
outside `sem_wait`, asleep in it, or woken in it (runnable, about to test `val` again).  Its
steps are `sem_wait`, the retest of a woken waiter, `sem_signal`, and `wake`: a wakeup of a
waiter that comes from outside the semaphore.

`SemSys.Stranded` is a state where a unit is free and a waiter sleeps, yet no waiter is about to
take the unit.  `stranded_by_outside_wakeup` reaches one: a waiter woken from outside tests
`val`, finds it `0` and queues itself a second time, so a later `sem_signal` wakes the stale
entry instead of the process behind it.
-/

namespace Xv6Lab

/-- `struct semaphore`, without its spin lock. -/
structure Sem where
  val : ℕ
  thread : Fin NPROC → Option (Fin NPROC)
  next : Fin NPROC
  /-- `end`. -/
  tail : Fin NPROC

/-- `sem_init(s, i)`. -/
def semInit (i : ℕ) : Sem := ⟨i, fun _ => none, 0, 0⟩

/-- One test of `while (s->val == 0)` in `sem_wait` by process `p`: `false` when `p` appended
itself at `end` and sleeps, `true` when it took a unit. -/
def Sem.waitTest (s : Sem) (p : Fin NPROC) : Sem × Bool :=
  if s.val = 0 then
    ({ s with thread := Function.update s.thread s.tail (some p), tail := s.tail + 1 }, false)
  else ({ s with val := s.val - 1 }, true)

/-- `sem_signal(s)`, with the process it passes to `wakeup` when the head entry is set. -/
def Sem.signal (s : Sem) : Sem × Option (Fin NPROC) :=
  match s.thread s.next with
  | none => ({ s with val := s.val + 1 }, none)
  | some q =>
    ({ s with
        val := s.val + 1, thread := Function.update s.thread s.next none, next := s.next + 1 },
      some q)

/-- Where a process stands with respect to `sem_wait(s)`. -/
inductive SemPc where
  /-- Not inside `sem_wait(s)`. -/
  | out
  /-- `SLEEPING` inside `sem_wait(s)`, on the address of its own `struct proc`. -/
  | asleep
  /-- Made `RUNNABLE` inside `sem_wait(s)`: it will take `s->lock` and test `val` again. -/
  | woken
  deriving DecidableEq, Repr

/-- `wakeup(q)` on the address of `q`'s `struct proc`: `q` becomes runnable if it sleeps in
`sem_wait`. -/
def wakeProc (pc : Fin NPROC → SemPc) (q : Fin NPROC) : Fin NPROC → SemPc :=
  if pc q = .asleep then Function.update pc q .woken else pc

/-- One semaphore and the processes that use it. -/
structure SemSys where
  sem : Sem
  pc : Fin NPROC → SemPc

/-- The steps of a `SemSys`. -/
inductive SemOp where
  | wait
  | resume
  | signal
  | wake
  deriving DecidableEq, Repr

namespace SemSys

/-- Process `p` tests `val` in `sem_wait`, with the lock held. -/
def test (s : SemSys) (p : Fin NPROC) : SemSys :=
  let r := s.sem.waitTest p
  ⟨r.1, Function.update s.pc p (if r.2 then .out else .asleep)⟩

/-- `sem_signal`, waking the dequeued process. -/
def signal (s : SemSys) : SemSys :=
  let r := s.sem.signal
  ⟨r.1, match r.2 with
    | some q => wakeProc s.pc q
    | none => s.pc⟩

/-- One step by (or, for `wake`, on) process `p`: `none` when `p` cannot take it. -/
def step (s : SemSys) : Fin NPROC × SemOp → Option SemSys
  | (p, .wait) => if s.pc p = .out then some (s.test p) else none
  | (p, .resume) => if s.pc p = .woken then some (s.test p) else none
  | (p, .signal) => if s.pc p = .out then some s.signal else none
  | (p, .wake) => if s.pc p = .asleep then some ⟨s.sem, wakeProc s.pc p⟩ else none

/-- A semaphore just initialised, with every process outside it. -/
def init (i : ℕ) : SemSys := ⟨semInit i, fun _ => .out⟩

def Init (s : SemSys) : Prop := ∃ i, s = init i

def Reachable : SemSys → Prop := Run.Reachable step Init

/-- The run of `ls` from a semaphore initialised to `i`. -/
def run (i : ℕ) (ls : List (Fin NPROC × SemOp)) : Option SemSys := Run.exec step (init i) ls

/-- An observation of a run is an observation of a reachable state. -/
theorem exists_reachable_of_run {β : Type*} {i : ℕ} (ls : List (Fin NPROC × SemOp))
    {f : SemSys → β} {b : β} (h : (run i ls).map f = some b) : ∃ s, Reachable s ∧ f s = b :=
  Run.exists_reachable_of_exec_map ls ⟨i, rfl⟩ h

/-- A unit is free and a process sleeps in `sem_wait`, but no process in `sem_wait` is runnable
to take the unit. -/
def Stranded (s : SemSys) : Prop :=
  0 < s.sem.val ∧ (∃ p, s.pc p = .asleep) ∧ ∀ q, s.pc q ≠ .woken

instance (s : SemSys) : Decidable s.Stranded := by
  unfold Stranded
  infer_instance

end SemSys

set_option maxRecDepth 100000 in
/-- Process 0 waits and is woken from outside (a child's `exit`); it retests, finds no unit and
queues itself again.  Process 1 waits behind it.  Two signals: the first wakes process 0, which
takes the unit; the second wakes the stale entry of process 0, and process 1 sleeps on with a
unit free. -/
theorem stranded_by_outside_wakeup : ∃ s, SemSys.Reachable s ∧ s.Stranded := by
  obtain ⟨s, hs, hst⟩ := SemSys.exists_reachable_of_run (i := 0)
    [(0, .wait), (0, .wake), (0, .resume), (1, .wait), (2, .signal), (0, .resume), (2, .signal)]
    (f := fun s => decide s.Stranded) (b := true) (by decide)
  exact ⟨s, hs, of_decide_eq_true hst⟩

end Xv6Lab
