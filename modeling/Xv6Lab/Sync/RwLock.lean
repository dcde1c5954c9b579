import Xv6Lab.Sync.Semaphore
import Xv6Lab.Lib.Tally

/-!
# The reader-preferring reader/writer lock (`rw_lock.c`)

`struct rw_lock` is two semaphores, `mutex` and `wrt`, both initialised to `1`, and a count
`readcount`.  A writer brackets its section with `sem_wait(&lk->wrt)` and `sem_signal(&lk->wrt)`.
A reader takes `mutex`, counts itself in and, as the first reader, waits on `wrt` while it still
holds `mutex`, then gives `mutex` back; on its way out it takes `mutex`, counts itself out and,
as the last reader, signals `wrt` (which the first reader, maybe another process, took), then
gives `mutex` back.  `sys_rwtest` brackets each read and each write so.

A process is at a line of the four functions (`RwLine`) and, inside a `sem_wait`, at a `SemPc`.
`RwSys.step` begins a write or a read, runs a process's line, or wakes a sleeping process from
outside the lock: `sem_wait` sleeps on the caller's own `struct proc`, which `exit` and `kill`
also wake.

* `RwInv` — the joint invariant: `mutex.val` plus the processes holding `mutex` is `1`;
  `readcount` is the number of readers between the increment and the decrement; the first
  reader waiting on `wrt` sees `readcount = 1`, the last reader about to signal it sees `0`;
  and `wrt.val`, plus the writers holding `wrt`, plus one while the readers hold it, is `1`;
* `rwInv_step` — every step keeps it, outside wakeups included;
* `rw_excludes` — no writer is in its section together with another writer or with a reader;
* `readcount_counts_readers` — `readcount` is the number of readers that passed the increment
  and not yet the decrement.
-/

namespace Xv6Lab

open Function Tally

/-- The semaphores of `struct rw_lock`. -/
inductive RwSem where
  | mutex
  | wrt
  deriving DecidableEq, Repr

/-- Where a process stands in `rw_lock.c`. -/
inductive RwLine where
  /-- Outside the lock, between sections of `sys_rwtest`. -/
  | idle
  /-- `acquire_writer`: `sem_wait(&lk->wrt)`. -/
  | aw0
  /-- In the writer's section. -/
  | writing
  /-- `release_writer`: `sem_signal(&lk->wrt)`. -/
  | rw0
  /-- `acquire_reader`: `sem_wait(&lk->mutex)`. -/
  | ar0
  /-- `lk->readcount++; if (lk->readcount == 1)`. -/
  | ar1
  /-- The first reader's `sem_wait(&lk->wrt)`. -/
  | ar2
  /-- `sem_signal(&lk->mutex)`. -/
  | ar3
  /-- In the reader's section. -/
  | reading
  /-- `release_reader`: `sem_wait(&lk->mutex)`. -/
  | rr0
  /-- `lk->readcount--; if (lk->readcount == 0)`. -/
  | rr1
  /-- The last reader's `sem_signal(&lk->wrt)`. -/
  | rr2
  /-- `sem_signal(&lk->mutex)`. -/
  | rr3
  deriving DecidableEq, Repr

namespace RwLine

/-- The lines between `sem_wait(&lk->mutex)` and `sem_signal(&lk->mutex)`. -/
def inMutex : RwLine → Bool
  | ar1 | ar2 | ar3 | rr1 | rr2 | rr3 => true
  | _ => false

/-- The readers between `lk->readcount++` and `lk->readcount--`. -/
def counted : RwLine → Bool
  | ar2 | ar3 | reading | rr0 | rr1 => true
  | _ => false

/-- The writers that hold `wrt`. -/
def writer : RwLine → Bool
  | writing | rw0 => true
  | _ => false

/-- The readers that hold `wrt` for all readers: from the first reader's `sem_wait(&lk->wrt)`
to the last reader's `sem_signal(&lk->wrt)`. -/
def group : RwLine → Bool
  | ar3 | reading | rr0 | rr1 | rr2 => true
  | _ => false

/-- Outside the mutex, the counted readers are the readers that hold `wrt`. -/
theorem group_eq_counted {l : RwLine} (hm : l.inMutex = false) : l.group = l.counted := by
  revert hm
  cases l <;> decide

end RwLine

/-- The lock, where each process stands, and each process's place in the `sem_wait` of its
line. -/
structure RwSys where
  sem : RwSem → Sem
  readcount : ℤ
  line : Fin NPROC → RwLine
  st : Fin NPROC → SemPc

/-- The steps: a process starts a write or a read or runs its current line, or a sleeping
process is woken from outside the lock. -/
inductive RwOp where
  | beginWrite
  | beginRead
  | next
  | wake
  deriving DecidableEq, Repr

namespace RwSys

/-- `sem_signal(x)`, waking its head process. -/
def signal (s : RwSys) (x : RwSem) : RwSys :=
  let r := (s.sem x).signal
  { s with
    sem := update s.sem x r.1
    st := match r.2 with
      | some q => wakeProc s.st q
      | none => s.st }

/-- One test of `sem_wait(x)` by `p`: on a unit it moves on to line `l`, otherwise it queues
itself and sleeps. -/
def wait (s : RwSys) (p : Fin NPROC) (x : RwSem) (l : RwLine) : RwSys :=
  let r := (s.sem x).waitTest p
  if r.2 then
    { s with sem := update s.sem x r.1, line := update s.line p l, st := update s.st p .out }
  else { s with sem := update s.sem x r.1, st := update s.st p .asleep }

/-- Move `p` to line `l`. -/
def goto (s : RwSys) (p : Fin NPROC) (l : RwLine) : RwSys :=
  { s with line := update s.line p l }

/-- Run line `l` of process `p`. -/
def run (s : RwSys) (p : Fin NPROC) : RwLine → RwSys
  | .idle => s
  | .aw0 => s.wait p .wrt .writing
  | .writing => s.goto p .rw0
  | .rw0 => (s.signal .wrt).goto p .idle
  | .ar0 => s.wait p .mutex .ar1
  | .ar1 =>
    let s : RwSys := { s with readcount := s.readcount + 1 }
    s.goto p (if s.readcount = 1 then .ar2 else .ar3)
  | .ar2 => s.wait p .wrt .ar3
  | .ar3 => (s.signal .mutex).goto p .reading
  | .reading => s.goto p .rr0
  | .rr0 => s.wait p .mutex .rr1
  | .rr1 =>
    let s : RwSys := { s with readcount := s.readcount - 1 }
    s.goto p (if s.readcount = 0 then .rr2 else .rr3)
  | .rr2 => (s.signal .wrt).goto p .rr3
  | .rr3 => (s.signal .mutex).goto p .idle

/-- One step by (or, for `wake`, on) process `p`: `none` when it cannot be taken now. -/
def step (s : RwSys) : Fin NPROC × RwOp → Option RwSys
  | (p, .beginWrite) => if s.line p = .idle then some (s.goto p .aw0) else none
  | (p, .beginRead) => if s.line p = .idle then some (s.goto p .ar0) else none
  | (p, .next) =>
    if s.line p ≠ .idle ∧ s.st p ≠ .asleep then some (s.run p (s.line p)) else none
  | (p, .wake) => if s.st p = .asleep then some { s with st := wakeProc s.st p } else none

/-- `init_rw_lock`: both semaphores at `1`, no reader counted. -/
def init : RwSys := ⟨fun _ => semInit 1, 0, fun _ => .idle, fun _ => .out⟩

def Init (s : RwSys) : Prop := s = init

def Reachable : RwSys → Prop := Run.Reachable step Init

/-- The run of `ls` from `init_rw_lock`. -/
def exec (ls : List (Fin NPROC × RwOp)) : Option RwSys := Run.exec step init ls

/-- The number of processes at a line of class `c`. -/
def count (s : RwSys) (c : RwLine → Bool) : ℕ := tally s.line fun l => c l = true

/-- Some reader holds `wrt` for all readers. -/
def GroupHeld (s : RwSys) : Prop := ∃ q, (s.line q).group = true

instance (s : RwSys) : Decidable s.GroupHeld :=
  inferInstanceAs (Decidable (∃ q : Fin NPROC, (s.line q).group = true))

/-! ### What each operation changes -/

section Ops

variable (s : RwSys) (p : Fin NPROC) (x : RwSem) (l : RwLine)

@[simp] theorem goto_sem : (s.goto p l).sem = s.sem := rfl

@[simp] theorem goto_readcount : (s.goto p l).readcount = s.readcount := rfl

@[simp] theorem goto_line : (s.goto p l).line = update s.line p l := rfl

@[simp] theorem signal_line : (s.signal x).line = s.line := rfl

@[simp] theorem signal_readcount : (s.signal x).readcount = s.readcount := rfl

@[simp] theorem signal_val_self : ((s.signal x).sem x).val = (s.sem x).val + 1 := by
  simp only [signal, update_self, Sem.signal]
  split <;> rfl

theorem signal_sem_ne {y : RwSem} (h : y ≠ x) : (s.signal x).sem y = s.sem y :=
  update_of_ne h _ _

@[simp] theorem wait_readcount : (s.wait p x l).readcount = s.readcount := by
  unfold wait
  dsimp only
  split <;> rfl

theorem wait_sem_ne {y : RwSem} (h : y ≠ x) : (s.wait p x l).sem y = s.sem y := by
  unfold wait
  dsimp only
  split <;> exact update_of_ne h _ _

variable {s p x l}

/-- `sem_wait` with no unit left: the caller only queues itself. -/
theorem wait_of_zero (hv : (s.sem x).val = 0) :
    ((s.wait p x l).sem x).val = (s.sem x).val ∧ (s.wait p x l).line = s.line := by
  simp [wait, Sem.waitTest, hv]

/-- `sem_wait` on a unit: the caller takes it and moves on. -/
theorem wait_of_pos (hv : 0 < (s.sem x).val) :
    ((s.wait p x l).sem x).val + 1 = (s.sem x).val ∧ (s.wait p x l).line = update s.line p l := by
  have hz : (s.sem x).val ≠ 0 := Nat.pos_iff_ne_zero.mp hv
  constructor
  · simp only [wait, Sem.waitTest, hz, if_false, if_true, update_self]
    omega
  · simp [wait, Sem.waitTest, hz]

end Ops

/-- Moving `p` to `l'` changes a class's count by the two lines' votes. -/
theorem count_move {s t : RwSys} {p : Fin NPROC} {l' : RwLine}
    (ht : t.line = update s.line p l') (c : RwLine → Bool) :
    t.count c + (if c (s.line p) = true then 1 else 0) = s.count c + (if c l' = true then 1 else 0) := by
  unfold count
  rw [ht]
  exact tally_update (fun l => c l = true) s.line p l'

/-- The readers hold `wrt` after `p` moves to `l'` when `l'` is one of their lines or another
process is at one. -/
theorem groupHeld_move {s t : RwSys} {p : Fin NPROC} {l' : RwLine}
    (ht : t.line = update s.line p l') :
    t.GroupHeld ↔ l'.group = true ∨ ∃ q, q ≠ p ∧ (s.line q).group = true := by
  unfold GroupHeld
  rw [ht]
  constructor
  · intro ⟨q, hq⟩
    by_cases hqp : q = p
    · subst hqp
      rw [update_self] at hq
      exact Or.inl hq
    · rw [update_of_ne hqp] at hq
      exact Or.inr ⟨q, hqp, hq⟩
  · intro hor
    rcases hor with hl | ⟨q, hqp, hq⟩
    · exact ⟨p, by rw [update_self]; exact hl⟩
    · exact ⟨q, by rw [update_of_ne hqp]; exact hq⟩

theorem groupHeld_iff (s : RwSys) (p : Fin NPROC) :
    s.GroupHeld ↔ (s.line p).group = true ∨ ∃ q, q ≠ p ∧ (s.line q).group = true :=
  groupHeld_move (update_eq_self p s.line).symm

theorem exists_reachable_of_exec {β : Type*} (ls : List (Fin NPROC × RwOp)) {f : RwSys → β}
    {b : β} (h : (exec ls).map f = some b) : ∃ s, Reachable s ∧ f s = b :=
  Run.exists_reachable_of_exec_map ls (show Init init from rfl) h

end RwSys

/-! ### The invariant -/

/-- **The `rw_lock` invariant.** -/
structure RwInv (s : RwSys) : Prop where
  mutex_eq : (s.sem .mutex).val + s.count RwLine.inMutex = 1
  readcount_eq : s.readcount = s.count RwLine.counted
  first_reader : ∀ p, s.line p = .ar2 → s.readcount = 1
  last_reader : ∀ p, s.line p = .rr2 → s.readcount = 0
  wrt_eq : (s.sem .wrt).val + s.count RwLine.writer + (if s.GroupHeld then 1 else 0) = 1

theorem rwInv_init : RwInv RwSys.init where
  mutex_eq := by
    show 1 + tally (fun _ => RwLine.idle) _ = 1
    rw [(tally_eq_zero _ _).mpr fun _ => by decide]
  readcount_eq := by
    show (0 : ℤ) = (tally (fun _ => RwLine.idle) _ : ℕ)
    rw [(tally_eq_zero _ _).mpr fun _ => by decide]
    rfl
  first_reader _ hp := by simp [RwSys.init] at hp
  last_reader _ hp := by simp [RwSys.init] at hp
  wrt_eq := by
    have hg : ¬RwSys.init.GroupHeld := fun ⟨_, hq⟩ => by simp [RwSys.init, RwLine.group] at hq
    show 1 + tally (fun _ => RwLine.idle) _ + _ = 1
    rw [(tally_eq_zero _ _).mpr fun _ => by decide, if_neg hg]

namespace RwInv

variable {s t : RwSys} (h : RwInv s) {p : Fin NPROC} {l' : RwLine}
  (hl : t.line = update s.line p l')
include h

/-- At most one process holds `mutex`. -/
theorem mutex_unique {q r : Fin NPROC} (hq : (s.line q).inMutex = true)
    (hr : (s.line r).inMutex = true) : q = r := by
  have hle : tally s.line (fun l => l.inMutex = true) ≤ 1 := by
    have := h.mutex_eq
    unfold RwSys.count at this
    omega
  exact eq_of_tally_le_one _ hle hq hr

/-- While `p` holds `mutex`, any other process holds `wrt` with the readers exactly when it is
counted in `readcount`. -/
theorem group_eq_counted (hp : (s.line p).inMutex = true) {q : Fin NPROC} (hqp : q ≠ p) :
    (s.line q).group = (s.line q).counted := by
  cases hqm : (s.line q).inMutex with
  | true => exact absurd (h.mutex_unique hqm hp) hqp
  | false => exact RwLine.group_eq_counted hqm

/-- While `p` holds `mutex`, no other process is at the first reader's or the last reader's
line, both inside the mutex. -/
theorem not_ar2_rr2 (hp : (s.line p).inMutex = true) {q : Fin NPROC} (hqp : q ≠ p) :
    s.line q ≠ .ar2 ∧ s.line q ≠ .rr2 := by
  constructor <;> intro hq <;> exact hqp (h.mutex_unique (by rw [hq]; rfl) hp)

/-! Each field after `p` moves to `l'`, from what the move does to its own quantities. -/

include hl

theorem mutex_eq_move
    (hm : (t.sem .mutex).val + (if l'.inMutex = true then 1 else 0) =
      (s.sem .mutex).val + (if (s.line p).inMutex = true then 1 else 0)) :
    (t.sem .mutex).val + t.count RwLine.inMutex = 1 := by
  have hc := RwSys.count_move hl RwLine.inMutex
  have := h.mutex_eq
  omega

theorem readcount_eq_move
    (hrc : t.readcount + (if (s.line p).counted = true then 1 else 0) =
      s.readcount + (if l'.counted = true then 1 else 0)) :
    t.readcount = t.count RwLine.counted := by
  have hc := RwSys.count_move hl RwLine.counted
  have := h.readcount_eq
  push_cast [← Nat.cast_inj (R := ℤ)] at hc
  omega

theorem wrt_eq_move
    (hw : (t.sem .wrt).val + (if l'.writer = true then 1 else 0) + (if t.GroupHeld then 1 else 0) =
      (s.sem .wrt).val + (if (s.line p).writer = true then 1 else 0) +
        (if s.GroupHeld then 1 else 0)) :
    (t.sem .wrt).val + t.count RwLine.writer + (if t.GroupHeld then 1 else 0) = 1 := by
  have hc := RwSys.count_move hl RwLine.writer
  have := h.wrt_eq
  omega

omit h in
/-- A line other than `p`'s is the line it was. -/
theorem line_of_ne {q : Fin NPROC} (hqp : q ≠ p) : t.line q = s.line q := by
  rw [hl, update_of_ne hqp]

/-- A move by the holder of `mutex`: only its own new line can be the first reader's. -/
theorem first_reader_move (hp : (s.line p).inMutex = true)
    (hnew : l' = .ar2 → t.readcount = 1) : ∀ q, t.line q = .ar2 → t.readcount = 1 := by
  intro q hq
  by_cases hqp : q = p
  · subst hqp
    rw [hl, update_self] at hq
    exact hnew hq
  · exact absurd (by rw [← line_of_ne hl hqp]; exact hq) (h.not_ar2_rr2 hp hqp).1

/-- A move by the holder of `mutex`: only its own new line can be the last reader's. -/
theorem last_reader_move (hp : (s.line p).inMutex = true)
    (hnew : l' = .rr2 → t.readcount = 0) : ∀ q, t.line q = .rr2 → t.readcount = 0 := by
  intro q hq
  by_cases hqp : q = p
  · subst hqp
    rw [hl, update_self] at hq
    exact hnew hq
  · exact absurd (by rw [← line_of_ne hl hqp]; exact hq) (h.not_ar2_rr2 hp hqp).2

/-- **A move that keeps every vote but the mutex's and the writers'**, and the readcount, as
the `sem_wait`s and `sem_signal`s of `mutex` and the writer's lines do. -/
theorem of_move (hrc : t.readcount = s.readcount)
    (hm : (t.sem .mutex).val + (if l'.inMutex = true then 1 else 0) =
      (s.sem .mutex).val + (if (s.line p).inMutex = true then 1 else 0))
    (hw : (t.sem .wrt).val + (if l'.writer = true then 1 else 0) =
      (s.sem .wrt).val + (if (s.line p).writer = true then 1 else 0))
    (hc : l'.counted = (s.line p).counted) (hg : l'.group = (s.line p).group)
    (hfirst : l' = .ar2 → s.line p = .ar2) (hlast : l' = .rr2 → s.line p = .rr2) : RwInv t where
  mutex_eq := h.mutex_eq_move hl hm
  readcount_eq := h.readcount_eq_move hl (by rw [hrc, hc])
  first_reader q hq := by
    rw [hrc]
    by_cases hqp : q = p
    · subst hqp
      rw [hl, update_self] at hq
      exact h.first_reader q (hfirst hq)
    · exact h.first_reader q (by rw [← line_of_ne hl hqp]; exact hq)
  last_reader q hq := by
    rw [hrc]
    by_cases hqp : q = p
    · subst hqp
      rw [hl, update_self] at hq
      exact h.last_reader q (hlast hq)
    · exact h.last_reader q (by rw [← line_of_ne hl hqp]; exact hq)
  wrt_eq := by
    -- `p`'s vote for the readers is kept, so whether they hold `wrt` is too
    have hgr : t.GroupHeld ↔ s.GroupHeld := by
      rw [RwSys.groupHeld_move hl, hg, ← RwSys.groupHeld_iff]
    apply h.wrt_eq_move hl
    by_cases hs : s.GroupHeld
    · rw [if_pos hs, if_pos (hgr.mpr hs)]
      omega
    · rw [if_neg hs, if_neg (mt hgr.mp hs)]
      omega

omit hl

/-- A step that changes none of the quantities: a `sem_wait` that finds no unit, or a wakeup
from outside. -/
theorem of_same (hm : (t.sem .mutex).val = (s.sem .mutex).val)
    (hw : (t.sem .wrt).val = (s.sem .wrt).val) (hrc : t.readcount = s.readcount)
    (hls : t.line = s.line) : RwInv t :=
  h.of_move (p := 0) (by rw [hls, update_eq_self]) hrc (by rw [hm]) (by rw [hw]) rfl rfl id id

/-- A `sem_wait` that takes its unit when it can, and keeps the invariant then. -/
theorem wait {x : RwSem} {l : RwLine}
    (hpos : 0 < (s.sem x).val → RwInv (s.wait p x l)) : RwInv (s.wait p x l) := by
  by_cases hv : (s.sem x).val = 0
  · obtain ⟨hval, hls⟩ := RwSys.wait_of_zero (p := p) (l := l) hv
    -- only the semaphore's queue changed
    have hsame : ∀ y, ((s.wait p x l).sem y).val = (s.sem y).val := by
      intro y
      by_cases hy : y = x
      · subst hy
        exact hval
      · rw [RwSys.wait_sem_ne _ _ _ _ hy]
    exact h.of_same (hsame _) (hsame _) (RwSys.wait_readcount _ _ _ _) hls
  · exact hpos (Nat.pos_of_ne_zero hv)

/-! The four lines that move `readcount` or `wrt` for the readers. -/

/-- `lk->readcount++`: on to the first reader's `sem_wait(&lk->wrt)`, or past it while the
readers hold `wrt`. -/
theorem countIn (hp : s.line p = .ar1) : RwInv (s.run p .ar1) := by
  have hpm : (s.line p).inMutex = true := by rw [hp]; rfl
  simp only [RwSys.run]
  generalize hl' : (if s.readcount + 1 = 1 then RwLine.ar2 else .ar3) = l'
  have hcase : (l' = .ar2 ∧ s.readcount = 0) ∨ (l' = .ar3 ∧ s.readcount ≠ 0) := by
    rw [← hl']
    split <;> [left; right] <;> constructor <;> first | rfl | omega
  have hl'm : l'.inMutex = true := by rcases hcase with ⟨rfl, -⟩ | ⟨rfl, -⟩ <;> rfl
  have hl'c : l'.counted = true := by rcases hcase with ⟨rfl, -⟩ | ⟨rfl, -⟩ <;> rfl
  have hline : ({ s with readcount := s.readcount + 1 }.goto p l').line = update s.line p l' := rfl
  refine ⟨h.mutex_eq_move hline ?_, h.readcount_eq_move hline ?_,
    h.first_reader_move hline hpm fun hl2 => ?_, h.last_reader_move hline hpm fun hr2 => ?_,
    h.wrt_eq_move hline ?_⟩
  · rw [hl'm, hp]
    rfl
  · rw [hl'c, hp]
    show s.readcount + 1 + 0 = s.readcount + 1
    omega
  · -- `p` waits on `wrt` only as the first reader
    rcases hcase with ⟨-, hz⟩ | ⟨hl3, -⟩
    · show s.readcount + 1 = 1
      omega
    · exact absurd (hl2.symm.trans hl3) (by decide)
  · rcases hcase with ⟨rfl, -⟩ | ⟨rfl, -⟩ <;> cases hr2
  · rw [hp]
    rcases hcase with ⟨rfl, -⟩ | ⟨rfl, hnz⟩
    · -- the first reader: whether the readers hold `wrt` is unchanged
      have hgr := (RwSys.groupHeld_move hline).trans
        ((RwSys.groupHeld_iff s p).trans (by rw [hp]; exact Iff.rfl)).symm
      by_cases hs : s.GroupHeld
      · rw [if_pos hs, if_pos (hgr.mpr hs)]
        rfl
      · rw [if_neg hs, if_neg (mt hgr.mp hs)]
        rfl
    · -- a later reader: the readers already hold `wrt`, through a counted reader
      have hht : ({ s with readcount := s.readcount + 1 }.goto p .ar3).GroupHeld :=
        (RwSys.groupHeld_move hline).mpr (Or.inl rfl)
      obtain ⟨q, hq⟩ := exists_of_tally_ne_zero _
        (show s.count RwLine.counted ≠ 0 by have := h.readcount_eq; omega)
      have hqp : q ≠ p := by
        rintro rfl
        rw [hp] at hq
        cases hq
      have hhs : s.GroupHeld := ⟨q, by rw [h.group_eq_counted hpm hqp]; exact hq⟩
      rw [if_pos hhs, if_pos hht]
      rfl

/-- The first reader's `sem_wait(&lk->wrt)` takes the unit: the readers now hold `wrt`, and
no reader held it before. -/
theorem firstTakes (hp : s.line p = .ar2) (hv : 0 < (s.sem .wrt).val) :
    RwInv (s.wait p .wrt .ar3) := by
  obtain ⟨hval, hline⟩ := RwSys.wait_of_pos (p := p) (l := .ar3) hv
  have hpm : (s.line p).inMutex = true := by rw [hp]; rfl
  have hrc := h.first_reader p hp
  -- `p` is the only counted reader, and no other reader holds `wrt`
  have hnot : ¬s.GroupHeld := by
    intro ⟨q, hq⟩
    have hqp : q ≠ p := by
      rintro rfl
      rw [hp] at hq
      cases hq
    rw [h.group_eq_counted hpm hqp] at hq
    have hle : s.count RwLine.counted ≤ 1 := by have := h.readcount_eq; omega
    exact hqp (eq_of_tally_le_one _ hle hq (by rw [hp]; rfl))
  have hht : (s.wait p .wrt .ar3).GroupHeld := (RwSys.groupHeld_move hline).mpr (Or.inl rfl)
  refine ⟨h.mutex_eq_move hline ?_, h.readcount_eq_move hline ?_,
    h.first_reader_move hline hpm fun e => absurd e (by decide),
    h.last_reader_move hline hpm fun e => absurd e (by decide), h.wrt_eq_move hline ?_⟩
  · rw [RwSys.wait_sem_ne _ _ _ _ (by decide), hp]
    rfl
  · rw [RwSys.wait_readcount, hp]
    rfl
  · rw [hp, if_neg hnot, if_pos hht]
    show _ + 0 + 1 = _ + 0 + 0
    omega

/-- `lk->readcount--`: on to the last reader's `sem_signal(&lk->wrt)`, or past it while other
readers are inside. -/
theorem countOut (hp : s.line p = .rr1) : RwInv (s.run p .rr1) := by
  have hpm : (s.line p).inMutex = true := by rw [hp]; rfl
  simp only [RwSys.run]
  generalize hl' : (if s.readcount - 1 = 0 then RwLine.rr2 else .rr3) = l'
  have hcase : (l' = .rr2 ∧ s.readcount = 1) ∨ (l' = .rr3 ∧ s.readcount ≠ 1) := by
    rw [← hl']
    split <;> [left; right] <;> constructor <;> first | rfl | omega
  have hl'm : l'.inMutex = true := by rcases hcase with ⟨rfl, -⟩ | ⟨rfl, -⟩ <;> rfl
  have hl'c : l'.counted = false := by rcases hcase with ⟨rfl, -⟩ | ⟨rfl, -⟩ <;> rfl
  set t := { s with readcount := s.readcount - 1 }.goto p l' with ht
  have hline : t.line = update s.line p l' := rfl
  have hrct : t.readcount = t.count RwLine.counted := by
    apply h.readcount_eq_move hline
    rw [hl'c, hp]
    show s.readcount - 1 + 1 = s.readcount + 0
    omega
  refine ⟨h.mutex_eq_move hline ?_, hrct, h.first_reader_move hline hpm fun hl2 => ?_,
    h.last_reader_move hline hpm fun hr2 => ?_, h.wrt_eq_move hline ?_⟩
  · rw [hl'm, hp]
    rfl
  · rcases hcase with ⟨rfl, -⟩ | ⟨rfl, -⟩ <;> cases hl2
  · -- `p` signals `wrt` only as the last reader
    rcases hcase with ⟨-, hone⟩ | ⟨hl3, -⟩
    · show s.readcount - 1 = 0
      omega
    · exact absurd (hr2.symm.trans hl3) (by decide)
  · -- `p` held `wrt` with the readers before; after, they still hold it
    have hhs : s.GroupHeld := ⟨p, by rw [hp]; rfl⟩
    have hht : t.GroupHeld := by
      rcases hcase with ⟨rfl, -⟩ | ⟨rfl, hne⟩
      · exact (RwSys.groupHeld_move hline).mpr (Or.inl rfl)
      · -- another counted reader is left, outside the mutex
        obtain ⟨q, hq⟩ := exists_of_tally_ne_zero _
          (show t.count RwLine.counted ≠ 0 by
            have := h.readcount_eq
            have : t.readcount = s.readcount - 1 := rfl
            omega)
        have hqp : q ≠ p := by
          rintro rfl
          rw [hline, update_self] at hq
          cases hq
        rw [line_of_ne hline hqp] at hq
        exact ⟨q, by rw [line_of_ne hline hqp, h.group_eq_counted hpm hqp]; exact hq⟩
    rw [hp, if_pos hhs, if_pos hht]
    rcases hcase with ⟨rfl, -⟩ | ⟨rfl, -⟩ <;> rfl

/-- The last reader's `sem_signal(&lk->wrt)`: the readers give `wrt` back, and no other reader
is inside to hold it. -/
theorem lastGives (hp : s.line p = .rr2) : RwInv (s.run p .rr2) := by
  have hpm : (s.line p).inMutex = true := by rw [hp]; rfl
  have hrc := h.last_reader p hp
  simp only [RwSys.run]
  set t := (s.signal .wrt).goto p .rr3 with ht
  have hline : t.line = update s.line p .rr3 := rfl
  have hhs : s.GroupHeld := ⟨p, by rw [hp]; rfl⟩
  have hnot : ¬t.GroupHeld := by
    rw [RwSys.groupHeld_move hline]
    intro hor
    rcases hor with hg | ⟨q, hqp, hq⟩
    · cases hg
    · rw [h.group_eq_counted hpm hqp] at hq
      have hzero : s.count RwLine.counted = 0 := by have := h.readcount_eq; omega
      exact (tally_eq_zero _ _).mp hzero q hq
  refine ⟨h.mutex_eq_move hline ?_, h.readcount_eq_move hline ?_,
    h.first_reader_move hline hpm fun e => absurd e (by decide),
    h.last_reader_move hline hpm fun e => absurd e (by decide), h.wrt_eq_move hline ?_⟩
  · rw [RwSys.goto_sem, RwSys.signal_sem_ne _ _ (by decide), hp]
    rfl
  · rw [RwSys.goto_readcount, RwSys.signal_readcount, hp]
    rfl
  · rw [RwSys.goto_sem, RwSys.signal_val_self, hp, if_pos hhs, if_neg hnot]
    rfl

end RwInv

/-! ### Every step keeps the invariant -/

namespace RwSys

/-- **Step lemma**: every step keeps `RwInv`, a wakeup from outside included. -/
theorem rwInv_step {s t : RwSys} {a : Fin NPROC × RwOp} (h : RwInv s) (hst : s.step a = some t) :
    RwInv t := by
  obtain ⟨p, op⟩ := a
  cases op with
  | beginWrite | beginRead =>
    simp only [step, Option.ite_none_right_eq_some, Option.some.injEq] at hst
    obtain ⟨hl, rfl⟩ := hst
    exact h.of_move (goto_line _ _ _) rfl (by rw [hl]; rfl) (by rw [hl]; rfl) (by rw [hl]; rfl)
      (by rw [hl]; rfl) (fun h2 => absurd h2 (by decide)) (fun h2 => absurd h2 (by decide))
  | wake =>
    simp only [step, Option.ite_none_right_eq_some, Option.some.injEq] at hst
    obtain ⟨-, rfl⟩ := hst
    exact h.of_same rfl rfl rfl rfl
  | next =>
    simp only [step, Option.ite_none_right_eq_some, Option.some.injEq] at hst
    obtain ⟨-, rfl⟩ := hst
    -- one case per line of the source
    generalize hl : s.line p = l
    have hgo : ∀ (u : RwSys) (l' : RwLine), RwInv u → u.line p = l →
        l.inMutex = l'.inMutex → l.writer = l'.writer → l.counted = l'.counted →
        l.group = l'.group → l' ≠ .ar2 → l' ≠ .rr2 → RwInv (u.goto p l') := by
      intro u l' hu hul hm hw hc hg h2 hr2
      exact hu.of_move (goto_line _ _ _) rfl (by rw [hul, hm]; rfl) (by rw [hul, hw]; rfl)
        (by rw [hul, hc]) (by rw [hul, hg]) (fun e => absurd e h2) (fun e => absurd e hr2)
    cases l with
    | idle => exact h
    | aw0 =>
      apply h.wait
      intro hv
      obtain ⟨hval, hline⟩ := wait_of_pos (p := p) (l := .writing) hv
      exact h.of_move hline (wait_readcount _ _ _ _)
        (by rw [wait_sem_ne _ _ _ _ (by decide), hl]; rfl)
        (by rw [hl]; show _ + 1 = _ + 0; omega)
        (by rw [hl]; rfl) (by rw [hl]; rfl) (fun e => absurd e (by decide))
        (fun e => absurd e (by decide))
    | writing => exact hgo s _ h hl rfl rfl rfl rfl (by decide) (by decide)
    | rw0 =>
      dsimp only [run]
      exact h.of_move (goto_line _ _ _) rfl
        (by rw [goto_sem, signal_sem_ne _ _ (by decide), hl]; rfl)
        (by rw [goto_sem, signal_val_self, hl]; rfl) (by rw [hl]; rfl) (by rw [hl]; rfl)
        (fun e => absurd e (by decide)) (fun e => absurd e (by decide))
    | ar0 | rr0 =>
      apply h.wait
      intro hv
      obtain ⟨hval, hline⟩ := wait_of_pos (p := p) (l := _) hv
      exact h.of_move hline (wait_readcount _ _ _ _) (by rw [hl]; show _ + 1 = _ + 0; omega)
        (by rw [wait_sem_ne _ _ _ _ (by decide), hl]; rfl) (by rw [hl]; rfl) (by rw [hl]; rfl)
        (fun e => absurd e (by decide)) (fun e => absurd e (by decide))
    | ar1 => exact h.countIn hl
    | ar2 =>
      apply h.wait
      exact h.firstTakes hl
    | ar3 | rr3 =>
      dsimp only [run]
      exact h.of_move (goto_line _ _ _) rfl (by rw [goto_sem, signal_val_self, hl]; rfl)
        (by rw [goto_sem, signal_sem_ne _ _ (by decide), hl]; rfl) (by rw [hl]; rfl)
        (by rw [hl]; rfl) (fun e => absurd e (by decide)) (fun e => absurd e (by decide))
    | reading => exact hgo s _ h hl rfl rfl rfl rfl (by decide) (by decide)
    | rr1 => exact h.countOut hl
    | rr2 => exact h.lastGives hl

/-- **Run lemma**: the invariant holds at every reachable state. -/
theorem rwInv_reachable {s : RwSys} (hs : s.Reachable) : RwInv s :=
  Run.Reachable.induction RwInv (fun u hu => by rw [show u = init from hu]; exact rwInv_init)
    (fun _ _ _ hu hst => rwInv_step hu hst) hs

end RwSys

/-- **`rw_lock` excludes**: at every reachable state, a writer in its section is alone there:
no other writer and no reader is in its section. -/
theorem rw_excludes {s : RwSys} (hs : s.Reachable) {p q : Fin NPROC} (hp : s.line p = .writing) :
    (s.line q = .writing → q = p) ∧ s.line q ≠ .reading := by
  have h := RwSys.rwInv_reachable hs
  have hw := h.wrt_eq
  have hpos : 0 < s.count RwLine.writer := tally_pos _ (by rw [hp]; rfl)
  constructor
  · intro hq
    have hle : tally s.line (fun l => l.writer = true) ≤ 1 := by
      unfold RwSys.count at hw hpos
      omega
    exact eq_of_tally_le_one _ hle (by rw [hq]; rfl) (by rw [hp]; rfl)
  · intro hq
    have hg : s.GroupHeld := ⟨q, by rw [hq]; rfl⟩
    rw [if_pos hg] at hw
    omega

/-- **`readcount` counts the readers inside**: at every reachable state it is the number of
readers that passed `lk->readcount++` and not yet `lk->readcount--`. -/
theorem readcount_counts_readers {s : RwSys} (hs : s.Reachable) :
    s.readcount = tally s.line fun l => l.counted = true :=
  (RwSys.rwInv_reachable hs).readcount_eq

/-- **`rw_lock` is safe**: at every state reachable under any interleaving of the steps of the
four functions, each process bracketing its sections as `sys_rwtest` does, and of wakeups from
outside the lock, a writer in its section is alone there (no other writer, no reader), and
`readcount` is the number of readers that passed the increment in `acquire_reader` and not yet
the decrement in `release_reader`. -/
theorem rw_lock_safe {s : RwSys} (hs : s.Reachable) :
    (∀ p q, s.line p = .writing → (s.line q = .writing → q = p) ∧ s.line q ≠ .reading) ∧
      s.readcount = tally s.line fun l => l.counted = true :=
  ⟨fun _ _ hp => rw_excludes hs hp, readcount_counts_readers hs⟩

/-- Two readers in their sections at once, with the lock's safety there. -/
theorem rw_lock_safe_two_readers : ∃ s : RwSys, s.Reachable ∧ s.line 0 = .reading ∧
    s.line 1 = .reading ∧
    ((∀ p q, s.line p = .writing → (s.line q = .writing → q = p) ∧ s.line q ≠ .reading) ∧
      s.readcount = tally s.line fun l => l.counted = true) := by
  have h : (RwSys.exec [(0, .beginRead), (0, .next), (0, .next), (0, .next), (0, .next),
      (1, .beginRead), (1, .next), (1, .next), (1, .next)]).map (fun s => (s.line 0, s.line 1)) =
      some (.reading, .reading) := by
    decide
  obtain ⟨s, hs, hl⟩ := RwSys.exists_reachable_of_exec _ h
  exact ⟨s, hs, (Prod.mk.inj hl).1, (Prod.mk.inj hl).2, rw_lock_safe hs⟩

/-- Two readers in their sections together while a writer waits: the lock prefers readers. -/
example : (RwSys.exec [(0, .beginRead), (0, .next), (0, .next), (0, .next), (0, .next),
    (1, .beginRead), (1, .next), (1, .next), (1, .next), (2, .beginWrite), (2, .next)]).map
      (fun s => (s.line 0, s.line 1, s.line 2, s.st 2)) =
    some (.reading, .reading, .aw0, .asleep) := by
  decide

end Xv6Lab
