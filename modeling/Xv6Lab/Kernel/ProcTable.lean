import Xv6Lab.Kernel.MfqScheduler
import Xv6Lab.Kernel.SyscallLog

/-!
# The process table across CPUs (`proc.c`)

`ptable` holds `NPROC` slots and every CPU runs a scheduler loop.  All of `proc.c` runs under
`ptable.lock` except the middle of `fork`: `allocproc` takes the lock to claim an `UNUSED` slot
(an `EMBRYO` with the next pid), `fork` then copies the address space and sets `np->parent`
without it, and takes it again to make the child `RUNNABLE`.  Each hold of the lock is one step,
on any CPU, in any order; a process's kernel thread keeps where it is between two holds in its
`Pc`.

* a CPU without a process runs a step of `scheduler()` (a switch to the next `RUNNABLE` slot of
  its scan, or the end of the scan) or an iteration of `MFQscheduler()` (`mfqPass`);
* the process a CPU runs calls `fork`, `exit`, `wait`, `kill`, `sleep` on any channel, or
  `yield`s to the timer; any CPU may `wakeup` a channel, and CPU 0's clock advances `ticks`;
* `wait` that has to sleep sleeps on its own slot and scans again when it runs next.

A slot's kernel stack, page directory and files are left out: the step `forkCopy ok` says
whether `fork`'s `kalloc` of the child's stack and `copyuvm` succeed.  `nextpid` is an `int`
that wraps at 32 bits (`iwrap`).

* `ProcInv` — what every reachable table satisfies: a process is `RUNNING` exactly when one
  CPU runs it, init stays alive, and every live slot other than init and the `EMBRYO`s has a
  parent that is alive and not a `ZOMBIE`;
* `PidInv` — along a run in which `nextpid` has not wrapped, the pids of live slots are
  distinct, positive and below `nextpid`;
* `procs_well_formed` — both, with what a step of either scheduler and a `wait` do;
* `procs_wrong` — the gaps: a forked `EMBRYO` has no parent until `fork` sets it, and after
  `2^32 - 2` rounds of `fork`, `exit` and `wait`, the next `fork` gives init's pid to a second
  process.
-/

namespace Xv6Lab.Procs

open Function Scan Run

/-- `NCPU`. -/
abbrev NCPU : ℕ := 8

/-- `void *chan`: a slot (`wait` sleeps on its own), `&ticks`, or any other address. -/
inductive Chan where
  | proc (p : Fin NPROC)
  | ticks
  | other (a : ℕ)
  deriving DecidableEq, Repr

/-- Where a process's kernel thread is between two holds of `ptable.lock`. -/
inductive Pc where
  /-- At user level, or in a call that has not yet taken the lock. -/
  | user
  /-- In `fork`, `allocproc` having made `child` an `EMBRYO`. -/
  | forkAlloc (child : Fin NPROC)
  /-- In `fork`, after `np->parent = curproc`. -/
  | forkCopied (child : Fin NPROC)
  /-- In `wait`'s loop, asleep on its own slot or woken. -/
  | waiting
  deriving DecidableEq, Repr

/-- The child of a `fork` in progress. -/
def Pc.child : Pc → Option (Fin NPROC)
  | .forkAlloc q => some q
  | .forkCopied q => some q
  | _ => none

/-- The fields of `struct proc` that `proc.c`'s process-table code reads and writes. -/
structure Slot where
  state : ProcState
  pid : ℤ
  parent : Option (Fin NPROC)
  killed : Bool
  chan : Option Chan
  ctime : ℤ
  priority : ℤ
  MFQpriority : ℤ
  tickets : ℤ
  pc : Pc

/-- A slot of the zero-initialised `ptable`. -/
def Slot.zero : Slot := ⟨.unused, 0, none, false, none, 0, 0, 0, 0, .user⟩

/-- `e'` is `e` after wakeups, its parent aside: the same pid and `Pc`, and the same state or
woken from `SLEEPING`. -/
def Slot.Woken (e e' : Slot) : Prop :=
  e'.pid = e.pid ∧ e'.pc = e.pc ∧
    (e'.state = e.state ∨ e.state = .sleeping ∧ e'.state = .runnable)

theorem Slot.Woken.refl (e : Slot) : e.Woken e := ⟨rfl, rfl, Or.inl rfl⟩

theorem Slot.Woken.trans {e₁ e₂ e₃ : Slot} (h₁ : e₁.Woken e₂) (h₂ : e₂.Woken e₃) :
    e₁.Woken e₃ := by
  refine ⟨h₂.1.trans h₁.1, h₂.2.1.trans h₁.2.1, ?_⟩
  rcases h₁.2.2 with h₁ | ⟨h₁s, h₁r⟩ <;> rcases h₂.2.2 with h₂ | ⟨h₂s, h₂r⟩
  · exact Or.inl (h₂.trans h₁)
  · exact Or.inr ⟨h₁ ▸ h₂s, h₂r⟩
  · exact Or.inr ⟨h₁s, h₂.trans h₁r⟩
  · rw [h₁r] at h₂s
    cases h₂s

/-- What `wait()` leaves of a reaped slot. -/
def Slot.reaped (e : Slot) : Slot :=
  { e with
    pid := 0, parent := none, killed := false, ctime := 0, state := .unused, priority := 0,
    MFQpriority := 0, tickets := 0 }

/-- A CPU: `c->proc`, where `scheduler()`'s scan of the table stands, and `MFQscheduler()`'s
level bound. -/
structure Cpu where
  proc : Option (Fin NPROC)
  next : ℕ
  level : ℕ

/-- The process table, the CPUs, and the globals `nextpid`, `initproc`, `ticks` and `random`'s
words. -/
structure PTable where
  proc : Fin NPROC → Slot
  cpus : Fin NCPU → Cpu
  nextpid : ℤ
  initproc : Fin NPROC
  ticks : ℕ
  rng : Rng

namespace PTable

/-- Replace slot `p`. -/
def setProc (t : PTable) (p : Fin NPROC) (e : Slot) : PTable := { t with proc := update t.proc p e }

/-- Replace CPU `c`. -/
def setCpu (t : PTable) (c : Fin NCPU) (u : Cpu) : PTable := { t with cpus := update t.cpus c u }

@[simp] theorem setProc_self (t : PTable) (p : Fin NPROC) (e : Slot) : (t.setProc p e).proc p = e := by
  simp [setProc]

@[simp] theorem setProc_ne (t : PTable) {p q : Fin NPROC} (e : Slot) (h : q ≠ p) :
    (t.setProc p e).proc q = t.proc q := by
  simp [setProc, h]

@[simp] theorem setProc_cpus (t : PTable) (p : Fin NPROC) (e : Slot) :
    (t.setProc p e).cpus = t.cpus := rfl

@[simp] theorem setProc_nextpid (t : PTable) (p : Fin NPROC) (e : Slot) :
    (t.setProc p e).nextpid = t.nextpid := rfl

@[simp] theorem setProc_initproc (t : PTable) (p : Fin NPROC) (e : Slot) :
    (t.setProc p e).initproc = t.initproc := rfl

@[simp] theorem setCpu_self (t : PTable) (c : Fin NCPU) (u : Cpu) : (t.setCpu c u).cpus c = u := by
  simp [setCpu]

@[simp] theorem setCpu_ne (t : PTable) {c d : Fin NCPU} (u : Cpu) (h : d ≠ c) :
    (t.setCpu c u).cpus d = t.cpus d := by
  simp [setCpu, h]

@[simp] theorem setCpu_proc (t : PTable) (c : Fin NCPU) (u : Cpu) : (t.setCpu c u).proc = t.proc := rfl

@[simp] theorem setCpu_nextpid (t : PTable) (c : Fin NCPU) (u : Cpu) :
    (t.setCpu c u).nextpid = t.nextpid := rfl

@[simp] theorem setCpu_initproc (t : PTable) (c : Fin NCPU) (u : Cpu) :
    (t.setCpu c u).initproc = t.initproc := rfl

/-- The fields `MFQscheduler` reads. -/
def sched (t : PTable) : Fin NPROC → SchedProc := fun p =>
  ⟨(t.proc p).state, (t.proc p).MFQpriority, (t.proc p).tickets, (t.proc p).ctime,
    (t.proc p).priority⟩

/-! ### The calls -/

/-- `wakeup1(chan)`: every process `SLEEPING` on `chan` becomes `RUNNABLE`. -/
def wakeup1 (t : PTable) (chan : Option Chan) : PTable :=
  { t with proc := fun p =>
      if (t.proc p).state = .sleeping ∧ (t.proc p).chan = chan then
        { t.proc p with state := .runnable }
      else t.proc p }

/-- The locked part of `allocproc()`: the first `UNUSED` slot becomes an `EMBRYO` with pid
`nextpid++` and the lab's scheduling fields. -/
def allocproc (t : PTable) : PTable × Option (Fin NPROC) :=
  match firstIdx NPROC fun p => (t.proc p).state == .unused with
  | none => (t, none)
  | some p =>
    let e := { t.proc p with
      state := .embryo, pid := t.nextpid, ctime := uintToInt t.ticks, priority := 10,
      MFQpriority := 1, tickets := 100 }
    ({ t.setProc p e with nextpid := iwrap (t.nextpid + 1) }, some p)

/-- `fork()` by `cur` up to `allocproc`'s return: it returns `-1` without a free slot. -/
def forkAlloc (t : PTable) (cur : Fin NPROC) : PTable :=
  match t.allocproc with
  | (t, some q) => t.setProc cur { t.proc cur with pc := .forkAlloc q }
  | (t, none) => t

/-- `fork()` between the two holds of the lock: `ok` when `kalloc` of the child's stack and
`copyuvm` succeed; the child gets `cur` as its parent, or goes back to `UNUSED`. -/
def forkCopy (t : PTable) (cur q : Fin NPROC) (ok : Bool) : PTable :=
  if ok then
    let t := t.setProc q { t.proc q with parent := some cur }
    t.setProc cur { t.proc cur with pc := .forkCopied q }
  else
    let t := t.setProc q { t.proc q with state := .unused }
    t.setProc cur { t.proc cur with pc := .user }

/-- The end of `fork()`: the child becomes `RUNNABLE`. -/
def forkDone (t : PTable) (cur q : Fin NPROC) : PTable :=
  let t := t.setProc q { t.proc q with state := .runnable }
  t.setProc cur { t.proc cur with pc := .user }

/-- `exit()`'s loop over the table: the children of `cur` pass to init, and init is woken for a
`ZOMBIE` one. -/
def passChildren (cur : Fin NPROC) : PTable → List (Fin NPROC) → PTable
  | t, [] => t
  | t, p :: ps =>
    if (t.proc p).parent = some cur then
      let t := t.setProc p { t.proc p with parent := some t.initproc }
      let t := if (t.proc p).state = .zombie then t.wakeup1 (some (.proc t.initproc)) else t
      passChildren cur t ps
    else passChildren cur t ps

/-- `exit()` by `cur` on CPU `c`: panics for init; otherwise wakes the parent, passes the
children to init, becomes a `ZOMBIE` and switches to the scheduler. -/
def exit (t : PTable) (c : Fin NCPU) (cur : Fin NPROC) : Except Crash PTable :=
  if cur = t.initproc then .error (.panic "init exiting")
  else
    let t := t.wakeup1 ((t.proc cur).parent.map .proc)
    let t := passChildren cur t (List.finRange NPROC)
    let t := t.setProc cur { t.proc cur with state := .zombie }
    .ok (t.setCpu c { t.cpus c with proc := none })

/-- `wait()` by `cur` on CPU `c`: reaps the first `ZOMBIE` child and returns its pid; returns
`-1` without children or when killed; otherwise sleeps on its own slot (`none`), to scan again
when it next runs. -/
def wait (t : PTable) (c : Fin NCPU) (cur : Fin NPROC) : PTable × Option ℤ :=
  match firstIdx NPROC fun p => (t.proc p).parent == some cur && (t.proc p).state == .zombie with
  | some p =>
    let q := t.proc p
    let t := t.setProc p q.reaped
    (t.setProc cur { t.proc cur with pc := .user }, some q.pid)
  | none =>
    let havekids := (List.finRange NPROC).any fun p => (t.proc p).parent == some cur
    if !havekids || (t.proc cur).killed then (t.setProc cur { t.proc cur with pc := .user }, some (-1))
    else
      let t := t.setProc cur
        { t.proc cur with chan := some (.proc cur), state := .sleeping, pc := .waiting }
      (t.setCpu c { t.cpus c with proc := none }, none)

/-- `kill(pid)`: the first slot with that pid is marked, and made `RUNNABLE` if `SLEEPING`. -/
def kill (t : PTable) (pid : ℤ) : PTable × ℤ :=
  match firstIdx NPROC fun p => (t.proc p).pid == pid with
  | some p =>
    let q := t.proc p
    (t.setProc p { q with
      killed := true, state := if q.state = .sleeping then .runnable else q.state }, 0)
  | none => (t, -1)

/-- `sleep(chan, lk)` by `cur` on CPU `c`, from `p->chan = chan` to `sched()`. -/
def sleep (t : PTable) (c : Fin NCPU) (cur : Fin NPROC) (chan : Option Chan) : PTable :=
  let t := t.setProc cur { t.proc cur with chan := chan, state := .sleeping }
  t.setCpu c { t.cpus c with proc := none }

/-- `yield()` by `cur` on CPU `c`. -/
def yield (t : PTable) (c : Fin NCPU) (cur : Fin NPROC) : PTable :=
  let t := t.setProc cur { t.proc cur with state := .runnable }
  t.setCpu c { t.cpus c with proc := none }

/-- A scheduler's switch to `p` on CPU `c`: `c->proc = p` and `RUNNING`; and `p->chan = 0`, the
tidy-up of `sleep` that `p` runs before it lets go of the lock. -/
def switchTo (t : PTable) (c : Fin NCPU) (p : Fin NPROC) : PTable :=
  let t := t.setProc p { t.proc p with state := .running, chan := none }
  t.setCpu c { t.cpus c with proc := some p }

/-- A step of `scheduler()` on CPU `c`: switch to the first `RUNNABLE` slot from where the scan
stands, or end the scan, to start again from the first slot. -/
def scheduler (t : PTable) (c : Fin NCPU) : PTable :=
  match firstIdx NPROC fun p => decide ((t.cpus c).next ≤ p.val) && (t.proc p).state == .runnable with
  | some p => (t.setCpu c { t.cpus c with next := p.val + 1 }).switchTo c p
  | none => t.setCpu c { t.cpus c with next := 0 }

/-- An iteration of `MFQscheduler()`'s loop on CPU `c`. -/
def MFQscheduler (t : PTable) (c : Fin NCPU) : PTable :=
  match mfqPass t.sched (t.cpus c).level t.rng with
  | (some p, L, g) => ({ t with rng := g }.setCpu c { t.cpus c with level := L }).switchTo c p
  | (none, L, g) => { t with rng := g }.setCpu c { t.cpus c with level := L }

/-- CPU 0's clock interrupt: `ticks++` and `wakeup(&ticks)`. -/
def tick (t : PTable) : PTable := { t with ticks := wrap (t.ticks + 1) }.wakeup1 (some .ticks)

/-! ### What the calls do -/

/-- `allocproc` claims the first `UNUSED` slot, or changes nothing. -/
theorem allocproc_eq_some {t t' : PTable} {q : Fin NPROC} (h : t.allocproc = (t', some q)) :
    (t.proc q).state = .unused ∧
      t' = { t.setProc q { t.proc q with
        state := .embryo, pid := t.nextpid, ctime := uintToInt t.ticks, priority := 10,
        MFQpriority := 1, tickets := 100 } with nextpid := iwrap (t.nextpid + 1) } := by
  unfold allocproc at h
  split at h
  · cases h
  · next p hp =>
    obtain ⟨rfl, hpq⟩ := Prod.mk.inj h
    obtain rfl := Option.some.inj hpq
    obtain ⟨hq, -⟩ := (firstIdx_eq_some_iff _ _).mp hp
    exact ⟨by simpa using hq, rfl⟩

/-- The scan's answer decides `allocproc`'s result. -/
theorem allocproc_of_scan {t : PTable} {p : Fin NPROC}
    (h : firstIdx NPROC (fun p => (t.proc p).state == .unused) = some p) :
    t.allocproc = ({ t.setProc p { t.proc p with
      state := .embryo, pid := t.nextpid, ctime := uintToInt t.ticks, priority := 10,
      MFQpriority := 1, tickets := 100 } with nextpid := iwrap (t.nextpid + 1) }, some p) := by
  unfold allocproc
  rw [h]

theorem allocproc_eq_none {t t' : PTable} (h : t.allocproc = (t', none)) : t' = t := by
  unfold allocproc at h
  split at h
  · exact (Prod.mk.inj h).1.symm
  · cases h

theorem wakeup1_proc (t : PTable) (ch : Option Chan) (p : Fin NPROC) :
    (t.wakeup1 ch).proc p = if (t.proc p).state = .sleeping ∧ (t.proc p).chan = ch then
      { t.proc p with state := .runnable } else t.proc p := rfl

@[simp] theorem wakeup1_cpus (t : PTable) (ch : Option Chan) : (t.wakeup1 ch).cpus = t.cpus := rfl

@[simp] theorem wakeup1_initproc (t : PTable) (ch : Option Chan) :
    (t.wakeup1 ch).initproc = t.initproc := rfl

@[simp] theorem wakeup1_nextpid (t : PTable) (ch : Option Chan) :
    (t.wakeup1 ch).nextpid = t.nextpid := rfl

theorem wakeup1_woken (t : PTable) (ch : Option Chan) (p : Fin NPROC) :
    (t.proc p).Woken ((t.wakeup1 ch).proc p) ∧
      ((t.wakeup1 ch).proc p).parent = (t.proc p).parent := by
  rw [wakeup1_proc]
  split_ifs with hw
  · exact ⟨⟨rfl, rfl, Or.inr ⟨hw.1, rfl⟩⟩, rfl⟩
  · exact ⟨Slot.Woken.refl _, rfl⟩

/-- **`exit()`'s loop**: every child of `cur` in the list now has init as its parent; the slots
are otherwise only woken. -/
theorem passChildren_spec {cur : Fin NPROC} :
    ∀ (l : List (Fin NPROC)) (t : PTable), t.initproc ≠ cur →
      (passChildren cur t l).cpus = t.cpus ∧ (passChildren cur t l).initproc = t.initproc ∧
      (passChildren cur t l).nextpid = t.nextpid ∧
      ∀ p, ((passChildren cur t l).proc p).parent =
          (if p ∈ l ∧ (t.proc p).parent = some cur then some t.initproc else (t.proc p).parent) ∧
        (t.proc p).Woken ((passChildren cur t l).proc p)
  | [], t, _ => ⟨rfl, rfl, rfl, fun p => by simp [passChildren, Slot.Woken.refl]⟩
  | q :: l, t, hi => by
    by_cases hq : (t.proc q).parent = some cur
    · -- `q` passes to init, and init is woken if `q` is a `ZOMBIE`
      set t₁ := t.setProc q { t.proc q with parent := some t.initproc } with ht₁
      set t₂ := if (t₁.proc q).state = .zombie then t₁.wakeup1 (some (.proc t₁.initproc)) else t₁
        with ht₂
      have h₂ : t₂.cpus = t.cpus ∧ t₂.initproc = t.initproc ∧ t₂.nextpid = t.nextpid ∧
          ∀ p, (t₂.proc p).parent = (t₁.proc p).parent ∧ (t₁.proc p).Woken (t₂.proc p) := by
        rw [ht₂]
        split_ifs
        · exact ⟨rfl, rfl, rfl, fun p => ⟨(wakeup1_woken _ _ p).2, (wakeup1_woken _ _ p).1⟩⟩
        · exact ⟨rfl, rfl, rfl, fun p => ⟨rfl, Slot.Woken.refl _⟩⟩
      obtain ⟨hc₂, hi₂, hn₂, hs₂⟩ := h₂
      obtain ⟨hc, hi', hn, hs⟩ := passChildren_spec l t₂ (by rw [hi₂]; exact hi)
      have hrun : passChildren cur t (q :: l) = passChildren cur t₂ l := by
        simp only [passChildren, if_pos hq]
        rfl
      rw [hrun]
      refine ⟨hc.trans hc₂, hi'.trans hi₂, hn.trans hn₂, fun p => ⟨?_, ?_⟩⟩
      · rw [(hs p).1, (hs₂ p).1, hi₂]
        by_cases hpq : p = q
        · subst hpq
          simp [ht₁, hq, hi]
        · simp [ht₁, hpq]
      · have h₁ : (t.proc p).Woken (t₁.proc p) := by
          by_cases hpq : p = q
          · subst hpq
            rw [ht₁, setProc_self]
            exact ⟨rfl, rfl, Or.inl rfl⟩
          · rw [ht₁, setProc_ne _ _ hpq]
            exact Slot.Woken.refl _
        exact (h₁.trans (hs₂ p).2).trans (hs p).2
    · have hrun : passChildren cur t (q :: l) = passChildren cur t l := by
        simp only [passChildren, if_neg hq]
      rw [hrun]
      obtain ⟨hc, hi', hn, hs⟩ := passChildren_spec l t hi
      refine ⟨hc, hi', hn, fun p => ⟨?_, (hs p).2⟩⟩
      rw [(hs p).1]
      by_cases hpq : p = q
      · subst hpq
        simp [hq]
      · simp [hpq]

/-- **`wait()`'s three outcomes**: it reaps a `ZOMBIE` child, returns `-1` with no `ZOMBIE`
child, or sleeps on its own slot with no `ZOMBIE` child. -/
theorem wait_cases (t : PTable) (c : Fin NCPU) (cur : Fin NPROC) :
    (∃ p, (t.proc p).parent = some cur ∧ (t.proc p).state = .zombie ∧
      t.wait c cur = (((t.setProc p (t.proc p).reaped).setProc cur
        { (t.setProc p (t.proc p).reaped).proc cur with pc := .user }), some (t.proc p).pid)) ∨
    (∀ p, (t.proc p).parent = some cur → (t.proc p).state ≠ .zombie) ∧
      (t.wait c cur = (t.setProc cur { t.proc cur with pc := .user }, some (-1)) ∨
        t.wait c cur = ((t.setProc cur { t.proc cur with
          chan := some (.proc cur), state := .sleeping, pc := .waiting }).setCpu c
          { t.cpus c with proc := none }, none)) := by
  unfold wait
  split
  · next p hp =>
    obtain ⟨hz, -⟩ := (firstIdx_eq_some_iff _ _).mp hp
    simp only [Bool.and_eq_true, beq_iff_eq] at hz
    exact Or.inl ⟨p, hz.1, hz.2, rfl⟩
  · next hp =>
    have hnone := (firstIdx_eq_none_iff _).mp hp
    refine Or.inr ⟨fun p hpar hz => ?_, ?_⟩
    · have hp' := hnone p
      simp [hpar, hz] at hp'
    · dsimp only
      split_ifs
      · exact Or.inl rfl
      · exact Or.inr rfl

/-- `kill` marks a slot and wakes it from `SLEEPING`, and changes nothing else. -/
theorem kill_slots (t : PTable) (pid : ℤ) :
    (t.kill pid).1.cpus = t.cpus ∧ (t.kill pid).1.initproc = t.initproc ∧
      (t.kill pid).1.nextpid = t.nextpid ∧ ∀ r, (t.proc r).Woken ((t.kill pid).1.proc r) ∧
        ((t.kill pid).1.proc r).parent = (t.proc r).parent := by
  unfold kill
  split
  · next p _ =>
    refine ⟨rfl, rfl, rfl, fun r => ?_⟩
    by_cases hrp : r = p
    · subst hrp
      rw [setProc_self]
      refine ⟨⟨rfl, rfl, ?_⟩, rfl⟩
      dsimp only
      split_ifs with hs
      · exact Or.inr ⟨hs, rfl⟩
      · exact Or.inl rfl
    · rw [setProc_ne _ _ hrp]
      exact ⟨Slot.Woken.refl _, rfl⟩
  · exact ⟨rfl, rfl, rfl, fun r => ⟨Slot.Woken.refl _, rfl⟩⟩

/-- What a scheduler's step does to the table: it moves its CPU's cursor or level, or the random
words, and switches to a `RUNNABLE` process or to none. -/
def Dispatch (t : PTable) (c : Fin NCPU) (t' : PTable) : Prop :=
  ∃ t₁ : PTable, t₁.proc = t.proc ∧ t₁.nextpid = t.nextpid ∧ t₁.initproc = t.initproc ∧
    (∀ d, (t₁.cpus d).proc = (t.cpus d).proc) ∧
    (t' = t₁ ∨ ∃ p, (t.proc p).state = .runnable ∧ t' = t₁.switchTo c p)

theorem scheduler_dispatch (t : PTable) (c : Fin NCPU) : Dispatch t c (t.scheduler c) := by
  unfold scheduler
  split
  · next p hp =>
    have hpick := firstIdx_spec hp
    simp only [Bool.and_eq_true, decide_eq_true_eq, beq_iff_eq] at hpick
    refine ⟨t.setCpu c { t.cpus c with next := p.val + 1 }, rfl, rfl, rfl, fun d => ?_,
      Or.inr ⟨p, hpick.2, rfl⟩⟩
    by_cases hd : d = c
    · rw [hd]
      simp
    · simp [hd]
  · refine ⟨t.setCpu c { t.cpus c with next := 0 }, rfl, rfl, rfl, fun d => ?_, Or.inl rfl⟩
    by_cases hd : d = c
    · rw [hd]
      simp
    · simp [hd]

theorem MFQscheduler_dispatch (t : PTable) (c : Fin NCPU) : Dispatch t c (t.MFQscheduler c) := by
  have hcpu : ∀ (g : Rng) (L : ℕ) d,
      (({ t with rng := g }.setCpu c { t.cpus c with level := L }).cpus d).proc =
        (t.cpus d).proc := by
    intro g L d
    by_cases hd : d = c
    · rw [hd]
      simp
    · simp [hd]
  unfold MFQscheduler
  split
  · next p L g hp =>
    exact ⟨{ t with rng := g }.setCpu c { t.cpus c with level := L }, rfl, rfl, rfl, hcpu g L,
      Or.inr ⟨p, mfqPass_runnable hp, rfl⟩⟩
  · next L g _ =>
    exact ⟨{ t with rng := g }.setCpu c { t.cpus c with level := L }, rfl, rfl, rfl, hcpu g L,
      Or.inl rfl⟩

/-- A scheduler's step from an idle CPU runs a process only if it was `RUNNABLE`. -/
theorem Dispatch.runnable {t t' : PTable} {c : Fin NCPU} {p : Fin NPROC} (hd : Dispatch t c t')
    (hc : (t.cpus c).proc = none) (hp : (t'.cpus c).proc = some p) : (t.proc p).state = .runnable := by
  obtain ⟨t₁, -, -, -, hcpu, rfl | ⟨p', hp', rfl⟩⟩ := hd
  · rw [hcpu, hc] at hp
    cases hp
  · simp only [switchTo, setCpu_self, Option.some.injEq] at hp
    rw [← hp]
    exact hp'

end PTable

/-! ### Steps -/

/-- What a CPU does in one hold of `ptable.lock`. -/
inductive PAct where
  | fork
  | forkCopy (ok : Bool)
  | forkDone
  | exit
  | wait
  | kill (pid : ℤ)
  | sleep (chan : Option Chan)
  | wakeup (chan : Option Chan)
  | yield
  | tick
  | scheduler
  | mfqScheduler
  deriving DecidableEq, Repr

namespace PTable

/-- A step of the process `cur` that CPU `c` runs, by where its kernel thread stands. -/
def procStep (t : PTable) (c : Fin NCPU) (cur : Fin NPROC) : PAct → Option (Except Crash PTable)
  | .fork => if (t.proc cur).pc = .user then some (.ok (t.forkAlloc cur)) else none
  | .forkCopy ok =>
    match (t.proc cur).pc with
    | .forkAlloc q => some (.ok (t.forkCopy cur q ok))
    | _ => none
  | .forkDone =>
    match (t.proc cur).pc with
    | .forkCopied q => some (.ok (t.forkDone cur q))
    | _ => none
  | .exit => if (t.proc cur).pc = .user then some (t.exit c cur) else none
  | .wait =>
    if (t.proc cur).pc = .user ∨ (t.proc cur).pc = .waiting then some (.ok (t.wait c cur).1)
    else none
  | .kill pid => if (t.proc cur).pc = .user then some (.ok (t.kill pid).1) else none
  | .sleep chan => if (t.proc cur).pc = .user then some (.ok (t.sleep c cur chan)) else none
  | .yield => if (t.proc cur).pc ≠ .waiting then some (.ok (t.yield c cur)) else none
  | _ => none

/-- A step on CPU `c`: `none` when the action cannot happen there now. -/
def sysStep (t : PTable) (c : Fin NCPU) : PAct → Option (Except Crash PTable)
  | .scheduler => if (t.cpus c).proc = none then some (.ok (t.scheduler c)) else none
  | .mfqScheduler => if (t.cpus c).proc = none then some (.ok (t.MFQscheduler c)) else none
  | .wakeup chan => some (.ok (t.wakeup1 chan))
  | .tick => if c.val = 0 then some (.ok t.tick) else none
  | a =>
    match (t.cpus c).proc with
    | some cur => t.procStep c cur a
    | none => none

/-- The step function of runs: a panic ends the run. -/
def step (t : PTable) (a : Fin NCPU × PAct) : Option PTable :=
  (t.sysStep a.1 a.2).bind fun r => match r with
    | .ok t' => some t'
    | .error _ => none

/-- The steps along which `nextpid` stays positive: it has not wrapped. -/
def stepNoWrap (t : PTable) (a : Fin NCPU × PAct) : Option PTable :=
  (t.step a).filter fun t' => decide (0 < t'.nextpid)

/-- The tables one step on CPU `c` can lead to, one constructor per call it makes. -/
inductive Moves (t : PTable) (c : Fin NCPU) : PTable → Prop
  | scheduler (hc : (t.cpus c).proc = none) : Moves t c (t.scheduler c)
  | mfqScheduler (hc : (t.cpus c).proc = none) : Moves t c (t.MFQscheduler c)
  | wakeup (chan : Option Chan) : Moves t c (t.wakeup1 chan)
  | tick : Moves t c t.tick
  | fork {cur : Fin NPROC} (hc : (t.cpus c).proc = some cur) (hpc : (t.proc cur).pc = .user) :
      Moves t c (t.forkAlloc cur)
  | forkCopy {cur q : Fin NPROC} (hc : (t.cpus c).proc = some cur)
      (hpc : (t.proc cur).pc = .forkAlloc q) (ok : Bool) : Moves t c (t.forkCopy cur q ok)
  | forkDone {cur q : Fin NPROC} (hc : (t.cpus c).proc = some cur)
      (hpc : (t.proc cur).pc = .forkCopied q) : Moves t c (t.forkDone cur q)
  | exit {cur : Fin NPROC} {t' : PTable} (hc : (t.cpus c).proc = some cur)
      (hpc : (t.proc cur).pc = .user) (h : t.exit c cur = .ok t') : Moves t c t'
  | wait {cur : Fin NPROC} (hc : (t.cpus c).proc = some cur)
      (hpc : (t.proc cur).pc = .user ∨ (t.proc cur).pc = .waiting) : Moves t c (t.wait c cur).1
  | kill {cur : Fin NPROC} (hc : (t.cpus c).proc = some cur) (pid : ℤ) : Moves t c (t.kill pid).1
  | sleep {cur : Fin NPROC} (hc : (t.cpus c).proc = some cur) (chan : Option Chan) :
      Moves t c (t.sleep c cur chan)
  | yield {cur : Fin NPROC} (hc : (t.cpus c).proc = some cur) : Moves t c (t.yield c cur)

theorem moves_of_procStep {t t' : PTable} {c : Fin NCPU} {cur : Fin NPROC}
    (hc : (t.cpus c).proc = some cur) {a : PAct} (ha : t.procStep c cur a = some (.ok t')) :
    Moves t c t' := by
  cases a with
  | forkCopy ok =>
    simp only [procStep] at ha
    split at ha
    · next q hpc =>
      obtain rfl := (Except.ok.inj (Option.some.inj ha)).symm
      exact .forkCopy hc hpc ok
    · cases ha
  | forkDone =>
    simp only [procStep] at ha
    split at ha
    · next q hpc =>
      obtain rfl := (Except.ok.inj (Option.some.inj ha)).symm
      exact .forkDone hc hpc
    · cases ha
  | exit =>
    simp only [procStep, Option.ite_none_right_eq_some, Option.some.injEq] at ha
    exact .exit hc ha.1 ha.2
  | wakeup | tick | scheduler | mfqScheduler => cases ha
  | fork | wait | kill _ | sleep _ | yield =>
    simp only [procStep, Option.ite_none_right_eq_some, Option.some.injEq, Except.ok.injEq] at ha
    rw [← ha.2]
    first
    | exact .fork hc ha.1
    | exact .wait hc ha.1
    | exact .kill hc _
    | exact .sleep hc _
    | exact .yield hc

/-- **Every step is one of the calls.** -/
theorem moves_of_step {t t' : PTable} {c : Fin NCPU} {a : PAct} (ha : t.step (c, a) = some t') :
    Moves t c t' := by
  have hs : t.sysStep c a = some (.ok t') := by
    obtain ⟨r, hr, hr'⟩ := Option.bind_eq_some_iff.mp ha
    cases r with
    | ok t₁ => rw [hr, Option.some.inj hr']
    | error _ => cases hr'
  cases a with
  | wakeup chan =>
    obtain rfl := (Except.ok.inj (Option.some.inj hs)).symm
    exact .wakeup chan
  | scheduler | mfqScheduler | tick =>
    simp only [sysStep, Option.ite_none_right_eq_some, Option.some.injEq, Except.ok.injEq] at hs
    rw [← hs.2]
    first
    | exact .scheduler hs.1
    | exact .mfqScheduler hs.1
    | exact .tick
  | fork | forkCopy _ | forkDone | exit | wait | kill _ | sleep _ | yield =>
    simp only [sysStep] at hs
    split at hs
    · next cur hc => exact moves_of_procStep hc hs
    · cases hs

theorem step_of_stepNoWrap {t t' : PTable} {a : Fin NCPU × PAct} (ha : t.stepNoWrap a = some t') :
    t.step a = some t' ∧ 0 < t'.nextpid := by
  obtain ⟨h₁, h₂⟩ := Option.filter_eq_some_iff.mp ha
  exact ⟨h₁, of_decide_eq_true h₂⟩

end PTable

/-- The table `userinit()` leaves: `allocproc` on the zeroed table, made `RUNNABLE`, as init;
the CPUs have not switched to anything yet. -/
def boot : PTable :=
  let t : PTable := ⟨fun _ => Slot.zero, fun _ => ⟨none, 0, 1⟩, 1, 0, 0, Rng.init⟩
  match t.allocproc with
  | (t, some p) => { t.setProc p { t.proc p with state := .runnable } with initproc := p }
  | (t, none) => t

/-- A reachable table. -/
def Reachable : PTable → Prop := Run.Reachable PTable.step (· = boot)

/-- A table reachable by a run along which `nextpid` has not wrapped. -/
def ReachableNoWrap : PTable → Prop := Run.Reachable PTable.stepNoWrap (· = boot)

/-- The run of `as` from `boot`. -/
def exec (as : List (Fin NCPU × PAct)) : Option PTable := Run.exec PTable.step boot as

/-! ### The invariant -/

/-- A slot that runs or can run: `SLEEPING`, `RUNNABLE` or `RUNNING`. -/
def Slot.Live (e : Slot) : Prop :=
  e.state = .sleeping ∨ e.state = .runnable ∨ e.state = .running

/-- What every reachable table satisfies. -/
structure ProcInv (t : PTable) : Prop where
  /-- A process is `RUNNING` exactly when a CPU runs it, -/
  running : ∀ p, (t.proc p).state = .running ↔ ∃ c, (t.cpus c).proc = some p
  /-- and no two CPUs run one process. -/
  cpu_inj : ∀ c d p, (t.cpus c).proc = some p → (t.cpus d).proc = some p → c = d
  /-- An `UNUSED` slot has no parent; -/
  unused_parent : ∀ p, (t.proc p).state = .unused → (t.proc p).parent = none
  /-- the parent of any other slot is live, -/
  parent_live : ∀ p q, (t.proc q).state ≠ .unused → (t.proc q).parent = some p → (t.proc p).Live
  /-- and every slot past `EMBRYO` other than init has one. -/
  has_parent : ∀ p, (t.proc p).state ≠ .unused → (t.proc p).state ≠ .embryo → p ≠ t.initproc →
    (t.proc p).parent ≠ none
  /-- Init is live. -/
  init_live : (t.proc t.initproc).Live
  /-- A kernel thread stopped inside a call is live; -/
  pc_live : ∀ p, (t.proc p).pc ≠ .user → (t.proc p).Live
  /-- a `fork` in progress holds an `EMBRYO` that no other `fork` holds, -/
  fork_child : ∀ p q, (t.proc p).pc.child = some q → (t.proc q).state = .embryo
  fork_unique : ∀ p p' q, (t.proc p).pc.child = some q → (t.proc p').pc.child = some q → p = p'
  /-- without a parent until `np->parent = curproc`, and with the forker after. -/
  fork_alloc : ∀ p q, (t.proc p).pc = .forkAlloc q → (t.proc q).parent = none
  fork_copied : ∀ p q, (t.proc p).pc = .forkCopied q → (t.proc q).parent = some p

namespace ProcInv

open PTable

variable {t t' : PTable}

theorem live_of_running (h : ProcInv t) {c : Fin NCPU} {p : Fin NPROC}
    (hc : (t.cpus c).proc = some p) : (t.proc p).Live :=
  Or.inr (Or.inr ((h.running p).mpr ⟨c, hc⟩))

theorem not_running_of_idle (h : ProcInv t) {p : Fin NPROC} (hp : (t.proc p).state ≠ .running)
    (c : Fin NCPU) : (t.cpus c).proc ≠ some p :=
  fun hc => hp ((h.running p).mpr ⟨c, hc⟩)

/-- The invariant reads only the slots, `initproc` and the process each CPU runs. -/
theorem of_cpus (h : ProcInv t) (hp : t'.proc = t.proc) (hi : t'.initproc = t.initproc)
    (hc : ∀ c, (t'.cpus c).proc = (t.cpus c).proc) : ProcInv t' where
  running p := by rw [hp, h.running p]; simp only [hc]
  cpu_inj c d p := by rw [hc, hc]; exact h.cpu_inj c d p
  unused_parent := by rw [hp]; exact h.unused_parent
  parent_live := by rw [hp]; exact h.parent_live
  has_parent := by rw [hp, hi]; exact h.has_parent
  init_live := by rw [hp, hi]; exact h.init_live
  pc_live := by rw [hp]; exact h.pc_live
  fork_child := by rw [hp]; exact h.fork_child
  fork_unique := by rw [hp]; exact h.fork_unique
  fork_alloc := by rw [hp]; exact h.fork_alloc
  fork_copied := by rw [hp]; exact h.fork_copied

/-- **A step that moves processes between live states keeps the invariant**, given the two
facts about the CPUs: every slot keeps its parent and its `fork`, and stays `UNUSED`, `EMBRYO`
or live as it was. -/
theorem of_states (h : ProcInv t)
    (hrun : ∀ p, (t'.proc p).state = .running ↔ ∃ c, (t'.cpus c).proc = some p)
    (hinj : ∀ c d p, (t'.cpus c).proc = some p → (t'.cpus d).proc = some p → c = d)
    (hi : t'.initproc = t.initproc) (hpar : ∀ p, (t'.proc p).parent = (t.proc p).parent)
    (hpc : ∀ p, (t'.proc p).pc = (t.proc p).pc ∨
      (t'.proc p).pc.child = none ∧ (t'.proc p).Live)
    (hst : ∀ p, ((t'.proc p).state = .unused ↔ (t.proc p).state = .unused) ∧
      ((t'.proc p).state = .embryo ↔ (t.proc p).state = .embryo) ∧
      ((t'.proc p).Live ↔ (t.proc p).Live)) : ProcInv t' := by
  -- a slot inside a `fork` after the step was inside it before
  have hsame : ∀ p q, (t'.proc p).pc.child = some q → (t'.proc p).pc = (t.proc p).pc := by
    intro p q hp
    rcases hpc p with he | ⟨hn, -⟩
    · exact he
    · rw [hn] at hp
      cases hp
  exact {
    running := hrun
    cpu_inj := hinj
    unused_parent := fun p hp => by rw [hpar]; exact h.unused_parent p ((hst p).1.mp hp)
    parent_live := fun p q hq hqp => (hst p).2.2.mpr
      (h.parent_live p q (mt (hst q).1.mpr hq) (by rwa [← hpar]))
    has_parent := fun p hu he hi' => by
      rw [hpar]
      exact h.has_parent p (mt (hst p).1.mpr hu) (mt (hst p).2.1.mpr he) (by rwa [← hi])
    init_live := by rw [hi]; exact (hst _).2.2.mpr h.init_live
    pc_live := fun p hp => by
      rcases hpc p with he | ⟨-, hl⟩
      · exact (hst p).2.2.mpr (h.pc_live p (by rwa [← he]))
      · exact hl
    fork_child := fun p q hp => by
      rw [hsame p q hp] at hp
      exact (hst q).2.1.mpr (h.fork_child p q hp)
    fork_unique := fun p p' q hp hp' => by
      rw [hsame p q hp] at hp
      rw [hsame p' q hp'] at hp'
      exact h.fork_unique p p' q hp hp'
    fork_alloc := fun p q hp => by
      rw [hsame p q (by rw [hp]; rfl)] at hp
      rw [hpar]
      exact h.fork_alloc p q hp
    fork_copied := fun p q hp => by
      rw [hsame p q (by rw [hp]; rfl)] at hp
      rw [hpar]
      exact h.fork_copied p q hp }

/-- **Waking keeps the invariant**: processes gone from `SLEEPING` to `RUNNABLE`, and fields
the invariant does not read. -/
theorem of_woken (h : ProcInv t) (hc : ∀ c, (t'.cpus c).proc = (t.cpus c).proc)
    (hi : t'.initproc = t.initproc)
    (hs : ∀ p, (t'.proc p).parent = (t.proc p).parent ∧ (t'.proc p).pc = (t.proc p).pc ∧
      ((t'.proc p).state = (t.proc p).state ∨
        (t.proc p).state = .sleeping ∧ (t'.proc p).state = .runnable)) :
    ProcInv t' := by
  have hrun : ∀ p, (t'.proc p).state = .running ↔ (t.proc p).state = .running := by
    intro p
    rcases (hs p).2.2 with he | ⟨h₁, h₂⟩
    · rw [he]
    · simp [h₁, h₂]
  refine h.of_states (fun p => ?_) (fun c d p => ?_) hi (fun p => (hs p).1)
    (fun p => Or.inl (hs p).2.1) (fun p => ?_)
  · rw [hrun, h.running p]
    simp only [hc]
  · rw [hc, hc]
    exact h.cpu_inj c d p
  · rcases (hs p).2.2 with he | ⟨h₁, h₂⟩
    · simp [Slot.Live, he]
    · simp [Slot.Live, h₁, h₂]

/-- The CPUs after CPU `c` lets go of `cur`, or takes `p` up. -/
theorem cpus_release (h : ProcInv t) {c : Fin NCPU} {cur : Fin NPROC}
    (hc : (t.cpus c).proc = some cur) {s : PTable}
    (hcpu : ∀ d, (s.cpus d).proc = if d = c then none else (t.cpus d).proc)
    (hcur : (s.proc cur).state ≠ .running)
    (hslot : ∀ p, p ≠ cur → ((s.proc p).state = .running ↔ (t.proc p).state = .running)) :
    (∀ p, (s.proc p).state = .running ↔ ∃ d, (s.cpus d).proc = some p) ∧
      ∀ d d' p, (s.cpus d).proc = some p → (s.cpus d').proc = some p → d = d' := by
  refine ⟨fun p => ?_, fun d d' p hd hd' => ?_⟩
  · by_cases hp : p = cur
    · subst hp
      refine ⟨fun hr => absurd hr hcur, fun ⟨d, hd⟩ => ?_⟩
      rw [hcpu] at hd
      -- `split_ifs` closes the branch of `c` itself, which now runs nothing
      split_ifs at hd with hdc
      exact absurd (h.cpu_inj d c _ hd hc) hdc
    · rw [hslot p hp, h.running p]
      constructor
      · rintro ⟨d, hd⟩
        refine ⟨d, ?_⟩
        rw [hcpu, if_neg]
        · exact hd
        · rintro rfl
          rw [hc] at hd
          exact hp (Option.some.inj hd).symm
      · rintro ⟨d, hd⟩
        rw [hcpu] at hd
        split_ifs at hd
        exact ⟨d, hd⟩
  · rw [hcpu] at hd hd'
    split_ifs at hd hd'
    exact h.cpu_inj d d' p hd hd'

theorem cpus_take (h : ProcInv t) {c : Fin NCPU} {p : Fin NPROC}
    (hc : (t.cpus c).proc = none) (hp : (t.proc p).state ≠ .running) {s : PTable}
    (hcpu : ∀ d, (s.cpus d).proc = if d = c then some p else (t.cpus d).proc)
    (hnew : (s.proc p).state = .running)
    (hslot : ∀ q, q ≠ p → (s.proc q).state = (t.proc q).state) :
    (∀ q, (s.proc q).state = .running ↔ ∃ d, (s.cpus d).proc = some q) ∧
      ∀ d d' q, (s.cpus d).proc = some q → (s.cpus d').proc = some q → d = d' := by
  have hfree : ∀ d, (t.cpus d).proc ≠ some p := h.not_running_of_idle hp
  refine ⟨fun q => ?_, fun d d' q hd hd' => ?_⟩
  · by_cases hq : q = p
    · subst hq
      exact ⟨fun _ => ⟨c, by rw [hcpu, if_pos rfl]⟩, fun _ => hnew⟩
    · rw [hslot q hq, h.running q]
      constructor
      · rintro ⟨d, hd⟩
        refine ⟨d, ?_⟩
        rw [hcpu, if_neg]
        · exact hd
        · rintro rfl
          rw [hc] at hd
          cases hd
      · rintro ⟨d, hd⟩
        rw [hcpu] at hd
        split_ifs at hd with hdc
        · exact absurd (Option.some.inj hd).symm hq
        · exact ⟨d, hd⟩
  · rw [hcpu] at hd hd'
    split_ifs at hd hd' with h₁ h₂ h₂
    · exact h₁.trans h₂.symm
    · obtain rfl := Option.some.inj hd
      exact absurd hd' (hfree d')
    · obtain rfl := Option.some.inj hd'
      exact absurd hd (hfree d)
    · exact h.cpu_inj d d' q hd hd'

/-- **Descheduling keeps the invariant**: the process `cur` that CPU `c` runs becomes
`SLEEPING` or `RUNNABLE` with its parent, its `Pc` kept or set out of any `fork`, and `c` runs
nothing. -/
theorem deschedule (h : ProcInv t) {c : Fin NCPU} {cur : Fin NPROC}
    (hc : (t.cpus c).proc = some cur) {e : Slot} (he : e.state = .sleeping ∨ e.state = .runnable)
    (hpar : e.parent = (t.proc cur).parent) (hpc : e.pc = (t.proc cur).pc ∨ e.pc.child = none) :
    ProcInv ((t.setProc cur e).setCpu c { t.cpus c with proc := none }) := by
  have hrun : (t.proc cur).state = .running := (h.running cur).mpr ⟨c, hc⟩
  have helive : e.Live := by rcases he with he | he <;> simp [Slot.Live, he]
  have hslot : ∀ p, p ≠ cur → ((t.setProc cur e).setCpu c { t.cpus c with proc := none }).proc p =
      t.proc p := fun p hp => by simp [hp]
  obtain ⟨hrun', hinj'⟩ := h.cpus_release hc (s := (t.setProc cur e).setCpu c
      { t.cpus c with proc := none })
    (fun d => by by_cases hd : d = c <;> simp [hd])
    (by simp only [setCpu_proc, setProc_self]; rcases he with he | he <;> rw [he] <;> nofun)
    (fun p hp => by rw [hslot p hp])
  refine h.of_states hrun' hinj' rfl (fun p => ?_) (fun p => ?_) (fun p => ?_)
  · by_cases hp : p = cur
    · subst hp
      simpa using hpar
    · rw [hslot p hp]
  · by_cases hp : p = cur
    · subst hp
      simp only [setCpu_proc, setProc_self]
      rcases hpc with hpc | hpc
      · exact Or.inl hpc
      · exact Or.inr ⟨hpc, helive⟩
    · rw [hslot p hp]
      exact Or.inl rfl
  · by_cases hp : p = cur
    · subst hp
      rcases he with he | he <;> simp [Slot.Live, he, hrun]
    · rw [hslot p hp]
      simp

/-- **A switch keeps the invariant**: an idle CPU takes up a `RUNNABLE` process. -/
theorem switchTo (h : ProcInv t) {c : Fin NCPU} {p : Fin NPROC} (hc : (t.cpus c).proc = none)
    (hp : (t.proc p).state = .runnable) : ProcInv (t.switchTo c p) := by
  have hslot : ∀ q, q ≠ p → (t.switchTo c p).proc q = t.proc q := fun q hq => by
    simp [PTable.switchTo, hq]
  obtain ⟨hrun', hinj'⟩ := h.cpus_take hc (by rw [hp]; nofun) (s := t.switchTo c p)
    (fun d => by by_cases hd : d = c <;> simp [PTable.switchTo, hd])
    (by simp [PTable.switchTo]) (fun q hq => by rw [hslot q hq])
  refine h.of_states hrun' hinj' rfl (fun q => ?_) (fun q => Or.inl ?_) (fun q => ?_)
  · by_cases hq : q = p
    · subst hq
      simp [PTable.switchTo]
    · rw [hslot q hq]
  · by_cases hq : q = p
    · subst hq
      simp [PTable.switchTo]
    · rw [hslot q hq]
  · by_cases hq : q = p
    · subst hq
      simp [PTable.switchTo, Slot.Live, hp]
    · rw [hslot q hq]
      simp

/-- The slot of a process that a CPU runs is not `UNUSED`, an `EMBRYO` or a `ZOMBIE`. -/
theorem ne_of_running (h : ProcInv t) {c : Fin NCPU} {cur q : Fin NPROC}
    (hc : (t.cpus c).proc = some cur) (hq : (t.proc q).state = .unused ∨
      (t.proc q).state = .embryo ∨ (t.proc q).state = .zombie) : q ≠ cur := by
  rintro rfl
  rw [(h.running q).mpr ⟨c, hc⟩] at hq
  rcases hq with hq | hq | hq <;> cases hq

theorem not_live_unused {e : Slot} (he : e.state = .unused) : ¬e.Live := by
  simp [Slot.Live, he]

theorem not_live_embryo {e : Slot} (he : e.state = .embryo) : ¬e.Live := by
  simp [Slot.Live, he]

/-- Nothing names an `UNUSED` slot: no parent link, no `fork`. -/
theorem unused_free (h : ProcInv t) {q : Fin NPROC} (hq : (t.proc q).state = .unused) :
    (∀ r, (t.proc r).state ≠ .unused → (t.proc r).parent ≠ some q) ∧
      (∀ r, (t.proc r).pc.child ≠ some q) ∧ (t.proc q).pc = .user ∧ (t.proc q).parent = none := by
  refine ⟨fun r hr hrq => not_live_unused hq (h.parent_live q r hr hrq),
    fun r hr => ?_, ?_, h.unused_parent q hq⟩
  · rw [h.fork_child r q hr] at hq
    cases hq
  · by_contra hpc
    exact not_live_unused hq (h.pc_live q hpc)

/-- The shape of `fork`'s first step: the `UNUSED` slot `q` becomes an `EMBRYO`, with its
parent and `Pc`, held by the `fork` of the running process `cur`; nothing else changes that the
invariant reads. -/
theorem of_alloc (h : ProcInv t) {c : Fin NCPU} {cur q : Fin NPROC}
    (hc : (t.cpus c).proc = some cur) (hq : (t.proc q).state = .unused) (hqc : q ≠ cur)
    (hcur : t'.proc cur = { t.proc cur with pc := .forkAlloc q })
    (hqst : (t'.proc q).state = .embryo) (hqpar : (t'.proc q).parent = (t.proc q).parent)
    (hqpc : (t'.proc q).pc = (t.proc q).pc)
    (hother : ∀ r, r ≠ cur → r ≠ q → t'.proc r = t.proc r)
    (hcpus : t'.cpus = t.cpus) (hinit : t'.initproc = t.initproc) : ProcInv t' := by
  obtain ⟨hnopar, hnofork, hpcq, hparq⟩ := h.unused_free hq
  have hrun : (t.proc cur).state = .running := (h.running cur).mpr ⟨c, hc⟩
  -- an old `fork` holds an `EMBRYO` that is neither `q` nor `cur`
  have hold : ∀ s q', s ≠ cur → (t'.proc s).pc.child = some q' →
      (t.proc s).pc.child = some q' ∧ q' ≠ q ∧ q' ≠ cur ∧ t'.proc q' = t.proc q' := by
    intro s q' hsc hs
    have hs₀ : (t.proc s).pc.child = some q' := by
      by_cases hsq : s = q
      · subst hsq
        rw [hqpc, hpcq] at hs
        cases hs
      · rwa [hother s hsc hsq] at hs
    have he := h.fork_child s q' hs₀
    have hq'q : q' ≠ q := by
      rintro rfl
      rw [hq] at he
      cases he
    have hq'c := h.ne_of_running hc (Or.inr (Or.inl he))
    exact ⟨hs₀, hq'q, hq'c, hother q' hq'c hq'q⟩
  have hpar : ∀ r, (t'.proc r).parent = (t.proc r).parent := by
    intro r
    by_cases hrc : r = cur
    · rw [hrc, hcur]
    · by_cases hrq : r = q
      · rw [hrq, hqpar]
      · rw [hother r hrc hrq]
  refine ⟨fun r => ?_, fun d d' r => ?_, fun r hr => ?_, fun r r' hr' hr'r => ?_,
    fun r hu he hi => ?_, ?_, fun r hr => ?_, fun r q' hr => ?_, fun r r' q' hr hr' => ?_,
    fun r q' hr => ?_, fun r q' hr => ?_⟩
  · rw [hcpus]
    by_cases hrc : r = cur
    · rw [hrc, hcur]
      exact h.running cur
    · by_cases hrq : r = q
      · rw [hrq, hqst, ← h.running q, hq]
        simp
      · rw [hother r hrc hrq]
        exact h.running r
  · rw [hcpus]
    exact h.cpu_inj d d' r
  · rw [hpar]
    by_cases hrc : r = cur
    · rw [hrc, hcur, hrun] at hr
      cases hr
    · by_cases hrq : r = q
      · rw [hrq, hqst] at hr
        cases hr
      · rw [hother r hrc hrq] at hr
        exact h.unused_parent r hr
  · -- nothing had the new `EMBRYO` as its parent
    rw [hpar] at hr'r
    have hr'u : (t.proc r').state ≠ .unused := by
      by_cases hrq : r' = q
      · rw [hrq, hparq] at hr'r
        cases hr'r
      · by_cases hrc : r' = cur
        · rw [hrc, hrun]
          exact nofun
        · rwa [hother r' hrc hrq] at hr'
    have hl := h.parent_live r r' hr'u hr'r
    by_cases hrc : r = cur
    · rw [hrc, hcur]
      rwa [← hrc]
    · by_cases hrq : r = q
      · rw [hrq] at hr'r
        exact absurd hr'r (hnopar r' hr'u)
      · rw [hother r hrc hrq]
        exact hl
  · rw [hpar]
    by_cases hrc : r = cur
    · rw [hrc] at hi ⊢
      exact h.has_parent cur (by rw [hrun]; exact nofun) (by rw [hrun]; exact nofun) (by rwa [← hinit])
    · by_cases hrq : r = q
      · rw [hrq, hqst] at he
        exact absurd rfl he
      · rw [hother r hrc hrq] at hu he
        exact h.has_parent r hu he (by rwa [← hinit])
  · rw [hinit]
    have hiq : t.initproc ≠ q := fun hiq => not_live_unused hq (hiq ▸ h.init_live)
    by_cases hic : t.initproc = cur
    · rw [hic, hcur]
      exact Or.inr (Or.inr hrun)
    · rw [hother _ hic hiq]
      exact h.init_live
  · by_cases hrc : r = cur
    · rw [hrc, hcur]
      exact Or.inr (Or.inr hrun)
    · by_cases hrq : r = q
      · rw [hrq, hqpc, hpcq] at hr
        exact absurd rfl hr
      · rw [hother r hrc hrq] at hr ⊢
        exact h.pc_live r hr
  · by_cases hrc : r = cur
    · rw [hrc, hcur] at hr
      obtain rfl := Option.some.inj hr
      exact hqst
    · obtain ⟨hr₀, -, -, he⟩ := hold r q' hrc hr
      rw [he]
      exact h.fork_child r q' hr₀
  · by_cases hrc : r = cur
    · rw [hrc, hcur] at hr
      have hq' : q' = q := (Option.some.inj hr).symm
      rw [hq'] at hr'
      by_contra hne
      exact hnofork r' (hold r' q (Ne.symm (hrc ▸ hne)) hr').1
    · by_cases hr'c : r' = cur
      · rw [hr'c, hcur] at hr'
        have hq' : q' = q := (Option.some.inj hr').symm
        rw [hq'] at hr
        exact absurd (hold r q hrc hr).1 (hnofork r)
      · exact h.fork_unique r r' q' (hold r q' hrc hr).1 (hold r' q' hr'c hr').1
  · rw [hpar]
    by_cases hrc : r = cur
    · rw [hrc, hcur] at hr
      cases hr
      exact hparq
    · obtain ⟨-, -, -, -⟩ := hold r q' hrc (by rw [hr]; rfl)
      have hr₀ : (t.proc r).pc = .forkAlloc q' := by
        by_cases hrq : r = q
        · rw [hrq, hqpc, hpcq] at hr
          cases hr
        · rwa [hother r hrc hrq] at hr
      exact h.fork_alloc r q' hr₀
  · rw [hpar]
    by_cases hrc : r = cur
    · rw [hrc, hcur] at hr
      cases hr
    · have hr₀ : (t.proc r).pc = .forkCopied q' := by
        by_cases hrq : r = q
        · rw [hrq, hqpc, hpcq] at hr
          cases hr
        · rwa [hother r hrc hrq] at hr
      exact h.fork_copied r q' hr₀

/-- **`allocproc` in `fork` keeps the invariant.** -/
theorem forkAlloc (h : ProcInv t) {c : Fin NCPU} {cur : Fin NPROC}
    (hc : (t.cpus c).proc = some cur) : ProcInv (t.forkAlloc cur) := by
  unfold PTable.forkAlloc
  rcases hal : t.allocproc with ⟨t₁, _ | q⟩
  · rw [allocproc_eq_none hal]
    exact h
  obtain ⟨hq, rfl⟩ := allocproc_eq_some hal
  have hqc : q ≠ cur := h.ne_of_running hc (Or.inl hq)
  exact h.of_alloc hc hq hqc (by simp [hqc.symm]) (by simp [hqc]) (by simp [hqc])
    (by simp [hqc]) (fun r h₁ h₂ => by simp [h₁, h₂]) rfl rfl

/-- What the invariant says of the child `q` of the running process `cur`'s `fork`: an
`EMBRYO` other than `cur`, held by no other `fork`, nobody's parent, at user level. -/
theorem fork_facts (h : ProcInv t) {c : Fin NCPU} {cur q : Fin NPROC}
    (hc : (t.cpus c).proc = some cur) (hq : (t.proc cur).pc.child = some q) :
    (t.proc q).state = .embryo ∧ q ≠ cur ∧ (∀ r, (t.proc r).pc.child = some q → r = cur) ∧
      (∀ r, (t.proc r).state ≠ .unused → (t.proc r).parent ≠ some q) ∧ (t.proc q).pc = .user := by
  have he := h.fork_child cur q hq
  refine ⟨he, h.ne_of_running hc (Or.inr (Or.inl he)), fun r hr => h.fork_unique r cur q hr hq,
    fun r hr hrq => not_live_embryo he (h.parent_live q r hr hrq), ?_⟩
  by_contra hpc
  exact not_live_embryo he (h.pc_live q hpc)

/-- Another `fork` than `cur`'s holds a child other than `cur` and `q`. -/
theorem other_fork (h : ProcInv t) {c : Fin NCPU} {cur q r q' : Fin NPROC}
    (hc : (t.cpus c).proc = some cur) (hq : (t.proc cur).pc.child = some q) (hrc : r ≠ cur)
    (hr : (t.proc r).pc.child = some q') : q' ≠ q ∧ q' ≠ cur := by
  refine ⟨?_, h.ne_of_running hc (Or.inr (Or.inl (h.fork_child r q' hr)))⟩
  rintro rfl
  exact hrc (h.fork_unique r cur q' hr hq)

/-- **`np->parent = curproc` keeps the invariant**: the `EMBRYO` `q` of the running process
`cur`'s `fork` gets `cur` as its parent, and `cur` moves on in its `fork`. -/
theorem of_copied (h : ProcInv t) {c : Fin NCPU} {cur q : Fin NPROC}
    (hc : (t.cpus c).proc = some cur) (hpc : (t.proc cur).pc = .forkAlloc q)
    (hcur : t'.proc cur = { t.proc cur with pc := .forkCopied q })
    (hq' : t'.proc q = { t.proc q with parent := some cur })
    (hother : ∀ r, r ≠ cur → r ≠ q → t'.proc r = t.proc r)
    (hcpus : t'.cpus = t.cpus) (hinit : t'.initproc = t.initproc) : ProcInv t' := by
  obtain ⟨hqe, hqc, -, -, -⟩ := h.fork_facts hc (by rw [hpc]; rfl)
  have hrun : (t.proc cur).state = .running := (h.running cur).mpr ⟨c, hc⟩
  -- every slot keeps its state, and every slot but `cur` its `Pc`
  have hst : ∀ r, (t'.proc r).state = (t.proc r).state := by
    intro r
    by_cases hrc : r = cur
    · rw [hrc, hcur]
    · by_cases hrq : r = q
      · rw [hrq, hq']
      · rw [hother r hrc hrq]
  have hfork : ∀ r, r ≠ cur → (t'.proc r).pc = (t.proc r).pc := by
    intro r hrc
    by_cases hrq : r = q
    · rw [hrq, hq']
    · rw [hother r hrc hrq]
  have hlive : ∀ r, (t'.proc r).Live ↔ (t.proc r).Live := fun r => by
    unfold Slot.Live
    rw [hst]
  refine ⟨fun r => by rw [hst, hcpus]; exact h.running r, by rw [hcpus]; exact h.cpu_inj,
    fun r hr => ?_, fun r r' hr' hr'r => ?_, fun r hu he hi => ?_,
    by rw [hinit, hlive]; exact h.init_live, fun r hr => ?_, fun r q' hr => ?_,
    fun r r' q' hr hr' => ?_, fun r q' hr => ?_, fun r q' hr => ?_⟩
  · rw [hst] at hr
    by_cases hrq : r = q
    · rw [hrq, hqe] at hr
      cases hr
    · by_cases hrc : r = cur
      · rw [hrc, hrun] at hr
        cases hr
      · rw [hother r hrc hrq]
        exact h.unused_parent r hr
  · rw [hlive]
    by_cases hrq : r' = q
    · rw [hrq, hq'] at hr'r
      rw [← Option.some.inj hr'r]
      exact Or.inr (Or.inr hrun)
    · rw [hst] at hr'
      have hpar : (t.proc r').parent = some r := by
        by_cases hrc : r' = cur
        · rw [hrc] at hr'r ⊢
          simpa [hcur] using hr'r
        · rwa [hother r' hrc hrq] at hr'r
      exact h.parent_live r r' hr' hpar
  · rw [hst] at hu he
    rw [hinit] at hi
    by_cases hrq : r = q
    · rw [hrq, hqe] at he
      exact absurd rfl he
    · by_cases hrc : r = cur
      · rw [hrc, hcur]
        rw [hrc] at hu he hi
        exact h.has_parent cur hu he hi
      · rw [hother r hrc hrq]
        exact h.has_parent r hu he hi
  · rw [hlive]
    by_cases hrc : r = cur
    · rw [hrc]
      exact Or.inr (Or.inr hrun)
    · rw [hfork r hrc] at hr
      exact h.pc_live r hr
  · rw [hst]
    by_cases hrc : r = cur
    · rw [hrc, hcur] at hr
      rw [← Option.some.inj hr]
      exact hqe
    · rw [hfork r hrc] at hr
      exact h.fork_child r q' hr
  · have hold : ∀ s, (t'.proc s).pc.child = some q' → (t.proc s).pc.child = some q' := by
      intro s hs
      by_cases hsc : s = cur
      · rw [hsc, hcur] at hs
        rw [hsc, hpc]
        exact hs
      · rwa [hfork s hsc] at hs
    exact h.fork_unique r r' q' (hold r hr) (hold r' hr')
  · by_cases hrc : r = cur
    · rw [hrc, hcur] at hr
      cases hr
    · rw [hfork r hrc] at hr
      obtain ⟨hq'q, hq'c⟩ := h.other_fork hc (by rw [hpc]; rfl) hrc (by rw [hr]; rfl)
      rw [hother q' hq'c hq'q]
      exact h.fork_alloc r q' hr
  · by_cases hrc : r = cur
    · rw [hrc, hcur] at hr
      cases hr
      rw [hrc, hq']
    · rw [hfork r hrc] at hr
      obtain ⟨hq'q, hq'c⟩ := h.other_fork hc (by rw [hpc]; rfl) hrc (by rw [hr]; rfl)
      rw [hother q' hq'c hq'q]
      exact h.fork_copied r q' hr

theorem forkCopy_ok (h : ProcInv t) {c : Fin NCPU} {cur q : Fin NPROC}
    (hc : (t.cpus c).proc = some cur) (hpc : (t.proc cur).pc = .forkAlloc q) :
    ProcInv (t.forkCopy cur q true) := by
  have hqc := (h.fork_facts hc (by rw [hpc]; rfl)).2.1
  exact h.of_copied hc hpc (by simp [PTable.forkCopy, hqc.symm]) (by simp [PTable.forkCopy, hqc])
    (fun r h₁ h₂ => by simp [PTable.forkCopy, h₁, h₂]) rfl rfl

/-- **The end of a `fork` keeps the invariant**: the running process `cur` returns to user
level, and its `EMBRYO` `q` goes back to `UNUSED` before it got a parent, or becomes `RUNNABLE`
after. -/
theorem of_forkEnd (h : ProcInv t) {c : Fin NCPU} {cur q : Fin NPROC}
    (hc : (t.cpus c).proc = some cur) {e : Slot}
    (hend : e.state = .unused ∧ (t.proc cur).pc = .forkAlloc q ∨
      e.state = .runnable ∧ (t.proc cur).pc = .forkCopied q)
    (hepar : e.parent = (t.proc q).parent) (hepc : e.pc = (t.proc q).pc)
    (hcur : t'.proc cur = { t.proc cur with pc := .user }) (hq' : t'.proc q = e)
    (hother : ∀ r, r ≠ cur → r ≠ q → t'.proc r = t.proc r)
    (hcpus : t'.cpus = t.cpus) (hinit : t'.initproc = t.initproc) : ProcInv t' := by
  have hchild : (t.proc cur).pc.child = some q := by
    rcases hend with ⟨-, hpc⟩ | ⟨-, hpc⟩ <;> rw [hpc] <;> rfl
  obtain ⟨hqe, hqc, -, hnopar, hqpc⟩ := h.fork_facts hc hchild
  have hrun : (t.proc cur).state = .running := (h.running cur).mpr ⟨c, hc⟩
  have hes : e.state = .unused ∨ e.state = .runnable := by
    rcases hend with ⟨he, -⟩ | ⟨he, -⟩
    · exact Or.inl he
    · exact Or.inr he
  -- slots other than `q` keep their state, and slots other than `cur` their `Pc`
  have hst : ∀ r, r ≠ q → (t'.proc r).state = (t.proc r).state := by
    intro r hrq
    by_cases hrc : r = cur
    · rw [hrc, hcur]
    · rw [hother r hrc hrq]
  have hpc : ∀ r, r ≠ cur → (t'.proc r).pc = (t.proc r).pc := by
    intro r hrc
    by_cases hrq : r = q
    · rw [hrq, hq', hepc]
    · rw [hother r hrc hrq]
  have hpar : ∀ r, (t'.proc r).parent = (t.proc r).parent := by
    intro r
    by_cases hrc : r = cur
    · rw [hrc, hcur]
    · by_cases hrq : r = q
      · rw [hrq, hq', hepar]
      · rw [hother r hrc hrq]
  have hlive : ∀ r, r ≠ q → ((t'.proc r).Live ↔ (t.proc r).Live) := fun r hrq => by
    unfold Slot.Live
    rw [hst r hrq]
  -- a `fork` after the step is one of another process, holding neither `q` nor `cur`
  have hold : ∀ r q', (t'.proc r).pc.child = some q' →
      r ≠ cur ∧ (t.proc r).pc.child = some q' ∧ q' ≠ q ∧ q' ≠ cur := by
    intro r q' hr
    have hrc : r ≠ cur := by
      rintro rfl
      rw [hcur] at hr
      cases hr
    rw [hpc r hrc] at hr
    exact ⟨hrc, hr, h.other_fork hc hchild hrc hr⟩
  refine ⟨fun r => ?_, by rw [hcpus]; exact h.cpu_inj, fun r hr => ?_, fun r r' hr' hr'r => ?_,
    fun r hu he hi => ?_, ?_, fun r hr => ?_, fun r q' hr => ?_, fun r r' q' hr hr' => ?_,
    fun r q' hr => ?_, fun r q' hr => ?_⟩
  · rw [hcpus]
    by_cases hrq : r = q
    · rw [hrq, hq', ← h.running q, hqe]
      rcases hes with he | he <;> rw [he] <;> simp
    · rw [hst r hrq]
      exact h.running r
  · rw [hpar]
    by_cases hrq : r = q
    · rw [hrq] at hr ⊢
      rcases hend with ⟨-, hpc'⟩ | ⟨he, -⟩
      · exact h.fork_alloc cur q hpc'
      · rw [hq', he] at hr
        cases hr
    · rw [hst r hrq] at hr
      exact h.unused_parent r hr
  · rw [hpar] at hr'r
    have hr'u : (t.proc r').state ≠ .unused := by
      by_cases hrq : r' = q
      · rw [hrq, hqe]
        exact nofun
      · rwa [hst r' hrq] at hr'
    have hrq : r ≠ q := fun hrq => hnopar r' hr'u (hrq ▸ hr'r)
    rw [hlive r hrq]
    exact h.parent_live r r' hr'u hr'r
  · rw [hpar]
    rw [hinit] at hi
    by_cases hrq : r = q
    · rw [hrq] at hu ⊢
      rcases hend with ⟨he, -⟩ | ⟨-, hpc'⟩
      · rw [hq', he] at hu
        exact absurd rfl hu
      · rw [h.fork_copied cur q hpc']
        exact nofun
    · rw [hst r hrq] at hu he
      exact h.has_parent r hu he hi
  · rw [hinit]
    have hiq : t.initproc ≠ q := fun hiq => not_live_embryo hqe (hiq ▸ h.init_live)
    rw [hlive _ hiq]
    exact h.init_live
  · have hrc : r ≠ cur := by
      rintro rfl
      rw [hcur] at hr
      exact hr rfl
    have hrq : r ≠ q := by
      rintro rfl
      rw [hq', hepc, hqpc] at hr
      exact hr rfl
    rw [hlive r hrq]
    rw [hpc r hrc] at hr
    exact h.pc_live r hr
  · obtain ⟨-, hr₀, hq'q, -⟩ := hold r q' hr
    rw [hst q' hq'q]
    exact h.fork_child r q' hr₀
  · exact h.fork_unique r r' q' (hold r q' hr).2.1 (hold r' q' hr').2.1
  · obtain ⟨hrc, -, -, -⟩ := hold r q' (by rw [hr]; rfl)
    rw [hpc r hrc] at hr
    rw [hpar]
    exact h.fork_alloc r q' hr
  · obtain ⟨hrc, -, -, -⟩ := hold r q' (by rw [hr]; rfl)
    rw [hpc r hrc] at hr
    rw [hpar]
    exact h.fork_copied r q' hr

theorem forkCopy_fail (h : ProcInv t) {c : Fin NCPU} {cur q : Fin NPROC}
    (hc : (t.cpus c).proc = some cur) (hpc : (t.proc cur).pc = .forkAlloc q) :
    ProcInv (t.forkCopy cur q false) := by
  have hqc := (h.fork_facts hc (by rw [hpc]; rfl)).2.1
  exact h.of_forkEnd hc (e := { t.proc q with state := .unused }) (Or.inl ⟨rfl, hpc⟩) rfl rfl
    (by simp [PTable.forkCopy, hqc.symm])
    (by simp [PTable.forkCopy, hqc]) (fun r h₁ h₂ => by simp [PTable.forkCopy, h₁, h₂]) rfl rfl

theorem forkDone (h : ProcInv t) {c : Fin NCPU} {cur q : Fin NPROC}
    (hc : (t.cpus c).proc = some cur) (hpc : (t.proc cur).pc = .forkCopied q) :
    ProcInv (t.forkDone cur q) := by
  have hqc := (h.fork_facts hc (by rw [hpc]; rfl)).2.1
  exact h.of_forkEnd hc (e := { t.proc q with state := .runnable }) (Or.inr ⟨rfl, hpc⟩) rfl rfl
    (by simp [PTable.forkDone, hqc.symm])
    (by simp [PTable.forkDone, hqc]) (fun r h₁ h₂ => by simp [PTable.forkDone, h₁, h₂]) rfl rfl

/-- **`exit()` keeps the invariant**: the running process `cur`, at user level and not init,
becomes a `ZOMBIE` and its CPU runs nothing; its children pass to init, and processes are only
woken otherwise. -/
theorem of_exit (h : ProcInv t) {c : Fin NCPU} {cur : Fin NPROC}
    (hc : (t.cpus c).proc = some cur) (hpc : (t.proc cur).pc = .user) (hci : cur ≠ t.initproc)
    (hcpu : ∀ d, (t'.cpus d).proc = if d = c then none else (t.cpus d).proc)
    (hinit : t'.initproc = t.initproc) (hzombie : (t'.proc cur).state = .zombie)
    (hpar : ∀ r, (t'.proc r).parent =
      if (t.proc r).parent = some cur then some t.initproc else (t.proc r).parent)
    (hpcs : ∀ r, (t'.proc r).pc = (t.proc r).pc)
    (hwoken : ∀ r, r ≠ cur → ((t'.proc r).state = (t.proc r).state ∨
      (t.proc r).state = .sleeping ∧ (t'.proc r).state = .runnable)) : ProcInv t' := by
  have hrun : (t.proc cur).state = .running := (h.running cur).mpr ⟨c, hc⟩
  have hic : t.initproc ≠ cur := Ne.symm hci
  -- a slot other than `cur` keeps its kind: `UNUSED`, `EMBRYO`, live, `RUNNING` or not
  have hkind : ∀ r, r ≠ cur → ((t'.proc r).state = .unused ↔ (t.proc r).state = .unused) ∧
      ((t'.proc r).state = .embryo ↔ (t.proc r).state = .embryo) ∧
      ((t'.proc r).state = .running ↔ (t.proc r).state = .running) ∧
      ((t'.proc r).Live ↔ (t.proc r).Live) := by
    intro r hrc
    rcases hwoken r hrc with he | ⟨h₁, h₂⟩
    · simp [Slot.Live, he]
    · simp [Slot.Live, h₁, h₂]
  obtain ⟨hrun', hinj'⟩ := h.cpus_release hc hcpu (by rw [hzombie]; exact nofun)
    (fun r hrc => (hkind r hrc).2.2.1)
  refine ⟨hrun', hinj', fun r hr => ?_, fun r r' hr' hr'r => ?_, fun r hu he hi => ?_, ?_,
    fun r hr => ?_, fun r q hr => ?_, fun r r' q hr hr' => ?_, fun r q hr => ?_,
    fun r q hr => ?_⟩
  · have hrc : r ≠ cur := by
      rintro rfl
      rw [hzombie] at hr
      cases hr
    rw [hpar, h.unused_parent r ((hkind r hrc).1.mp hr)]
    simp
  · -- a child of `cur` now has init as its parent; any other keeps its own
    rw [hpar] at hr'r
    split_ifs at hr'r with hcp
    · rw [← Option.some.inj hr'r, hinit] at *
      exact (hkind _ hic).2.2.2.mpr h.init_live
    · have hr'u : (t.proc r').state ≠ .unused := by
        by_cases hrc : r' = cur
        · rw [hrc, hrun]
          exact nofun
        · exact fun hu => hr' ((hkind r' hrc).1.mpr hu)
      have hrc : r ≠ cur := by
        rintro rfl
        exact hcp hr'r
      exact (hkind r hrc).2.2.2.mpr (h.parent_live r r' hr'u hr'r)
  · rw [hpar]
    split_ifs
    · exact nofun
    · by_cases hrc : r = cur
      · rw [hrc] at hi ⊢
        exact h.has_parent cur (by rw [hrun]; exact nofun) (by rw [hrun]; exact nofun)
          (by rwa [← hinit])
      · exact h.has_parent r (mt (hkind r hrc).1.mpr hu) (mt (hkind r hrc).2.1.mpr he)
          (by rwa [← hinit])
  · rw [hinit]
    exact (hkind _ hic).2.2.2.mpr h.init_live
  · rw [hpcs] at hr
    have hrc : r ≠ cur := by
      rintro rfl
      exact hr hpc
    exact (hkind r hrc).2.2.2.mpr (h.pc_live r hr)
  · rw [hpcs] at hr
    have hq := h.fork_child r q hr
    have hqc : q ≠ cur := h.ne_of_running hc (Or.inr (Or.inl hq))
    exact (hkind q hqc).2.1.mpr hq
  · rw [hpcs] at hr hr'
    exact h.fork_unique r r' q hr hr'
  · rw [hpcs] at hr
    rw [hpar, h.fork_alloc r q hr]
    simp
  · rw [hpcs] at hr
    have hrc : r ≠ cur := by
      rintro rfl
      rw [hpc] at hr
      cases hr
    rw [hpar, h.fork_copied r q hr, if_neg (fun hrc' => hrc (Option.some.inj hrc'))]

theorem exit_ok (h : ProcInv t) {c : Fin NCPU} {cur : Fin NPROC}
    (hc : (t.cpus c).proc = some cur) (hpc : (t.proc cur).pc = .user) (ht : t.exit c cur = .ok t') :
    ProcInv t' := by
  unfold PTable.exit at ht
  split_ifs at ht with hci
  obtain rfl := (Except.ok.inj ht).symm
  -- the wakeup of the parent, then the loop over the table
  obtain ⟨hc₂, hi₂, -, hs₂⟩ := passChildren_spec (List.finRange NPROC)
    (t.wakeup1 ((t.proc cur).parent.map .proc)) (by simpa using Ne.symm hci)
  refine h.of_exit hc hpc hci (fun d => ?_) (by simp [hi₂]) (by simp) (fun r => ?_) (fun r => ?_)
    (fun r hrc => ?_)
  · by_cases hd : d = c
    · simp [hd]
    · simp [hd, hc₂]
  · by_cases hrc : r = cur
    · rw [hrc]
      simp only [setCpu_proc, setProc_self]
      rw [(hs₂ cur).1, (wakeup1_woken t _ cur).2]
      simp
    · simp only [setCpu_proc, setProc_ne _ _ hrc]
      rw [(hs₂ r).1, (wakeup1_woken t _ r).2]
      simp
  · have hw := (wakeup1_woken t ((t.proc cur).parent.map .proc) r).1.trans (hs₂ r).2
    by_cases hrc : r = cur
    · subst hrc
      simp only [setCpu_proc, setProc_self]
      exact hw.2.1
    · simp only [setCpu_proc, setProc_ne _ _ hrc]
      exact hw.2.1
  · have hw := (wakeup1_woken t ((t.proc cur).parent.map .proc) r).1.trans (hs₂ r).2
    simp only [setCpu_proc, setProc_ne _ _ hrc]
    exact hw.2.2

/-- **Reaping keeps the invariant**: the `ZOMBIE` `p` becomes an `UNUSED` slot, and the
running process `cur` returns from `wait`. -/
theorem of_reap (h : ProcInv t) {c : Fin NCPU} {cur p : Fin NPROC}
    (hc : (t.cpus c).proc = some cur) (hcpc : (t.proc cur).pc.child = none)
    (hp : (t.proc p).state = .zombie)
    (hcur : t'.proc cur = { t.proc cur with pc := .user }) (hp' : t'.proc p = (t.proc p).reaped)
    (hother : ∀ r, r ≠ cur → r ≠ p → t'.proc r = t.proc r)
    (hcpus : t'.cpus = t.cpus) (hinit : t'.initproc = t.initproc) : ProcInv t' := by
  have hrun : (t.proc cur).state = .running := (h.running cur).mpr ⟨c, hc⟩
  have hpc : p ≠ cur := h.ne_of_running hc (Or.inr (Or.inr hp))
  have hnotlive : ¬(t.proc p).Live := by simp [Slot.Live, hp]
  have hppc : (t.proc p).pc = .user := by
    by_contra hne
    exact hnotlive (h.pc_live p hne)
  -- slots other than `p` keep their state and parent; slots other than `cur` their `Pc`
  have hst : ∀ r, r ≠ p → (t'.proc r).state = (t.proc r).state ∧
      (t'.proc r).parent = (t.proc r).parent := by
    intro r hrp
    by_cases hrc : r = cur
    · rw [hrc, hcur]
      exact ⟨rfl, rfl⟩
    · rw [hother r hrc hrp]
      exact ⟨rfl, rfl⟩
  have hlive : ∀ r, r ≠ p → ((t'.proc r).Live ↔ (t.proc r).Live) := fun r hrp => by
    unfold Slot.Live
    rw [(hst r hrp).1]
  have hpcs : ∀ r, r ≠ cur → (t'.proc r).pc = (t.proc r).pc := by
    intro r hrc
    by_cases hrp : r = p
    · rw [hrp, hp']
      rfl
    · rw [hother r hrc hrp]
  -- a `fork` after the step is one from before, of a slot other than `cur` and `p`
  have hold : ∀ r q, (t'.proc r).pc.child = some q →
      r ≠ cur ∧ (t.proc r).pc.child = some q ∧ q ≠ p ∧ q ≠ cur := by
    intro r q hr
    have hrc : r ≠ cur := by
      rintro rfl
      rw [hcur] at hr
      cases hr
    rw [hpcs r hrc] at hr
    have hq := h.fork_child r q hr
    refine ⟨hrc, hr, ?_, h.ne_of_running hc (Or.inr (Or.inl hq))⟩
    rintro rfl
    rw [hp] at hq
    cases hq
  have hunused : ∀ r, (t'.proc r).state ≠ .unused → r ≠ p := by
    rintro r hr rfl
    rw [hp'] at hr
    exact hr rfl
  refine ⟨fun r => ?_, by rw [hcpus]; exact h.cpu_inj, fun r hr => ?_, fun r r' hr' hr'r => ?_,
    fun r hu he hi => ?_, ?_, fun r hr => ?_, fun r q hr => ?_, fun r r' q hr hr' => ?_,
    fun r q hr => ?_, fun r q hr => ?_⟩
  · rw [hcpus]
    by_cases hrp : r = p
    · rw [hrp, hp', ← h.running p, hp]
      simp [Slot.reaped]
    · rw [(hst r hrp).1]
      exact h.running r
  · by_cases hrp : r = p
    · rw [hrp, hp']
      rfl
    · rw [(hst r hrp).2]
      exact h.unused_parent r (by rwa [← (hst r hrp).1])
  · have hr'p := hunused r' hr'
    rw [(hst r' hr'p).2] at hr'r
    rw [(hst r' hr'p).1] at hr'
    have hl := h.parent_live r r' hr' hr'r
    have hrp : r ≠ p := by
      rintro rfl
      exact hnotlive hl
    exact (hlive r hrp).mpr hl
  · have hrp := hunused r hu
    rw [(hst r hrp).1] at hu he
    rw [(hst r hrp).2]
    exact h.has_parent r hu he (by rwa [← hinit])
  · rw [hinit]
    have hip : t.initproc ≠ p := fun hip => hnotlive (hip ▸ h.init_live)
    exact (hlive _ hip).mpr h.init_live
  · have hrc : r ≠ cur := by
      rintro rfl
      rw [hcur] at hr
      exact hr rfl
    have hrp : r ≠ p := by
      rintro rfl
      rw [hp'] at hr
      exact hr hppc
    rw [hpcs r hrc] at hr
    exact (hlive r hrp).mpr (h.pc_live r hr)
  · obtain ⟨-, hr₀, hqp, -⟩ := hold r q hr
    rw [(hst q hqp).1]
    exact h.fork_child r q hr₀
  · exact h.fork_unique r r' q (hold r q hr).2.1 (hold r' q hr').2.1
  · obtain ⟨hrc, -, hqp, -⟩ := hold r q (by rw [hr]; rfl)
    rw [hpcs r hrc] at hr
    rw [(hst q hqp).2]
    exact h.fork_alloc r q hr
  · obtain ⟨hrc, -, hqp, -⟩ := hold r q (by rw [hr]; rfl)
    rw [hpcs r hrc] at hr
    rw [(hst q hqp).2]
    exact h.fork_copied r q hr

/-- **`wait()` keeps the invariant**, in each of its outcomes. -/
theorem wait (h : ProcInv t) {c : Fin NCPU} {cur : Fin NPROC} (hc : (t.cpus c).proc = some cur)
    (hpc : (t.proc cur).pc = .user ∨ (t.proc cur).pc = .waiting) : ProcInv (t.wait c cur).1 := by
  have hrun : (t.proc cur).state = .running := (h.running cur).mpr ⟨c, hc⟩
  have hchild : (t.proc cur).pc.child = none := by
    rcases hpc with hpc | hpc <;> rw [hpc] <;> rfl
  rcases wait_cases t c cur with ⟨p, -, hz, hw⟩ | ⟨-, hw | hw⟩ <;> rw [hw]
  · have hpc' : p ≠ cur := h.ne_of_running hc (Or.inr (Or.inr hz))
    exact h.of_reap hc hchild hz (by simp [hpc'.symm]) (by simp [hpc'])
      (fun r h₁ h₂ => by simp [h₁, h₂]) rfl rfl
  · refine h.of_states (fun r => ?_) h.cpu_inj rfl (fun r => ?_) (fun r => ?_) (fun r => ?_)
    · by_cases hrc : r = cur
      · subst hrc
        simpa using h.running r
      · simpa [hrc] using h.running r
    · by_cases hrc : r = cur
      · subst hrc
        simp
      · simp [hrc]
    · by_cases hrc : r = cur
      · subst hrc
        exact Or.inr ⟨by simp [Pc.child], by simp [Slot.Live, hrun]⟩
      · simp [hrc]
    · by_cases hrc : r = cur
      · subst hrc
        simp [Slot.Live]
      · simp [hrc]
  · exact h.deschedule hc (Or.inl rfl) rfl (Or.inr rfl)

/-- Wakeups keep the invariant. -/
theorem of_wakeups (h : ProcInv t) (hc : ∀ c, (t'.cpus c).proc = (t.cpus c).proc)
    (hi : t'.initproc = t.initproc)
    (hs : ∀ p, (t.proc p).Woken (t'.proc p) ∧ (t'.proc p).parent = (t.proc p).parent) :
    ProcInv t' :=
  h.of_woken hc hi fun p => ⟨(hs p).2, (hs p).1.2.1, (hs p).1.2.2⟩

theorem wakeup1 (h : ProcInv t) (ch : Option Chan) : ProcInv (t.wakeup1 ch) :=
  h.of_wakeups (fun _ => rfl) rfl (wakeup1_woken t ch)

theorem tick (h : ProcInv t) : ProcInv t.tick :=
  h.of_wakeups (fun _ => rfl) rfl (wakeup1_woken { t with ticks := wrap (t.ticks + 1) } _)

theorem kill (h : ProcInv t) (pid : ℤ) : ProcInv (t.kill pid).1 :=
  have hk := kill_slots t pid
  h.of_wakeups (fun c => by rw [hk.1]) hk.2.1 hk.2.2.2

theorem sleep (h : ProcInv t) {c : Fin NCPU} {cur : Fin NPROC} (hc : (t.cpus c).proc = some cur)
    (chan : Option Chan) : ProcInv (t.sleep c cur chan) :=
  h.deschedule hc (Or.inl rfl) rfl (Or.inl rfl)

theorem yield (h : ProcInv t) {c : Fin NCPU} {cur : Fin NPROC} (hc : (t.cpus c).proc = some cur) :
    ProcInv (t.yield c cur) :=
  h.deschedule hc (Or.inr rfl) rfl (Or.inl rfl)

/-- A scheduler's step from an idle CPU keeps the invariant. -/
theorem dispatch (h : ProcInv t) {c : Fin NCPU} (hc : (t.cpus c).proc = none)
    (hd : Dispatch t c t') : ProcInv t' := by
  obtain ⟨t₁, hp, -, hi, hcpu, rfl | ⟨p, hrun, rfl⟩⟩ := hd
  · exact h.of_cpus hp hi hcpu
  · have h₁ : ProcInv t₁ := h.of_cpus hp hi hcpu
    exact h₁.switchTo (by rw [hcpu, hc]) (by rw [hp, hrun])

/-- **A step keeps the invariant.** -/
theorem step (h : ProcInv t) {a : Fin NCPU × PAct} (ha : t.step a = some t') : ProcInv t' := by
  obtain ⟨c, a⟩ := a
  cases moves_of_step ha with
  | scheduler hc => exact h.dispatch hc (scheduler_dispatch t c)
  | mfqScheduler hc => exact h.dispatch hc (MFQscheduler_dispatch t c)
  | wakeup chan => exact h.wakeup1 chan
  | tick => exact h.tick
  | fork hc _ => exact h.forkAlloc hc
  | forkCopy hc hpc ok =>
    cases ok
    · exact h.forkCopy_fail hc hpc
    · exact h.forkCopy_ok hc hpc
  | forkDone hc hpc => exact h.forkDone hc hpc
  | exit hc hpc hx => exact h.exit_ok hc hpc hx
  | wait hc hpc => exact h.wait hc hpc
  | kill _ pid => exact h.kill pid
  | sleep hc chan => exact h.sleep hc chan
  | yield hc => exact h.yield hc

end ProcInv

/-- Init is the only process at boot, in slot 0, and no CPU runs anything. -/
theorem boot_initproc : boot.initproc = 0 := rfl

theorem boot_cpus (c : Fin NCPU) : boot.cpus c = ⟨none, 0, 1⟩ := rfl

theorem boot_slot : ∀ p : Fin NPROC, (boot.proc p).pc = .user ∧ (boot.proc p).parent = none ∧
    ((boot.proc p).state = .runnable ∧ p = 0 ∨ (boot.proc p).state = .unused ∧ p ≠ 0) := by
  decide

theorem procInv_boot : ProcInv boot := by
  have hidle : ∀ c p, (boot.cpus c).proc ≠ some p := fun c p => by simp [boot_cpus]
  have hnotrun : ∀ p, (boot.proc p).state ≠ .running := fun p => by
    rcases (boot_slot p).2.2 with ⟨hs, -⟩ | ⟨hs, -⟩ <;> rw [hs] <;> nofun
  have hnofork : ∀ p q, (boot.proc p).pc.child ≠ some q := fun p q => by
    rw [(boot_slot p).1]
    nofun
  refine ⟨fun p => ?_, fun c d p hc => absurd hc (hidle c p), fun p _ => (boot_slot p).2.1,
    fun p q _ hq => ?_, fun p hu _ hi => ?_, ?_, fun p hp => absurd (boot_slot p).1 hp,
    fun p q hp => absurd hp (hnofork p q), fun p p' q hp => absurd hp (hnofork p q),
    fun p q hp => ?_, fun p q hp => ?_⟩
  · simp only [hnotrun p, false_iff, not_exists]
    exact fun c => hidle c p
  · rw [(boot_slot q).2.1] at hq
    cases hq
  · rcases (boot_slot p).2.2 with ⟨-, hp⟩ | ⟨hs, -⟩
    · exact absurd (hp.trans boot_initproc.symm) hi
    · exact absurd hs hu
  · rw [boot_initproc]
    exact Or.inr (Or.inl ((boot_slot 0).2.2.resolve_right fun h => h.2 rfl).1)
  · rw [(boot_slot p).1] at hp
    cases hp
  · rw [(boot_slot p).1] at hp
    cases hp

/-- **The invariant holds in every reachable table.** -/
theorem procInv_reachable {t : PTable} (ht : Reachable t) : ProcInv t :=
  Run.Reachable.induction ProcInv (fun _ h0 => by rw [h0]; exact procInv_boot)
    (fun _ _ _ h ha => h.step ha) ht


end Xv6Lab.Procs
