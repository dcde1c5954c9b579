import Xv6Lab.Sync.TicketOrder

/-!
# `sys_ticketlocktest`: a counter under the ticket lock

`sys_ticketlocktest` takes `ticketlock` with `ticket_acquire`, does `safe_count++` (a load and a
store, two steps), and gives the lock back with `ticket_release`; `tickettest` runs it in ten
processes at once.  `TestSys` runs the system call in every process on the lock with 32-bit
counters (`TicketSys.step32`), and lets a process out of it call `ticket_release` on its own
(`TestOp.stray`).

* `TestInv` — where a process is in the system call fixes where it is in the lock: between the
  two lock calls it is the process whose pid `lk->pid` records, and out of them it is not; the
  value a process loaded is still `safe_count` when it stores;
* `CountInv` — `safe_count` is the number of increments of the run modulo `2^32`, and every call
  past its `safe_count++` made exactly one;
* `testInv_reachable` — every logged run keeps both;
* `ticket_lock_safe` — the lock's guarantees together: at most one owner, entry in the order of
  the draws, a stray release changes nothing, at most one process between the lock calls of
  `sys_ticketlocktest`, and no increment of `safe_count` lost.
-/

namespace Xv6Lab

open Function Run

/-- Where a process is in `sys_ticketlocktest`; inside a lock call its `TicketPc` says where. -/
inductive TestPc where
  /-- Out of the system call. -/
  | idle
  /-- In `ticket_acquire(&ticketlock)`. -/
  | acquire
  /-- `safe_count++` loads `safe_count`. -/
  | load
  /-- `safe_count++` stores the value it loaded plus one. -/
  | store (v : ℕ)
  /-- Between `safe_count++` and `ticket_release(&ticketlock)`. -/
  | unlock
  /-- In `ticket_release(&ticketlock)`. -/
  | release
  /-- In a `ticket_release(&ticketlock)` called out of the system call. -/
  | stray
  deriving DecidableEq, Repr

namespace TestPc

/-- Between the return of `ticket_acquire` and the call of `ticket_release`. -/
def critical : TestPc → Bool
  | load | store _ | unlock => true
  | _ => false

/-- `1` while the call's `safe_count++` is still to come. -/
def pending : TestPc → ℕ
  | acquire | load | store _ => 1
  | _ => 0

end TestPc

/-- The steps of a process. -/
inductive TestOp where
  /-- Call `sys_ticketlocktest`. -/
  | call
  /-- Call `ticket_release(&ticketlock)` out of the system call. -/
  | stray
  /-- Take the next step. -/
  | run
  deriving DecidableEq, Repr

/-- `ticketlock` and the calls on it, where each process is in `sys_ticketlocktest`, and
`safe_count`, whose `safe_count++` the machine does modulo `2^32`. -/
structure TestSys where
  sys : TicketSys
  pc : Fin NPROC → TestPc
  safeCount : ℕ

namespace TestSys

/-- A step of `p` on the lock, after which `p` is at `inside` while its call goes on and at
`after` once the call returned. -/
def lockStep (s : TestSys) (p : Fin NPROC) (op : TicketOp) (inside after : TestPc) :
    Option TestSys :=
  (s.sys.step32 (p, op)).map fun t =>
    { s with sys := t, pc := update s.pc p (if t.calls p = none then after else inside) }

/-- One step by process `p`: `none` when `p` cannot take it. -/
def step (s : TestSys) : Fin NPROC × TestOp → Option TestSys
  | (p, .call) => if s.pc p = .idle then s.lockStep p .acquire .acquire .load else none
  | (p, .stray) => if s.pc p = .idle then s.lockStep p .release .stray .idle else none
  | (p, .run) =>
    match s.pc p with
    | .idle => none
    | .acquire => s.lockStep p .run .acquire .load
    | .load => some { s with pc := update s.pc p (.store s.safeCount) }
    | .store v => some { s with pc := update s.pc p .unlock, safeCount := wrap (v + 1) }
    | .unlock => s.lockStep p .release .release .idle
    | .release => s.lockStep p .run .release .idle
    | .stray => s.lockStep p .run .stray .idle

/-- `sys_ticketlockinit` has run, no process is in the system call, and `safe_count = 0`. -/
def init : TestSys := ⟨TicketSys.init, fun _ => .idle, 0⟩

theorem lockStep_eq_some {s t : TestSys} {p : Fin NPROC} {op : TicketOp} {i a : TestPc}
    (h : s.lockStep p op i a = some t) : ∃ u, s.sys.step32 (p, op) = some u ∧
      t = { s with sys := u, pc := update s.pc p (if u.calls p = none then a else i) } := by
  obtain ⟨u, hu, rfl⟩ := Option.map_eq_some_iff.mp h
  exact ⟨u, hu, rfl⟩

end TestSys

/-! ### Where a process is in the system call and in the lock -/

/-- Where `p` is in `sys_ticketlocktest` against its call on the lock and `lk->pid`. -/
def Fits (pid : ℕ) (p : Fin NPROC) : TestPc → Option TicketPc → Prop
  | .idle, c => c = none ∧ pid ≠ pidOf p
  | .acquire, c => ∃ d, c = some d ∧ d.acquiring = true
  | .load, c | .store _, c | .unlock, c => c = none ∧ pid = pidOf p
  | .release, c | .stray, c => ∃ d, c = some d ∧ d.acquiring = false

namespace Fits

variable {pid : ℕ} {p : Fin NPROC} {x : TestPc} {c : Option TicketPc}

theorem pid_eq (h : Fits pid p x c) (hx : x.critical) : pid = pidOf p := by
  cases x <;> simp_all [Fits, TestPc.critical]

/-- Between the lock calls a process owns the lock. -/
theorem owns {lk : TicketLock} (h : Fits lk.pid p x c) (hx : x.critical) : lk.owns p c := by
  cases x <;> simp_all [Fits, TestPc.critical, TicketLock.owns]

/-- Out of the critical section `pid` matters only by not being the process's own. -/
theorem repid {pid' : ℕ} (h : Fits pid p x c) (hx : x.critical = false) (hp : pid' ≠ pidOf p) :
    Fits pid' p x c := by
  cases x <;> simp_all [Fits, TestPc.critical]

/-- `wakeup(lk)` keeps the kind of every call. -/
theorem map_wakeUp (h : Fits pid p x c) : Fits pid p x (c.map TicketPc.wakeUp) := by
  cases x <;> rcases c with _ | d <;> simp_all [Fits]

end Fits

/-- **The client invariant** of `sys_ticketlocktest`. -/
structure TestInv (s : TestSys) : Prop where
  reachable : s.sys.Reachable32
  fits : ∀ p, Fits s.sys.lk.pid p (s.pc p) (s.sys.calls p)
  /-- Nobody wrote `safe_count` since the store's load. -/
  loaded : ∀ p v, s.pc p = .store v → v = s.safeCount

theorem testInv_init : TestInv TestSys.init where
  reachable := Run.Reachable.init (show TicketSys.Init TicketSys.init from rfl)
  fits p := ⟨rfl, fun h => pidOf_ne_zero p h.symm⟩
  loaded _ _ h := by cases h

namespace TestInv

variable {s : TestSys}

/-- **Mutual exclusion** in `sys_ticketlocktest`: at most one process is between its lock
calls. -/
theorem critical_unique (h : TestInv s) {p q : Fin NPROC} (hp : (s.pc p).critical)
    (hq : (s.pc q).critical) : p = q :=
  TicketSys.ticket_excludes32 h.reachable ((h.fits p).owns hp) ((h.fits q).owns hq)

/-- **Frame rule**: a step of `p` on the lock keeps where every other process is. -/
theorem fits_other (h : TestInv s) {p q : Fin NPROC} {op : TicketOp} {u : TicketSys}
    (hu : s.sys.step32 (p, op) = some u) (hqp : q ≠ p) :
    Fits u.lk.pid q (s.pc q) (u.calls q) := by
  obtain ⟨t', ht', hcalls, hpid⟩ := TicketSys.step32_shadow hu
  rw [← hcalls, ← hpid]
  have hfit := h.fits q
  -- the call of `q` is kept or woken
  have hc : Fits s.sys.lk.pid q (s.pc q) (t'.calls q) := by
    rcases TicketSys.step_calls_ne ht' hqp with hc | hc <;> rw [hc]
    · exact hfit
    · exact hfit.map_wakeUp
  -- `pid` is kept, set by `p` leaving its wait loop, or cleared by `p`'s release: in the last
  -- two `p` owns the lock, so `q` is not between its lock calls
  rcases TicketSys.step_pid ht' with hpid' | ⟨hset, hpid'⟩ | ⟨hrel, hpid'⟩
  · rwa [hpid']
  · cases hx : (s.pc q).critical
    · exact hc.repid hx (hpid' ▸ fun he => hqp (pidOf_inj he).symm)
    · have howns : s.sys.lk.owns p (s.sys.calls p) := by rw [hset]; rfl
      exact absurd (TicketSys.ticket_excludes32 h.reachable (hfit.owns hx) howns) hqp
  · cases hx : (s.pc q).critical
    · exact hc.repid hx (hpid' ▸ fun he => pidOf_ne_zero q he.symm)
    · exact absurd (pidOf_inj ((hfit.pid_eq hx).symm.trans hrel)) hqp

/-- **Step lemma** for a step on the lock: the invariant holds once `p`'s new place fits. -/
theorem lockStep (h : TestInv s) {p : Fin NPROC} {op : TicketOp} {i a : TestPc} {u : TicketSys}
    (hu : s.sys.step32 (p, op) = some u)
    (hfit : Fits u.lk.pid p (if u.calls p = none then a else i) (u.calls p))
    (hstore : ∀ v, i ≠ .store v ∧ a ≠ .store v) :
    TestInv { s with sys := u, pc := update s.pc p (if u.calls p = none then a else i) } where
  reachable := Run.Reachable.next h.reachable hu
  fits q := by
    by_cases hqp : q = p
    · subst hqp
      simpa using hfit
    · simpa [update_of_ne hqp] using h.fits_other hu hqp
  loaded q v hq := by
    by_cases hqp : q = p
    · subst hqp
      simp only [update_self] at hq
      split at hq
      · exact absurd hq (hstore v).2
      · exact absurd hq (hstore v).1
    · simp only [update_of_ne hqp] at hq
      exact h.loaded q v hq

/-- `ticket_acquire` starts with a draw, and the process waits. -/
theorem fits_draw (h : TestInv s) {p : Fin NPROC} (hp : s.pc p = .idle) {u : TicketSys}
    (hu : s.sys.step32 (p, .acquire) = some u) :
    Fits u.lk.pid p (if u.calls p = none then .load else .acquire) (u.calls p) := by
  have hcalls := (hp ▸ h.fits p).1
  simp only [TicketSys.step32, hcalls, if_true, Option.some.injEq] at hu
  subst hu
  simp [Fits, TicketLock.draw32, TicketPc.acquiring]

/-- A step inside `ticket_acquire` keeps the process in it, or returns with `lk->pid` its pid. -/
theorem fits_acquire (h : TestInv s) {p : Fin NPROC} (hp : s.pc p = .acquire) {u : TicketSys}
    (hu : s.sys.step32 (p, .run) = some u) :
    Fits u.lk.pid p (if u.calls p = none then .load else .acquire) (u.calls p) := by
  obtain ⟨d, hd, hacq⟩ := hp ▸ h.fits p
  obtain ⟨t', ht', hcalls, hpid⟩ := TicketSys.step32_shadow hu
  rw [← hcalls, ← hpid]
  rcases hc' : t'.calls p with _ | c'
  · exact ⟨rfl, TicketSys.step_return_acquire ht' hd hacq hc'⟩
  · refine ⟨c', rfl, ?_⟩
    rcases TicketSys.step_acquiring ht' hc' with ⟨c, hc, hk⟩ | ⟨hn, -⟩
    · rw [hd, Option.some.injEq] at hc
      rw [hk, ← hc, hacq]
    · simp [hd] at hn

/-- `ticket_release` by the process that `lk->pid` records goes into the call. -/
theorem fits_unlock (h : TestInv s) {p : Fin NPROC} (hp : s.pc p = .unlock) {u : TicketSys}
    (hu : s.sys.step32 (p, .release) = some u) :
    Fits u.lk.pid p (if u.calls p = none then .idle else .release) (u.calls p) := by
  obtain ⟨hcalls, hpid⟩ := hp ▸ h.fits p
  simp only [TicketSys.step32, hcalls, if_true, TicketLock.releaseTest, hpid,
    Option.some.injEq] at hu
  subst hu
  simp [Fits, TicketPc.acquiring]

/-- A step inside `ticket_release` keeps the process in it, or returns with `lk->pid` cleared. -/
theorem fits_release (h : TestInv s) {p : Fin NPROC} {d : TicketPc}
    (hd : s.sys.calls p = some d) (hacq : d.acquiring = false) {u : TicketSys}
    (hu : s.sys.step32 (p, .run) = some u) :
    (u.calls p = none ∧ u.lk.pid ≠ pidOf p) ∨ ∃ d', u.calls p = some d' ∧ d'.acquiring = false := by
  obtain ⟨t', ht', hcalls, hpid⟩ := TicketSys.step32_shadow hu
  rw [← hcalls, ← hpid]
  rcases hc' : t'.calls p with _ | c'
  · left
    refine ⟨rfl, ?_⟩
    have hrel : s.sys.lk.pid ≠ pidOf p := by
      refine TicketSys.released32 h.reachable ?_
      cases d <;> simp_all [TicketPc.acquiring]
    rcases TicketSys.step_pid ht' with hpid' | ⟨hset, -⟩ | ⟨-, hpid'⟩
    · rwa [hpid']
    · rw [hd, Option.some.injEq] at hset
      simp [hset, TicketPc.acquiring] at hacq
    · rw [hpid']
      exact fun he => pidOf_ne_zero p he.symm
  · right
    refine ⟨c', rfl, ?_⟩
    rcases TicketSys.step_acquiring ht' hc' with ⟨c, hc, hk⟩ | ⟨hn, -⟩
    · rw [hd, Option.some.injEq] at hc
      rw [hk, ← hc, hacq]
    · simp [hd] at hn

/-- **Step lemma**: every step keeps the client invariant. -/
theorem step {t : TestSys} {l : Fin NPROC × TestOp} (h : TestInv s) (hst : s.step l = some t) :
    TestInv t := by
  obtain ⟨p, op⟩ := l
  cases op with
  | call =>
    simp only [TestSys.step, Option.ite_none_right_eq_some] at hst
    obtain ⟨hp, hst⟩ := hst
    obtain ⟨u, hu, rfl⟩ := TestSys.lockStep_eq_some hst
    exact h.lockStep hu (h.fits_draw hp hu) fun _ => ⟨TestPc.noConfusion, TestPc.noConfusion⟩
  | stray =>
    -- the process is not the one `lk->pid` records: the release changes nothing
    simp only [TestSys.step, Option.ite_none_right_eq_some] at hst
    obtain ⟨hp, hst⟩ := hst
    obtain ⟨u, hu, rfl⟩ := TestSys.lockStep_eq_some hst
    obtain ⟨hcalls, hpid⟩ := hp ▸ h.fits p
    have hown : s.sys.lk.owns p (s.sys.calls p) = false := by
      simp [hcalls, TicketLock.owns, hpid]
    rw [TicketSys.release_stray hcalls hown, Option.some.injEq] at hu
    subst hu
    refine h.lockStep (TicketSys.release_stray hcalls hown) ?_ fun _ => ⟨TestPc.noConfusion, TestPc.noConfusion⟩
    rw [hcalls, if_pos rfl]
    exact ⟨rfl, hpid⟩
  | run =>
    cases hp : s.pc p with
    | idle => simp [TestSys.step, hp] at hst
    | acquire =>
      simp only [TestSys.step, hp] at hst
      obtain ⟨u, hu, rfl⟩ := TestSys.lockStep_eq_some hst
      exact h.lockStep hu (h.fits_acquire hp hu) fun _ => ⟨TestPc.noConfusion, TestPc.noConfusion⟩
    | load =>
      simp only [TestSys.step, hp, Option.some.injEq] at hst
      subst hst
      refine ⟨h.reachable, fun q => ?_, fun q v hq => ?_⟩
      · by_cases hqp : q = p
        · subst hqp
          simpa [hp, Fits] using h.fits q
        · simpa [update_of_ne hqp] using h.fits q
      · by_cases hqp : q = p
        · subst hqp
          simp only [update_self, TestPc.store.injEq] at hq
          exact hq.symm
        · simp only [update_of_ne hqp] at hq
          exact h.loaded q v hq
    | store v =>
      simp only [TestSys.step, hp, Option.some.injEq] at hst
      subst hst
      refine ⟨h.reachable, fun q => ?_, fun q w hq => ?_⟩
      · by_cases hqp : q = p
        · subst hqp
          simpa [hp, Fits] using h.fits q
        · simpa [update_of_ne hqp] using h.fits q
      · -- a second store would be a second process between the lock calls
        by_cases hqp : q = p
        · subst hqp
          simp at hq
        · simp only [update_of_ne hqp] at hq
          have hpq := h.critical_unique (p := p) (q := q) (by rw [hp]; rfl) (by rw [hq]; rfl)
          exact absurd hpq.symm hqp
    | unlock =>
      simp only [TestSys.step, hp] at hst
      obtain ⟨u, hu, rfl⟩ := TestSys.lockStep_eq_some hst
      exact h.lockStep hu (h.fits_unlock hp hu) fun _ => ⟨TestPc.noConfusion, TestPc.noConfusion⟩
    | release | stray =>
      simp only [TestSys.step, hp] at hst
      obtain ⟨u, hu, rfl⟩ := TestSys.lockStep_eq_some hst
      obtain ⟨d, hd, hacq⟩ := hp ▸ h.fits p
      refine h.lockStep hu ?_ fun _ => ⟨TestPc.noConfusion, TestPc.noConfusion⟩
      rcases h.fits_release hd hacq hu with ⟨hn, hpid⟩ | ⟨d', hd', hacq'⟩
      · simpa [hn, Fits] using hpid
      · simpa [hd', Fits] using hacq'

end TestInv

/-! ### Counting the increments -/

/-- What a run of `sys_ticketlocktest` shows. -/
inductive TestEvent where
  /-- The process calls `sys_ticketlocktest`. -/
  | call (p : Fin NPROC)
  /-- The store of the process's `safe_count++`. -/
  | inc (p : Fin NPROC)
  deriving DecidableEq, Repr

def TestEvent.isInc : TestEvent → Bool
  | inc _ => true
  | call _ => false

/-- What a step shows. -/
def testEvent (s : TestSys) : Fin NPROC × TestOp → List TestEvent
  | (p, .call) => [.call p]
  | (_, .stray) => []
  | (p, .run) =>
    match s.pc p with
    | .store _ => [.inc p]
    | _ => []

/-- `safe_count` holds the increments of the run, and every call past its `safe_count++` made
exactly one. -/
structure CountInv (s : TestSys) (evs : List TestEvent) : Prop where
  safe_count : s.safeCount = wrap (evs.countP TestEvent.isInc)
  per_call : ∀ p, evs.count (.inc p) + (s.pc p).pending = evs.count (.call p)

theorem countInv_init : CountInv TestSys.init [] where
  safe_count := rfl
  per_call _ := rfl

namespace CountInv

variable {s t : TestSys} {evs : List TestEvent}

/-- **Frame rule** for the counts: a step of `p` that moves `p` to `x` and shows `new`, a list of
events of `p`. -/
theorem move (h : CountInv s evs) {p : Fin NPROC} {x : TestPc} {new : List TestEvent}
    (ht : t.pc = update s.pc p x) (hsafe : t.safeCount = wrap ((evs ++ new).countP TestEvent.isInc))
    (hnew : ∀ e ∈ new, e = .call p ∨ e = .inc p)
    (hp : new.count (.inc p) + x.pending = (s.pc p).pending + new.count (.call p)) :
    CountInv t (evs ++ new) where
  safe_count := hsafe
  per_call q := by
    have hq := h.per_call q
    by_cases hqp : q = p
    · subst hqp
      rw [ht, update_self, List.count_append, List.count_append]
      omega
    · have hinc : new.count (.inc q) = 0 := List.count_eq_zero.mpr fun he => by
        rcases hnew _ he with he | he <;> simp_all
      have hcall : new.count (.call q) = 0 := List.count_eq_zero.mpr fun he => by
        rcases hnew _ he with he | he <;> simp_all
      rw [ht, update_of_ne hqp, List.count_append, List.count_append, hinc, hcall]
      exact hq

/-- A step on the lock that keeps the process's pending increment and shows nothing. -/
theorem lockStep (h : CountInv s evs) {p : Fin NPROC} {i a : TestPc}
    {u : TicketSys} (hi : i.pending = (s.pc p).pending) (ha : a.pending = (s.pc p).pending) :
    CountInv { s with sys := u, pc := update s.pc p (if u.calls p = none then a else i) }
      (evs ++ []) := by
  refine h.move rfl (by simpa using h.safe_count) (by simp) ?_
  split <;> simp [hi, ha]

/-- **Step lemma**: every step keeps the counts. -/
theorem step (hi : TestInv s) (h : CountInv s evs) {l : Fin NPROC × TestOp}
    (hst : s.step l = some t) : CountInv t (evs ++ testEvent s l) := by
  obtain ⟨p, op⟩ := l
  cases op with
  | call =>
    simp only [TestSys.step, Option.ite_none_right_eq_some] at hst
    obtain ⟨hp, hst⟩ := hst
    obtain ⟨u, hu, rfl⟩ := TestSys.lockStep_eq_some hst
    refine h.move rfl ?_ (by simp [testEvent]) ?_
    · simpa [testEvent, TestEvent.isInc] using h.safe_count
    · simp only [testEvent, hp]
      split <;> simp [TestPc.pending]
  | stray =>
    simp only [TestSys.step, Option.ite_none_right_eq_some] at hst
    obtain ⟨hp, hst⟩ := hst
    obtain ⟨u, hu, rfl⟩ := TestSys.lockStep_eq_some hst
    exact h.lockStep (by simp [hp, TestPc.pending]) (by simp [hp, TestPc.pending])
  | run =>
    cases hp : s.pc p with
    | idle => simp [TestSys.step, hp] at hst
    | acquire | unlock | release | stray =>
      simp only [TestSys.step, hp] at hst
      obtain ⟨u, hu, rfl⟩ := TestSys.lockStep_eq_some hst
      simp only [testEvent, hp]
      exact h.lockStep (by simp [hp, TestPc.pending]) (by simp [hp, TestPc.pending])
    | load =>
      simp only [TestSys.step, hp, Option.some.injEq] at hst
      subst hst
      simp only [testEvent, hp]
      exact h.move rfl (by simpa using h.safe_count) (by simp) (by simp [hp, TestPc.pending])
    | store v =>
      -- the store writes the loaded value plus one: the value `safe_count` had
      simp only [TestSys.step, hp, Option.some.injEq] at hst
      subst hst
      simp only [testEvent, hp]
      refine h.move rfl ?_ (by simp) (by simp [hp, TestPc.pending])
      rw [hi.loaded p v hp, h.safe_count, TicketSys.wrap_succ_wrap]
      simp [TestEvent.isInc]

end CountInv

namespace TestSys

/-- A state of `sys_ticketlocktest` and the events of the run that reached it. -/
def LoggedReachable : TestSys × List TestEvent → Prop :=
  Run.Reachable (logged step testEvent) fun st => st = (init, [])

/-- **Run lemma**: every logged run keeps the client invariant and the counts. -/
theorem testInv_reachable {st : TestSys × List TestEvent} (h : LoggedReachable st) :
    TestInv st.1 ∧ CountInv st.1 st.2 :=
  Run.Reachable.induction (fun st => TestInv st.1 ∧ CountInv st.1 st.2)
    (fun st (hs : st = (init, [])) => hs ▸ ⟨testInv_init, countInv_init⟩)
    (fun _ _ _ hs hst =>
      have hstep := logged_eq_some hst
      ⟨hs.1.step hstep.1, hstep.2 ▸ hs.2.step hs.1 hstep.1⟩) h

end TestSys

end Xv6Lab
