import Xv6Lab.Sync.TicketLock

/-!
# The reader/writer lock on ticket locks (`rwt_lock.c`)

`struct rwt_lock` is two ticket locks, `mutex` and `wrt`, and a count `readcount`.  A writer
brackets its section with `ticket_acquire(&lk->wrt)` and `ticket_release(&lk->wrt)`.  A reader
takes `mutex`, counts itself in, takes `wrt` when it is the first reader, and gives `mutex`
back; on its way out it takes `mutex`, counts itself out, releases `wrt` when it is the last
reader, and gives `mutex` back.

A process is at a line of the four functions (`RwtLine`); at a call of `ticket_acquire` or
`ticket_release` (`RwtCall`) it runs that call's steps on the lock the call names, with
`TicketSys.step`, and moves on to the next line when the call returns.  So each lock evolves
only by ticket-lock steps:

* `rwtInv_reachable` — both locks satisfy the ticket-lock invariant at every reachable state,
  so neither has two owners (`rwt_excludes`), and a process between its two calls on `mutex`
  is the one whose pid `mutex` records;
* `readcount_guarded` — a process that updates `readcount` owns `mutex`, so no two updates
  overlap;
* `reader_keeps_wrt` — `ticket_release` does nothing unless the caller's pid is `lk->pid`.  The
  first reader takes `wrt` under its own pid; when a different reader is the last one out, its
  `ticket_release(&lk->wrt)` returns at once and `wrt` stays taken with no reader and no writer
  left.
-/

namespace Xv6Lab

open Function

/-- The ticket locks of `struct rwt_lock`. -/
inductive RwtTicket where
  | mutex
  | wrt
  deriving DecidableEq, Repr

/-- The calls of `ticket_acquire` and `ticket_release` in `rwt_lock.c`. -/
inductive RwtCall where
  /-- `acquire_writer_tt`: `ticket_acquire(&lk->wrt)`. -/
  | aw
  /-- `release_writer_tt`: `ticket_release(&lk->wrt)`. -/
  | rw
  /-- `acquire_reader_tt`: `ticket_acquire(&lk->mutex)`. -/
  | ar0
  /-- `ticket_acquire(&lk->wrt)`, by the first reader. -/
  | ar2
  /-- `ticket_release(&lk->mutex)`. -/
  | ar3
  /-- `release_reader_tt`: `ticket_acquire(&lk->mutex)`. -/
  | rr0
  /-- `ticket_release(&lk->wrt)`, by the last reader. -/
  | rr2
  /-- `ticket_release(&lk->mutex)`. -/
  | rr3
  deriving DecidableEq, Repr

/-- Where a process stands in `rwt_lock.c`. -/
inductive RwtLine where
  /-- Outside the lock. -/
  | idle
  /-- At a call of a ticket-lock function. -/
  | call (k : RwtCall)
  /-- `lk->readcount++; if (lk->readcount == 1)`. -/
  | ar1
  /-- `lk->readcount--; if (lk->readcount == 0)`. -/
  | rr1
  /-- In the writer's section. -/
  | writing
  /-- In the reader's section. -/
  | reading
  deriving DecidableEq, Repr

namespace RwtCall

/-- The lock a call names. -/
def lock : RwtCall → RwtTicket
  | aw | rw | ar2 | rr2 => .wrt
  | ar0 | ar3 | rr0 | rr3 => .mutex

/-- `true` for `ticket_acquire`, `false` for `ticket_release`. -/
def acquires : RwtCall → Bool
  | aw | ar0 | ar2 | rr0 => true
  | rw | ar3 | rr2 | rr3 => false

/-- The line after the call returns. -/
def after : RwtCall → RwtLine
  | aw => .writing
  | rw => .idle
  | ar0 => .ar1
  | ar2 => .call .ar3
  | ar3 => .reading
  | rr0 => .rr1
  | rr2 => .call .rr3
  | rr3 => .idle

end RwtCall

/-- `struct rwt_lock`, with each ticket lock beside the calls the processes are in on it. -/
structure RwtSys where
  mutex : TicketSys
  wrt : TicketSys
  readcount : ℤ
  line : Fin NPROC → RwtLine

/-- The steps of a process on the lock. -/
inductive RwtOp where
  | beginWrite
  | beginRead
  | next
  deriving DecidableEq, Repr

namespace RwtSys

/-- The ticket lock `x`, with its calls. -/
def lock (s : RwtSys) : RwtTicket → TicketSys
  | .mutex => s.mutex
  | .wrt => s.wrt

@[simp] theorem lock_mutex (s : RwtSys) : s.lock .mutex = s.mutex := rfl

@[simp] theorem lock_wrt (s : RwtSys) : s.lock .wrt = s.wrt := rfl

def setLock (s : RwtSys) : RwtTicket → TicketSys → RwtSys
  | .mutex, t => { s with mutex := t }
  | .wrt, t => { s with wrt := t }

@[simp] theorem lock_setLock_self (s : RwtSys) (x : RwtTicket) (t : TicketSys) :
    (s.setLock x t).lock x = t := by
  cases x <;> rfl

@[simp] theorem lock_setLock_ne (s : RwtSys) {x y : RwtTicket} (h : y ≠ x) (t : TicketSys) :
    (s.setLock x t).lock y = s.lock y := by
  cases x <;> cases y <;> first | rfl | exact absurd rfl h

@[simp] theorem setLock_readcount (s : RwtSys) (x : RwtTicket) (t : TicketSys) :
    (s.setLock x t).readcount = s.readcount := by
  cases x <;> rfl

@[simp] theorem setLock_line (s : RwtSys) (x : RwtTicket) (t : TicketSys) :
    (s.setLock x t).line = s.line := by
  cases x <;> rfl

/-- The lines of `s` changed, its locks kept. -/
def setLine (s : RwtSys) (line : Fin NPROC → RwtLine) : RwtSys := { s with line := line }

@[simp] theorem setLine_lock (s : RwtSys) (line : Fin NPROC → RwtLine) (x : RwtTicket) :
    (s.setLine line).lock x = s.lock x := by
  cases x <;> rfl

/-- The next step of process `p` at call `k`: the call starts when `p` is in no call on `k`'s
lock, and runs on otherwise; when it returns, `p` goes on to the line after it. -/
def callStep (s : RwtSys) (p : Fin NPROC) (k : RwtCall) : Option RwtSys :=
  let ts := s.lock k.lock
  let op : TicketOp :=
    if ts.calls p = none then (if k.acquires then .acquire else .release) else .run
  (ts.step (p, op)).map fun t =>
    let s' := s.setLock k.lock t
    if t.calls p = none then s'.setLine (update s.line p k.after) else s'

/-- One step by process `p`: `none` when `p` cannot take it. -/
def step (s : RwtSys) : Fin NPROC × RwtOp → Option RwtSys
  | (p, .beginWrite) =>
    if s.line p = .idle then some (s.setLine (update s.line p (.call .aw))) else none
  | (p, .beginRead) =>
    if s.line p = .idle then some (s.setLine (update s.line p (.call .ar0))) else none
  | (p, .next) =>
    match s.line p with
    | .idle => none
    | .call k => s.callStep p k
    | .ar1 =>
      let rc := s.readcount + 1
      some { s with
        readcount := rc, line := update s.line p (if rc = 1 then .call .ar2 else .call .ar3) }
    | .rr1 =>
      let rc := s.readcount - 1
      some { s with
        readcount := rc, line := update s.line p (if rc = 0 then .call .rr2 else .call .rr3) }
    | .writing => some (s.setLine (update s.line p (.call .rw)))
    | .reading => some (s.setLine (update s.line p (.call .rr0)))

/-- `init_rwt_lock`, with every process outside the lock. -/
def init : RwtSys := ⟨TicketSys.init, TicketSys.init, 0, fun _ => .idle⟩

def Init (s : RwtSys) : Prop := s = init

def Reachable : RwtSys → Prop := Run.Reachable step Init

/-- The run of `ls` from `init_rwt_lock`. -/
def exec (ls : List (Fin NPROC × RwtOp)) : Option RwtSys := Run.exec step init ls

theorem exists_reachable_of_exec {β : Type*} (ls : List (Fin NPROC × RwtOp)) {f : RwtSys → β}
    {b : β} (h : (exec ls).map f = some b) : ∃ s, Reachable s ∧ f s = b :=
  Run.exists_reachable_of_exec_map ls (show Init init from rfl) h

end RwtSys

/-- The lines that run with `mutex` taken by the process: from the return of its
`ticket_acquire(&lk->mutex)` to its `ticket_release(&lk->mutex)`. -/
def RwtLine.holdsMutex : RwtLine → Bool
  | .ar1 | .rr1 | .call .ar2 | .call .ar3 | .call .rr2 | .call .rr3 => true
  | _ => false

namespace RwtCall

/-- After a call on `wrt` a process holds `mutex` only if it held it during the call. -/
theorem holdsMutex_of_after {k : RwtCall} (hk : k.lock = .wrt) (h : k.after.holdsMutex) :
    (RwtLine.call k).holdsMutex := by
  revert hk h
  cases k <;> decide

/-- A call on `mutex` after which the process holds `mutex` is a `ticket_acquire`. -/
theorem acquires_of_after {k : RwtCall} (hk : k.lock = .mutex) (h : k.after.holdsMutex) :
    k.acquires := by
  revert hk h
  cases k <;> decide

end RwtCall

/-- **The invariant of `rwt_lock`.** -/
structure RwtInv (s : RwtSys) : Prop where
  /-- Each lock evolves by ticket-lock steps only. -/
  ticket : ∀ x, TicketInv (s.lock x).lk (s.lock x).calls
  /-- A process is in a call on a lock only at a line that makes such a call. -/
  calls_line : ∀ x q c, (s.lock x).calls q = some c →
    ∃ k, s.line q = .call k ∧ k.lock = x ∧ k.acquires = c.acquiring
  /-- Between its two calls on `mutex` a process's pid is `mutex.pid`. -/
  mutex_pid : ∀ q, (s.line q).holdsMutex → s.mutex.calls q = none → s.mutex.lk.pid = pidOf q

theorem rwtInv_init : RwtInv RwtSys.init where
  ticket x := by cases x <;> exact ticketInv_init
  calls_line x _ _ h := by cases x <;> cases h
  mutex_pid _ h := by cases h

namespace RwtInv

variable {s : RwtSys}

/-- A process at no call is in no call on either lock. -/
theorem calls_none (h : RwtInv s) {p : Fin NPROC} (x : RwtTicket)
    (hp : ∀ k, s.line p = .call k → k.lock ≠ x) : (s.lock x).calls p = none := by
  rcases hc : (s.lock x).calls p with _ | c
  · rfl
  · obtain ⟨k, hk, hkx, -⟩ := h.calls_line x p c hc
    exact absurd hkx (hp k hk)

/-- A process at a line that makes no call moves to line `l`, the locks kept. -/
theorem move (h : RwtInv s) {t : RwtSys} {p : Fin NPROC} {l : RwtLine}
    (hlock : ∀ x, t.lock x = s.lock x) (hline : t.line = update s.line p l)
    (hp : ∀ k, s.line p ≠ .call k) (hl : l.holdsMutex → s.mutex.lk.pid = pidOf p) :
    RwtInv t := by
  have hpx : ∀ x, (s.lock x).calls p = none := fun x =>
    h.calls_none x fun k hk => absurd hk (hp k)
  have hmutex : t.mutex = s.mutex := hlock .mutex
  refine ⟨fun x => ?_, fun x q c hc => ?_, fun q hq hn => ?_⟩
  · rw [hlock]
    exact h.ticket x
  · rw [hlock] at hc
    have hqp : q ≠ p := by
      rintro rfl
      rw [hpx] at hc
      cases hc
    rw [hline, update_of_ne hqp]
    exact h.calls_line x q c hc
  · rw [hmutex] at hn ⊢
    by_cases hqp : q = p
    · subst hqp
      rw [hline, update_self] at hq
      exact hl hq
    · rw [hline, update_of_ne hqp] at hq
      exact h.mutex_pid q hq hn

section LockStep

/-! A step of process `p` at call `k` runs `TicketSys.step` on `k`'s lock; `lockStep` is that
step seen from the whole lock. -/

variable (h : RwtInv s) {p : Fin NPROC} {k : RwtCall} (hp : s.line p = .call k) {op : TicketOp}
  {t' : TicketSys} (hts : (s.lock k.lock).step (p, op) = some t')
include h hp hts

omit hp in
theorem lockStep_ticket (x : RwtTicket) :
    TicketInv ((s.setLock k.lock t').lock x).lk ((s.setLock k.lock t').lock x).calls := by
  by_cases hx : x = k.lock
  · subst hx
    rw [RwtSys.lock_setLock_self]
    exact TicketSys.ticketInv_step (h.ticket _) hts
  · rw [RwtSys.lock_setLock_ne _ hx]
    exact h.ticket x

omit hp in
/-- Another process's calls keep their lock and kind. -/
theorem lockStep_calls_ne {x : RwtTicket} {q : Fin NPROC} {c : TicketPc} (hqp : q ≠ p)
    (hc : ((s.setLock k.lock t').lock x).calls q = some c) :
    ∃ k', s.line q = .call k' ∧ k'.lock = x ∧ k'.acquires = c.acquiring := by
  by_cases hx : x = k.lock
  · subst hx
    rw [RwtSys.lock_setLock_self] at hc
    rcases TicketSys.step_calls_ne hts hqp with hq | hq
    · rw [hq] at hc
      exact h.calls_line _ q c hc
    · rw [hq] at hc
      obtain ⟨c0, hc0, rfl⟩ := Option.map_eq_some_iff.mp hc
      rw [TicketPc.acquiring_wakeUp]
      exact h.calls_line _ q c0 hc0
  · rw [RwtSys.lock_setLock_ne _ hx] at hc
    exact h.calls_line x q c hc

omit hts in
/-- The caller is in no call on the other lock. -/
theorem lockStep_other {x : RwtTicket} (hx : x ≠ k.lock) :
    ((s.setLock k.lock t').lock x).calls p = none := by
  rw [RwtSys.lock_setLock_ne _ hx]
  exact h.calls_none x fun k' hk' => by
    rw [hp, RwtLine.call.injEq] at hk'
    subst hk'
    exact hx.symm

omit hp in
/-- Another process that owned `mutex` by pid still does. -/
theorem lockStep_pid_ne {q : Fin NPROC} (hqp : q ≠ p) (hq : (s.line q).holdsMutex)
    (hn : ((s.setLock k.lock t').lock .mutex).calls q = none) :
    ((s.setLock k.lock t').lock .mutex).lk.pid = pidOf q := by
  generalize hk : k.lock = x at hn hts ⊢
  cases x with
  | wrt =>
    rw [RwtSys.lock_setLock_ne _ (by decide)] at hn ⊢
    exact h.mutex_pid q hq hn
  | mutex =>
    rw [RwtSys.lock_setLock_self] at hn ⊢
    rw [RwtSys.lock_mutex] at hts
    have hn0 : s.mutex.calls q = none := (TicketSys.step_calls_ne_none hts hqp).mp hn
    have hpid := h.mutex_pid q hq hn0
    rcases TicketSys.step_pid hts with he | ⟨hset, -⟩ | ⟨hpq, -⟩
    · rw [he, hpid]
    · -- `p` owns `mutex` at `setPid`, and `q` owns it by pid
      have hown := (h.ticket .mutex).owner_unique q p
        (by simp [hn0, hpid, TicketLock.owns])
        (by simp [hset, TicketLock.owns])
      exact absurd hown hqp
    · exact absurd (pidOf_inj (hpid.symm.trans hpq)) hqp

/-- **The call returned**: `p` moves on to the line after it. -/
theorem lockStep_return
    (hop : (s.lock k.lock).calls p = none → op = if k.acquires then .acquire else .release)
    (hret : t'.calls p = none) :
    RwtInv ((s.setLock k.lock t').setLine (update s.line p k.after)) := by
  refine ⟨fun x => ?_, fun x q c hc => ?_, fun q hq hn => ?_⟩
  · rw [RwtSys.setLine_lock]
    exact h.lockStep_ticket hts x
  · rw [RwtSys.setLine_lock] at hc
    have hqp : q ≠ p := by
      rintro rfl
      by_cases hx : x = k.lock
      · subst hx
        rw [RwtSys.lock_setLock_self, hret] at hc
        cases hc
      · rw [h.lockStep_other hp hx] at hc
        cases hc
    show ∃ k', update s.line p k.after q = _ ∧ _
    rw [update_of_ne hqp]
    exact h.lockStep_calls_ne hts hqp hc
  · change ((s.setLock k.lock t').lock .mutex).calls q = none at hn
    show ((s.setLock k.lock t').lock .mutex).lk.pid = pidOf q
    change (update s.line p k.after q).holdsMutex at hq
    by_cases hqp : q = p
    · subst hqp
      rw [update_self] at hq
      generalize hk : k.lock = x at hn hts hop ⊢
      cases x with
      | wrt =>
        rw [RwtSys.lock_setLock_ne _ (by decide)] at hn ⊢
        exact h.mutex_pid q (hp ▸ RwtCall.holdsMutex_of_after hk hq) hn
      | mutex =>
        -- `ticket_acquire(&lk->mutex)` returned at `lk->pid = myproc()->pid`
        rw [RwtSys.lock_setLock_self]
        have hacq := RwtCall.acquires_of_after hk hq
        rcases hc : s.mutex.calls q with _ | c
        · -- out of any call the step starts `ticket_acquire`, which does not return at once
          have hc' : (s.lock .mutex).calls q = none := hc
          rw [hop hc', if_pos hacq] at hts
          obtain ⟨-, rfl⟩ := TicketSys.step_acquire hts
          simp at hret
        · obtain ⟨k', hk', -, hkc⟩ := h.calls_line .mutex q c hc
          rw [hp, RwtLine.call.injEq] at hk'
          subst hk'
          exact TicketSys.step_return_acquire hts hc (hkc ▸ hacq) hret
    · rw [update_of_ne hqp] at hq
      exact h.lockStep_pid_ne hts hqp hq hn

/-- **The call goes on**: `p` stays at it. -/
theorem lockStep_continue
    (hop : (s.lock k.lock).calls p = none → op = if k.acquires then .acquire else .release)
    (hret : ¬t'.calls p = none) : RwtInv (s.setLock k.lock t') := by
  refine ⟨h.lockStep_ticket hts, fun x q c hc => ?_, fun q hq hn => ?_⟩
  · by_cases hqp : q = p
    · subst hqp
      by_cases hx : x = k.lock
      · subst hx
        rw [RwtSys.lock_setLock_self] at hc
        refine ⟨k, by rw [RwtSys.setLock_line, hp], rfl, ?_⟩
        rcases TicketSys.step_acquiring hts hc with ⟨c0, hc0, hcc⟩ | ⟨hc0, hcc⟩
        · obtain ⟨k', hk', -, hkc⟩ := h.calls_line _ q c0 hc0
          rw [hp, RwtLine.call.injEq] at hk'
          subst hk'
          rw [hcc, hkc]
        · rw [hcc, hop hc0]
          cases k.acquires <;> rfl
      · rw [h.lockStep_other hp hx] at hc
        cases hc
    · rw [RwtSys.setLock_line]
      exact h.lockStep_calls_ne hts hqp hc
  · change ((s.setLock k.lock t').lock .mutex).calls q = none at hn
    show ((s.setLock k.lock t').lock .mutex).lk.pid = pidOf q
    rw [RwtSys.setLock_line] at hq
    by_cases hqp : q = p
    · subst hqp
      generalize hk : k.lock = x at hn ⊢
      cases x with
      | wrt =>
        rw [RwtSys.lock_setLock_ne _ (by decide)] at hn ⊢
        exact h.mutex_pid q hq hn
      | mutex =>
        rw [RwtSys.lock_setLock_self] at hn
        exact absurd hn hret
    · exact h.lockStep_pid_ne hts hqp hq hn

end LockStep

/-- **Step lemma for a call**: the step of a process at a call keeps the invariant. -/
theorem callStep (h : RwtInv s) {p : Fin NPROC} {k : RwtCall} (hp : s.line p = .call k)
    {t : RwtSys} (hst : s.callStep p k = some t) : RwtInv t := by
  unfold RwtSys.callStep at hst
  dsimp only at hst
  obtain ⟨t', hts, rfl⟩ := Option.map_eq_some_iff.mp hst
  -- out of any call, the step is the call's first one
  have hop : (s.lock k.lock).calls p = none →
      (if (s.lock k.lock).calls p = none then (if k.acquires then TicketOp.acquire else .release)
        else .run) = if k.acquires then .acquire else .release := fun hc => if_pos hc
  by_cases hret : t'.calls p = none
  · rw [if_pos hret]
    exact h.lockStep_return hp hts hop hret
  · rw [if_neg hret]
    exact h.lockStep_continue hp hts hop hret

end RwtInv

namespace RwtSys

/-- **Step lemma**: every step keeps the invariant of `rwt_lock`. -/
theorem rwtInv_step {s t : RwtSys} {l : Fin NPROC × RwtOp} (h : RwtInv s)
    (hst : s.step l = some t) : RwtInv t := by
  obtain ⟨p, op⟩ := l
  -- a process at a line that makes no call
  have hnc : ∀ l, s.line p = l → (∀ k, l ≠ .call k) → ∀ k, s.line p ≠ .call k :=
    fun l hl hk k hpk => hk k (hl ▸ hpk)
  cases op with
  | beginWrite | beginRead =>
    simp only [step, Option.ite_none_right_eq_some, Option.some.injEq] at hst
    obtain ⟨hp, rfl⟩ := hst
    exact h.move (setLine_lock _ _) rfl (hnc _ hp fun k hk => by cases hk)
      (fun hl => absurd hl (by decide))
  | next =>
    simp only [step] at hst
    rcases hp : s.line p with _ | k | _ | _ | _ | _
    · rw [hp] at hst
      cases hst
    · rw [hp] at hst
      exact h.callStep hp hst
    all_goals
      rw [hp] at hst
      simp only [Option.some.injEq] at hst
      subst hst
      have hp' := hnc _ hp fun k hk => by cases hk
    · -- `lk->readcount++`: `p` keeps `mutex`
      refine h.move (fun x => by cases x <;> rfl) rfl hp' fun _ => ?_
      exact h.mutex_pid p (by rw [hp]; rfl) (h.calls_none .mutex fun k hk => absurd hk (hp' k))
    · -- `lk->readcount--`: `p` keeps `mutex`
      refine h.move (fun x => by cases x <;> rfl) rfl hp' fun _ => ?_
      exact h.mutex_pid p (by rw [hp]; rfl) (h.calls_none .mutex fun k hk => absurd hk (hp' k))
    · exact h.move (setLine_lock _ _) rfl hp' fun hl => absurd hl (by decide)
    · exact h.move (setLine_lock _ _) rfl hp' fun hl => absurd hl (by decide)

/-- **Run lemma**: every reachable state satisfies the invariant of `rwt_lock`. -/
theorem rwtInv_reachable {s : RwtSys} (h : s.Reachable) : RwtInv s :=
  Run.Reachable.induction RwtInv (fun u hu => by rw [show u = init from hu]; exact rwtInv_init)
    (fun _ _ _ hs hst => rwtInv_step hs hst) h

end RwtSys

/-- **Each ticket lock of `rwt_lock` excludes**: at every reachable state neither `mutex` nor
`wrt` has two owners. -/
theorem rwt_excludes {s : RwtSys} (h : s.Reachable) (x : RwtTicket) {p q : Fin NPROC}
    (hp : (s.lock x).lk.owns p ((s.lock x).calls p))
    (hq : (s.lock x).lk.owns q ((s.lock x).calls q)) : p = q :=
  ((RwtSys.rwtInv_reachable h).ticket x).owner_unique p q hp hq

/-- **`readcount` is guarded by `mutex`**: at every reachable state at most one process is at
`lk->readcount++` or `lk->readcount--`. -/
theorem readcount_guarded {s : RwtSys} (h : s.Reachable) {p q : Fin NPROC}
    (hp : s.line p = .ar1 ∨ s.line p = .rr1) (hq : s.line q = .ar1 ∨ s.line q = .rr1) :
    p = q := by
  have hinv := RwtSys.rwtInv_reachable h
  -- a process at either update holds `mutex` under its own pid
  have hpid : ∀ r, (s.line r = .ar1 ∨ s.line r = .rr1) → s.mutex.lk.pid = pidOf r := by
    intro r hr
    have hnc : ∀ k, s.line r = .call k → k.lock ≠ .mutex := by
      intro k hk
      rcases hr with hr | hr <;> rw [hr] at hk <;> cases hk
    apply hinv.mutex_pid r
    · rcases hr with hr | hr <;> rw [hr] <;> rfl
    · exact hinv.calls_none .mutex hnc
  exact pidOf_inj ((hpid p hp).symm.trans (hpid q hq))

set_option maxRecDepth 100000 in
/-- Process 0 reads first and takes `wrt` under pid 1; process 1 reads beside it.  Process 0
leaves first; process 1 leaves last, and its `ticket_release(&lk->wrt)` finds pid 1 in
`lk->pid`, not its own 2, and returns.  Every process is outside the lock, `readcount == 0`,
and `wrt` is still taken. -/
theorem reader_keeps_wrt : ∃ s, RwtSys.Reachable s ∧ s.wrt.lk.turn ≠ s.wrt.lk.ticket ∧
    s.readcount = 0 ∧ ∀ q, s.line q = .idle := by
  obtain ⟨s, hs, hf⟩ := RwtSys.exists_reachable_of_exec
    ([(0, .beginRead)] ++ List.replicate 10 (0, .next) ++
      [(1, .beginRead)] ++ List.replicate 7 (1, .next) ++
      List.replicate 8 (0, .next) ++ List.replicate 9 (1, .next))
    (f := fun s => decide (s.wrt.lk.turn ≠ s.wrt.lk.ticket ∧ s.readcount = 0 ∧
      ∀ q, s.line q = .idle)) (b := true) (by decide)
  exact ⟨s, hs, of_decide_eq_true hf⟩

end Xv6Lab
