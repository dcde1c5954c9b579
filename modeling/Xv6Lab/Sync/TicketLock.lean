import Xv6Lab.Kernel.Basic
import Xv6Lab.Lib.Run

/-!
# Ticket locks (`ticket_lock.c`)

`ticket_acquire` draws a ticket with `fetch_and_add(&lk->ticket, 1)` and loops on
`while (lk->turn != me) sleep_without_spin(lk)`; `ticket_release` checks
`lk->pid == myproc()->pid`, clears `pid`, adds one to `turn` and calls `wakeup(lk)`.  None of
this runs under a lock: the test of `turn` and the sleep are two steps, and `wakeup(lk)` wakes
only the processes that are already `SLEEPING` on `lk`.

A process inside one of the two calls is at a `TicketPc`; `TicketLock.draw`,
`TicketLock.releaseTest` and `TicketLock.advance` are the atomic steps of the calls, and
`TicketSys.step` runs them for a table of processes that call either function at any time.

* `TicketInv` — what every reachable lock satisfies: tickets drawn and waiting are distinct
  and below `ticket`, and at most one process **owns** the lock (it passed the test and has
  not yet moved `turn` on); while one does, no waiter holds the ticket of `turn`;
* `ticketInv_step` — every step keeps it, so `ticket_excludes`: no two processes own the lock;
* `lost_wakeup` — a waiter tests `turn`, the owner releases before the waiter sets
  `SLEEPING`, and the waiter sleeps with its turn come;
* `stalled_forever` — after that no process ever owns the lock again.
-/

namespace Xv6Lab

open Function

/-- `struct ticket_lock`, without its name. -/
structure TicketLock where
  ticket : ℕ
  turn : ℕ
  pid : ℕ
  deriving DecidableEq, Repr

/-- `init_ticket_lock`. -/
def initTicketLock : TicketLock := ⟨0, 0, 0⟩

/-- `myproc()->pid` for the process in slot `p`: xv6 pids are positive and distinct. -/
def pidOf (p : Fin NPROC) : ℕ := p.val + 1

theorem pidOf_inj {p q : Fin NPROC} (h : pidOf p = pidOf q) : p = q :=
  Fin.ext (Nat.succ_injective h)

theorem pidOf_ne_zero (p : Fin NPROC) : pidOf p ≠ 0 := Nat.succ_ne_zero _

/-- Where a process is inside `ticket_acquire(lk)` or `ticket_release(lk)`. -/
inductive TicketPc where
  /-- `while (lk->turn != me)`, with ticket `me` drawn. -/
  | test (me : ℕ)
  /-- In `sleep_without_spin(lk)`, before it takes `ptable.lock` and sets `SLEEPING`. -/
  | sleep (me : ℕ)
  /-- `SLEEPING` on `lk`. -/
  | asleep (me : ℕ)
  /-- `lk->pid = myproc()->pid`, the last line of `ticket_acquire`. -/
  | setPid
  /-- `fetch_and_add(&lk->turn, 1)` in `ticket_release`. -/
  | incTurn
  /-- `wakeup(lk)`, the last line of `ticket_release`. -/
  | wake
  deriving DecidableEq, Repr

namespace TicketPc

/-- The ticket of a process waiting in `ticket_acquire`. -/
def drawn : TicketPc → Option ℕ
  | test me | sleep me | asleep me => some me
  | _ => none

/-- `wakeup1(lk)` on a process in a call on `lk`: a sleeper becomes runnable and tests again. -/
def wakeUp : TicketPc → TicketPc
  | asleep me => test me
  | c => c

/-- `true` inside `ticket_acquire`, `false` inside `ticket_release`. -/
def acquiring : TicketPc → Bool
  | test _ | sleep _ | asleep _ | setPid => true
  | incTurn | wake => false

@[simp] theorem acquiring_wakeUp (c : TicketPc) : c.wakeUp.acquiring = c.acquiring := by
  cases c <;> rfl

@[simp] theorem drawn_wakeUp (c : TicketPc) : c.wakeUp.drawn = c.drawn := by
  cases c <;> rfl

theorem wakeUp_eq_self {c : TicketPc} (h : c.drawn = none) : c.wakeUp = c := by
  cases c <;> simp_all [drawn, wakeUp]

end TicketPc

namespace TicketLock

/-- `uint me = fetch_and_add(&lk->ticket, 1)`, the first step of `ticket_acquire`. -/
def draw (lk : TicketLock) : TicketLock × TicketPc :=
  ({ lk with ticket := lk.ticket + 1 }, .test lk.ticket)

/-- The first step of `ticket_release` by `p`: with `lk->pid == myproc()->pid` it clears `pid`
and goes on; otherwise the call returns (`none`). -/
def releaseTest (lk : TicketLock) (p : Fin NPROC) : TicketLock × Option TicketPc :=
  if lk.pid = pidOf p then ({ lk with pid := 0 }, some .incTurn) else (lk, none)

/-- A further step by `p` inside a call: the lock after it, where `p` is then (`none` once the
call returns), and whether the step was `wakeup(lk)`.  A sleeper takes no step of its own. -/
def advance (lk : TicketLock) (p : Fin NPROC) :
    TicketPc → Option (TicketLock × Option TicketPc × Bool)
  | .test me => some (lk, some (if lk.turn ≠ me then .sleep me else .setPid), false)
  | .sleep me => some (lk, some (.asleep me), false)
  | .asleep _ => none
  | .setPid => some ({ lk with pid := pidOf p }, none, false)
  | .incTurn => some ({ lk with turn := lk.turn + 1 }, some .wake, false)
  | .wake => some (lk, none, true)

/-- Process `q`, at `c`, **owns** `lk`: it passed the test of `turn` and has not moved `turn`
on.  Out of any call on `lk` that is the process whose pid `lk->pid` records. -/
def owns (lk : TicketLock) (q : Fin NPROC) : Option TicketPc → Bool
  | some .setPid | some .incTurn => true
  | none => lk.pid == pidOf q
  | some _ => false

theorem owns_of_pid_eq {lk lk' : TicketLock} (h : lk'.pid = lk.pid) (q : Fin NPROC)
    (c : Option TicketPc) : lk'.owns q c = lk.owns q c := by
  rcases c with _ | ⟨_ | _ | _ | _ | _ | _⟩ <;> simp [owns, h]

/-- Inside a call, ownership does not read `pid`. -/
theorem owns_some (lk lk' : TicketLock) (q : Fin NPROC) (c : TicketPc) :
    lk'.owns q (some c) = lk.owns q (some c) := by
  cases c <;> rfl

theorem owns_of_drawn {lk : TicketLock} {q : Fin NPROC} {c : TicketPc} {me : ℕ}
    (h : c.drawn = some me) : lk.owns q (some c) = false := by
  cases c <;> simp_all [owns, TicketPc.drawn]

@[simp] theorem owns_wakeUp (lk : TicketLock) (q : Fin NPROC) (c : Option TicketPc) :
    lk.owns q (c.map TicketPc.wakeUp) = lk.owns q c := by
  rcases c with _ | ⟨_ | _ | _ | _ | _ | _⟩ <;> rfl

end TicketLock

/-- The ticket of `q`, if `q` waits in `ticket_acquire`. -/
def drawnOf (calls : Fin NPROC → Option TicketPc) (q : Fin NPROC) : Option ℕ :=
  (calls q).bind TicketPc.drawn

theorem drawnOf_update_ne {calls : Fin NPROC → Option TicketPc} {p q : Fin NPROC} (hqp : q ≠ p)
    (c : Option TicketPc) : drawnOf (update calls p c) q = drawnOf calls q := by
  rw [drawnOf, update_of_ne hqp]
  rfl

/-- **The ticket-lock invariant** over a lock and the call each process is in on it. -/
structure TicketInv (lk : TicketLock) (calls : Fin NPROC → Option TicketPc) : Prop where
  turn_le : lk.turn ≤ lk.ticket
  drawn_lt : ∀ q me, drawnOf calls q = some me → me < lk.ticket
  drawn_inj : ∀ q r me, drawnOf calls q = some me → drawnOf calls r = some me → q = r
  owner_ahead : ∀ q, lk.owns q (calls q) → lk.turn < lk.ticket
  owner_blocks : ∀ q, lk.owns q (calls q) → ∀ r me, drawnOf calls r = some me → me ≠ lk.turn
  owner_unique : ∀ q r, lk.owns q (calls q) → lk.owns r (calls r) → q = r
  /-- A releaser has cleared `pid`, and no later `ticket_acquire` sets it to its pid. -/
  released : ∀ q, calls q = some .incTurn ∨ calls q = some .wake → lk.pid ≠ pidOf q

theorem ticketInv_init : TicketInv initTicketLock fun _ => none where
  turn_le := le_rfl
  drawn_lt _ _ h := by cases h
  drawn_inj _ _ _ h := by cases h
  owner_ahead q h := by simp [TicketLock.owns, initTicketLock, pidOf] at h
  owner_blocks _ _ _ _ h := by cases h
  owner_unique q _ h := by simp [TicketLock.owns, initTicketLock, pidOf] at h
  released _ h := by simp at h

namespace TicketInv

variable {lk lk' : TicketLock} {calls calls' : Fin NPROC → Option TicketPc}

/-- **Frame rule**: with `ticket` and `turn` kept, fewer waiters and fewer owners keep the
invariant. -/
theorem mono (h : TicketInv lk calls) (hticket : lk'.ticket = lk.ticket)
    (hturn : lk'.turn = lk.turn)
    (hdrawn : ∀ q me, drawnOf calls' q = some me → drawnOf calls q = some me)
    (howns : ∀ q, lk'.owns q (calls' q) → lk.owns q (calls q))
    (hrel : ∀ q, calls' q = some .incTurn ∨ calls' q = some .wake → lk'.pid ≠ pidOf q) :
    TicketInv lk' calls' where
  turn_le := by rw [hticket, hturn]; exact h.turn_le
  drawn_lt q me hq := by rw [hticket]; exact h.drawn_lt q me (hdrawn q me hq)
  drawn_inj q r me hq hr := h.drawn_inj q r me (hdrawn q me hq) (hdrawn r me hr)
  owner_ahead q hq := by rw [hticket, hturn]; exact h.owner_ahead q (howns q hq)
  owner_blocks q hq r me hr := by rw [hturn]; exact h.owner_blocks q (howns q hq) r me (hdrawn r me hr)
  owner_unique q r hq hr := h.owner_unique q r (howns q hq) (howns r hr)
  released := hrel

/-- The owner's ticket is `turn`, so a waiter's ticket is never `turn` while there is one. -/
theorem not_owns_of_drawn_turn (h : TicketInv lk calls) {p : Fin NPROC}
    (hp : drawnOf calls p = some lk.turn) (q : Fin NPROC) : lk.owns q (calls q) = false := by
  by_contra hq
  exact h.owner_blocks q (Bool.not_eq_false _ ▸ hq) p lk.turn hp rfl

/-- After `p` draws, the owners are the owners before, and `p` is not one. -/
theorem owns_after_draw {p q : Fin NPROC}
    (hq : lk.draw.1.owns q (update calls p (some lk.draw.2) q)) : q ≠ p ∧ lk.owns q (calls q) := by
  by_cases hqp : q = p
  · subst hqp
    simp [TicketLock.draw, TicketLock.owns] at hq
  · rw [update_of_ne hqp, TicketLock.owns_of_pid_eq rfl] at hq
    exact ⟨hqp, hq⟩

/-- `fetch_and_add(&lk->ticket, 1)` by a process in no call on `lk`. -/
theorem draw (h : TicketInv lk calls) {p : Fin NPROC} (hp : calls p = none) :
    TicketInv lk.draw.1 (update calls p (some lk.draw.2)) where
  turn_le := Nat.le_succ_of_le h.turn_le
  drawn_lt q me hq := by
    by_cases hqp : q = p
    · subst hqp
      simp [drawnOf, TicketLock.draw, TicketPc.drawn] at hq ⊢
      omega
    · rw [drawnOf_update_ne hqp] at hq
      exact Nat.lt_succ_of_lt (h.drawn_lt q me hq)
  drawn_inj q r me hq hr := by
    -- the new ticket is above every ticket drawn before
    have hnew : ∀ x, x ≠ p → drawnOf (update calls p (some lk.draw.2)) x = some me →
        me < lk.ticket := fun x hx hxm => by
      rw [drawnOf_update_ne hx] at hxm
      exact h.drawn_lt x me hxm
    by_cases hqp : q = p <;> by_cases hrp : r = p
    · rw [hqp, hrp]
    · subst hqp
      simp [drawnOf, TicketLock.draw, TicketPc.drawn] at hq
      exact absurd (hnew r hrp hr) (by omega)
    · subst hrp
      simp [drawnOf, TicketLock.draw, TicketPc.drawn] at hr
      exact absurd (hnew q hqp hq) (by omega)
    · rw [drawnOf_update_ne hqp] at hq
      rw [drawnOf_update_ne hrp] at hr
      exact h.drawn_inj q r me hq hr
  owner_ahead q hq := Nat.lt_succ_of_lt (h.owner_ahead q (owns_after_draw hq).2)
  owner_blocks q hq r me hr := by
    obtain ⟨-, hown⟩ := owns_after_draw hq
    by_cases hrp : r = p
    · -- the new ticket is past `turn`, which the owner holds
      subst hrp
      simp [drawnOf, TicketLock.draw, TicketPc.drawn] at hr
      have := h.owner_ahead q hown
      simp only [TicketLock.draw]
      omega
    · rw [drawnOf_update_ne hrp] at hr
      exact h.owner_blocks q hown r me hr
  owner_unique q r hq hr := h.owner_unique q r (owns_after_draw hq).2 (owns_after_draw hr).2
  released q hq := by
    have hqp : q ≠ p := by
      rintro rfl
      simp [TicketLock.draw] at hq
    rw [update_of_ne hqp] at hq
    exact h.released q hq

/-- A waiter moves on inside its call and keeps its ticket: the test that finds `turn != me`,
or `sleep_without_spin` setting `SLEEPING`. -/
theorem wait_step (h : TicketInv lk calls) {p : Fin NPROC} {c c' : TicketPc} {me : ℕ}
    (hp : calls p = some c) (hc : c.drawn = some me) (hc' : c'.drawn = some me) :
    TicketInv lk (update calls p (some c')) := by
  refine h.mono rfl rfl (fun q m hq => ?_) (fun q hq => ?_) (fun q hq => ?_)
  · by_cases hqp : q = p
    · subst hqp
      simp only [drawnOf, update_self, Option.bind_some, hc'] at hq
      simp only [drawnOf, hp, Option.bind_some, hc, hq]
    · rwa [drawnOf_update_ne hqp] at hq
  · by_cases hqp : q = p
    · subst hqp
      rw [update_self, TicketLock.owns_of_drawn hc'] at hq
      cases hq
    · rwa [update_of_ne hqp] at hq
  · by_cases hqp : q = p
    · subst hqp
      rw [update_self] at hq
      rcases hq with hq | hq <;> cases hq <;> cases hc'
    · rw [update_of_ne hqp] at hq
      exact h.released q hq

/-- The test that finds `turn == me`: the waiter holding the ticket of `turn` comes to own the
lock, and it is the only owner. -/
theorem pass (h : TicketInv lk calls) {p : Fin NPROC} (hp : calls p = some (.test lk.turn)) :
    TicketInv lk (update calls p (some .setPid)) := by
  have hpd : drawnOf calls p = some lk.turn := by simp [drawnOf, hp, TicketPc.drawn]
  -- after the step a waiter is one of before, other than `p`
  have hdrawn : ∀ q me, drawnOf (update calls p (some .setPid)) q = some me →
      q ≠ p ∧ drawnOf calls q = some me := by
    intro q me hq
    by_cases hqp : q = p
    · subst hqp
      simp [drawnOf, TicketPc.drawn] at hq
    · rw [drawnOf_update_ne hqp] at hq
      exact ⟨hqp, hq⟩
  -- and every owner is `p`: an owner before would block the ticket of `turn`
  have hown : ∀ q, lk.owns q (update calls p (some .setPid) q) → q = p := by
    intro q hq
    by_contra hqp
    rw [update_of_ne hqp, h.not_owns_of_drawn_turn hpd q] at hq
    cases hq
  exact {
    turn_le := h.turn_le
    drawn_lt := fun q me hq => h.drawn_lt q me (hdrawn q me hq).2
    drawn_inj := fun q r me hq hr => h.drawn_inj q r me (hdrawn q me hq).2 (hdrawn r me hr).2
    owner_ahead := fun _ _ => h.drawn_lt p lk.turn hpd
    owner_blocks := fun _ _ r me hr hme => by
      obtain ⟨hrp, hr⟩ := hdrawn r me hr
      exact hrp (h.drawn_inj r p me hr (hme ▸ hpd))
    owner_unique := fun q r hq hr => (hown q hq).trans (hown r hr).symm
    released := fun q hq => by
      have hqp : q ≠ p := by
        rintro rfl
        simp at hq
      rw [update_of_ne hqp] at hq
      exact h.released q hq }

/-- `lk->pid = myproc()->pid`: `ticket_acquire` returns, and its caller owns the lock by pid. -/
theorem setPid (h : TicketInv lk calls) {p : Fin NPROC} (hp : calls p = some .setPid) :
    TicketInv { lk with pid := pidOf p } (update calls p none) := by
  refine h.mono rfl rfl (fun q m hq => ?_) (fun q hq => ?_) (fun q hq => ?_)
  · by_cases hqp : q = p
    · subst hqp
      simp [drawnOf] at hq
    · rwa [drawnOf_update_ne hqp] at hq
  · by_cases hqp : q = p
    · subst hqp
      simp [hp, TicketLock.owns]
    · rw [update_of_ne hqp] at hq
      rcases hcq : calls q with _ | c
      · rw [hcq] at hq
        simp only [TicketLock.owns, beq_iff_eq] at hq
        exact absurd (pidOf_inj hq).symm hqp
      · rwa [hcq, TicketLock.owns_some lk] at hq
  · by_cases hqp : q = p
    · subst hqp
      simp at hq
    · exact fun hpq => hqp (pidOf_inj hpq).symm

/-- The first step of `ticket_release` by the owner out of any call: `pid` is cleared. -/
theorem release (h : TicketInv lk calls) {p : Fin NPROC} (hp : calls p = none)
    (hpid : lk.pid = pidOf p) :
    TicketInv { lk with pid := 0 } (update calls p (some .incTurn)) := by
  refine h.mono rfl rfl (fun q m hq => ?_) (fun q hq => ?_) (fun q _ => (pidOf_ne_zero q).symm)
  · by_cases hqp : q = p
    · subst hqp
      simp [drawnOf, TicketPc.drawn] at hq
    · rwa [drawnOf_update_ne hqp] at hq
  · by_cases hqp : q = p
    · subst hqp
      simp [hp, hpid, TicketLock.owns]
    · rw [update_of_ne hqp] at hq
      rcases hcq : calls q with _ | c
      · rw [hcq] at hq
        simp [TicketLock.owns, pidOf] at hq
      · rwa [hcq, TicketLock.owns_some lk] at hq

/-- `fetch_and_add(&lk->turn, 1)`: the owner gives the lock up, and no process owns it. -/
theorem bump (h : TicketInv lk calls) {p : Fin NPROC} (hp : calls p = some .incTurn) :
    TicketInv { lk with turn := lk.turn + 1 } (update calls p (some .wake)) := by
  have hpo : lk.owns p (calls p) := by simp [hp, TicketLock.owns]
  have hdrawn : ∀ q me, drawnOf (update calls p (some .wake)) q = some me →
      drawnOf calls q = some me := by
    intro q me hq
    by_cases hqp : q = p
    · subst hqp
      simp [drawnOf, TicketPc.drawn] at hq
    · rwa [drawnOf_update_ne hqp] at hq
  -- `p` was the only owner, and it owns the lock no more
  have hnone : ∀ q, ¬{ lk with turn := lk.turn + 1 }.owns q (update calls p (some .wake) q) := by
    intro q hq
    by_cases hqp : q = p
    · subst hqp
      simp [TicketLock.owns] at hq
    · rw [update_of_ne hqp, TicketLock.owns_of_pid_eq rfl] at hq
      exact hqp (h.owner_unique q p hq hpo)
  exact {
    turn_le := h.owner_ahead p hpo
    drawn_lt := fun q me hq => h.drawn_lt q me (hdrawn q me hq)
    drawn_inj := fun q r me hq hr => h.drawn_inj q r me (hdrawn q me hq) (hdrawn r me hr)
    owner_ahead := fun q hq => absurd hq (hnone q)
    owner_blocks := fun q hq => absurd hq (hnone q)
    owner_unique := fun q _ hq => absurd hq (hnone q)
    released := fun q hq => by
      by_cases hqp : q = p
      · subst hqp
        exact h.released q (Or.inl hp)
      · rw [update_of_ne hqp] at hq
        exact h.released q hq }

theorem map_wakeUp_eq {c : Option TicketPc} {x : TicketPc} (hx : x.drawn = none) :
    c.map TicketPc.wakeUp = some x ↔ c = some x := by
  rcases c with _ | c
  · simp
  · simp only [Option.map_some, Option.some.injEq]
    constructor
    · intro hc
      have hcd : c.drawn = none := by rw [← TicketPc.drawn_wakeUp, hc, hx]
      rw [← TicketPc.wakeUp_eq_self hcd, hc]
    · intro hc
      rw [hc, TicketPc.wakeUp_eq_self hx]

/-- `wakeup(lk)`, the last step of `ticket_release`: its caller leaves the call, every sleeper
on `lk` tests again. -/
theorem wake (h : TicketInv lk calls) {p : Fin NPROC} (hp : calls p = some .wake) :
    TicketInv lk fun q => (update calls p none q).map TicketPc.wakeUp := by
  refine h.mono rfl rfl (fun q m hq => ?_) (fun q hq => ?_) (fun q hq => ?_)
  · by_cases hqp : q = p
    · subst hqp
      simp [drawnOf] at hq
    · rw [drawnOf, update_of_ne hqp] at hq
      rcases hcq : calls q with _ | c
      · simp [hcq] at hq
      · simpa [drawnOf, hcq] using hq
  · by_cases hqp : q = p
    · subst hqp
      simp only [update_self, Option.map_none, TicketLock.owns, beq_iff_eq] at hq
      exact absurd hq (h.released q (Or.inr hp))
    · rwa [update_of_ne hqp, TicketLock.owns_wakeUp] at hq
  · by_cases hqp : q = p
    · subst hqp
      simp at hq
    · rw [update_of_ne hqp, map_wakeUp_eq rfl, map_wakeUp_eq rfl] at hq
      exact h.released q hq

end TicketInv

/-- `wakeup(lk)` over the calls on `lk`: every process asleep in one will test `turn` again. -/
def wakeup (calls : Fin NPROC → Option TicketPc) : Fin NPROC → Option TicketPc :=
  fun q => (calls q).map TicketPc.wakeUp

/-- The steps of a process on one ticket lock. -/
inductive TicketOp where
  /-- Call `ticket_acquire(lk)`. -/
  | acquire
  /-- Call `ticket_release(lk)`. -/
  | release
  /-- Take the next step of the call it is in. -/
  | run
  deriving DecidableEq, Repr

/-- One ticket lock and the call each process is in on it, if any. -/
structure TicketSys where
  lk : TicketLock
  calls : Fin NPROC → Option TicketPc

namespace TicketSys

/-- One step by process `p`: `none` when `p` cannot take it. -/
def step (s : TicketSys) : Fin NPROC × TicketOp → Option TicketSys
  | (p, .acquire) =>
    if s.calls p = none then
      let r := s.lk.draw
      some ⟨r.1, update s.calls p (some r.2)⟩
    else none
  | (p, .release) =>
    if s.calls p = none then
      let r := s.lk.releaseTest p
      some ⟨r.1, update s.calls p r.2⟩
    else none
  | (p, .run) =>
    match s.calls p with
    | none => none
    | some c => (s.lk.advance p c).map fun r =>
      let calls := update s.calls p r.2.1
      ⟨r.1, if r.2.2 then wakeup calls else calls⟩

/-- `init_ticket_lock`, with no process in a call. -/
def init : TicketSys := ⟨initTicketLock, fun _ => none⟩

def Init (s : TicketSys) : Prop := s = init

def Reachable : TicketSys → Prop := Run.Reachable step Init

/-- The run of `ls` from `init_ticket_lock`. -/
def exec (ls : List (Fin NPROC × TicketOp)) : Option TicketSys := Run.exec step init ls

theorem exists_reachable_of_exec {β : Type*} (ls : List (Fin NPROC × TicketOp))
    {f : TicketSys → β} {b : β} (h : (exec ls).map f = some b) : ∃ s, Reachable s ∧ f s = b :=
  Run.exists_reachable_of_exec_map ls (show Init init from rfl) h

/-- `ticket_acquire` starts out of any call, with `fetch_and_add(&lk->ticket, 1)`. -/
theorem step_acquire {s t : TicketSys} {p : Fin NPROC} (h : s.step (p, .acquire) = some t) :
    s.calls p = none ∧ t = ⟨s.lk.draw.1, update s.calls p (some s.lk.draw.2)⟩ := by
  simp only [step, Option.ite_none_right_eq_some, Option.some.injEq] at h
  exact ⟨h.1, h.2.symm⟩

/-- `ticket_release` starts out of any call, with its test of `pid`. -/
theorem step_release {s t : TicketSys} {p : Fin NPROC} (h : s.step (p, .release) = some t) :
    s.calls p = none ∧ t = ⟨(s.lk.releaseTest p).1, update s.calls p (s.lk.releaseTest p).2⟩ := by
  simp only [step, Option.ite_none_right_eq_some, Option.some.injEq] at h
  exact ⟨h.1, h.2.symm⟩

/-- A process inside a call takes the call's next step. -/
theorem step_run {s t : TicketSys} {p : Fin NPROC} (h : s.step (p, .run) = some t) :
    ∃ c r, s.calls p = some c ∧ s.lk.advance p c = some r ∧
      t = ⟨r.1, if r.2.2 then wakeup (update s.calls p r.2.1) else update s.calls p r.2.1⟩ := by
  simp only [step] at h
  rcases hp : s.calls p with _ | c
  · rw [hp] at h
    cases h
  · rw [hp] at h
    obtain ⟨r, hr, rfl⟩ := Option.map_eq_some_iff.mp h
    exact ⟨c, r, rfl, hr, rfl⟩

/-- **Step lemma**: every step keeps the ticket-lock invariant. -/
theorem ticketInv_step {s t : TicketSys} {l : Fin NPROC × TicketOp}
    (h : TicketInv s.lk s.calls) (hst : s.step l = some t) : TicketInv t.lk t.calls := by
  obtain ⟨p, op⟩ := l
  cases op with
  | acquire =>
    obtain ⟨hp, rfl⟩ := step_acquire hst
    exact h.draw hp
  | release =>
    obtain ⟨hp, rfl⟩ := step_release hst
    unfold TicketLock.releaseTest
    split
    · exact h.release hp ‹_›
    · rw [← hp, update_eq_self]
      exact h
  | run =>
    obtain ⟨c, r, hp, hr, rfl⟩ := step_run hst
    cases c with
    | test me =>
      simp only [TicketLock.advance, Option.some.injEq] at hr
      subst hr
      by_cases hme : s.lk.turn = me
      · subst hme
        simpa using h.pass hp
      · simpa [hme] using h.wait_step hp rfl rfl
    | sleep me =>
      simp only [TicketLock.advance, Option.some.injEq] at hr
      subst hr
      exact h.wait_step hp rfl rfl
    | asleep me => cases hr
    | setPid =>
      simp only [TicketLock.advance, Option.some.injEq] at hr
      subst hr
      exact h.setPid hp
    | incTurn =>
      simp only [TicketLock.advance, Option.some.injEq] at hr
      subst hr
      exact h.bump hp
    | wake =>
      simp only [TicketLock.advance, Option.some.injEq] at hr
      subst hr
      exact h.wake hp

/-- **Run lemma**: every reachable state satisfies the ticket-lock invariant. -/
theorem ticketInv_reachable {s : TicketSys} (h : s.Reachable) : TicketInv s.lk s.calls :=
  Run.Reachable.induction (fun s => TicketInv s.lk s.calls)
    (fun _ hs => hs ▸ ticketInv_init) (fun _ _ _ hs hst => ticketInv_step hs hst) h

/-- Another process's call changes only by `wakeup(lk)`. -/
theorem step_calls_ne {s t : TicketSys} {p q : Fin NPROC} {op : TicketOp}
    (h : s.step (p, op) = some t) (hq : q ≠ p) :
    t.calls q = s.calls q ∨ t.calls q = (s.calls q).map TicketPc.wakeUp := by
  cases op with
  | acquire =>
    obtain ⟨-, rfl⟩ := step_acquire h
    exact Or.inl (update_of_ne hq _ _)
  | release =>
    obtain ⟨-, rfl⟩ := step_release h
    exact Or.inl (update_of_ne hq _ _)
  | run =>
    obtain ⟨c, r, -, -, rfl⟩ := step_run h
    by_cases hw : r.2.2 = true
    · right
      simp [hw, wakeup, update_of_ne hq]
    · left
      simp [hw, update_of_ne hq]

/-- Another process is in a call after a step exactly when it was before. -/
theorem step_calls_ne_none {s t : TicketSys} {p q : Fin NPROC} {op : TicketOp}
    (h : s.step (p, op) = some t) (hq : q ≠ p) : t.calls q = none ↔ s.calls q = none := by
  rcases step_calls_ne h hq with hc | hc
  · rw [hc]
  · rw [hc, Option.map_eq_none_iff]

/-- Only `lk->pid = myproc()->pid` and the owner's `ticket_release` write `pid`. -/
theorem step_pid {s t : TicketSys} {p : Fin NPROC} {op : TicketOp} (h : s.step (p, op) = some t) :
    t.lk.pid = s.lk.pid ∨ (s.calls p = some .setPid ∧ t.lk.pid = pidOf p) ∨
      (s.lk.pid = pidOf p ∧ t.lk.pid = 0) := by
  cases op with
  | acquire =>
    obtain ⟨-, rfl⟩ := step_acquire h
    exact Or.inl rfl
  | release =>
    obtain ⟨-, rfl⟩ := step_release h
    unfold TicketLock.releaseTest
    split
    · exact Or.inr (Or.inr ⟨‹_›, rfl⟩)
    · exact Or.inl rfl
  | run =>
    obtain ⟨c, r, hp, hr, rfl⟩ := step_run h
    cases c with
    | setPid =>
      simp only [TicketLock.advance, Option.some.injEq] at hr
      subst hr
      exact Or.inr (Or.inl ⟨hp, rfl⟩)
    | asleep me => cases hr
    | test me | sleep me | incTurn | wake =>
      simp only [TicketLock.advance, Option.some.injEq] at hr
      subst hr
      exact Or.inl rfl

/-- The caller's call keeps its kind along its steps, and a call that starts is
`ticket_acquire` exactly when the step is `acquire`. -/
theorem step_acquiring {s t : TicketSys} {p : Fin NPROC} {op : TicketOp}
    (h : s.step (p, op) = some t) {c' : TicketPc} (hc' : t.calls p = some c') :
    (∃ c, s.calls p = some c ∧ c'.acquiring = c.acquiring) ∨
      (s.calls p = none ∧ c'.acquiring = (op == .acquire)) := by
  cases op with
  | acquire =>
    obtain ⟨hp, rfl⟩ := step_acquire h
    simp only [update_self, Option.some.injEq] at hc'
    subst hc'
    exact Or.inr ⟨hp, rfl⟩
  | release =>
    obtain ⟨hp, rfl⟩ := step_release h
    simp only [update_self, TicketLock.releaseTest] at hc'
    split at hc'
    · cases hc'
      exact Or.inr ⟨hp, rfl⟩
    · cases hc'
  | run =>
    obtain ⟨c, r, hp, hr, rfl⟩ := step_run h
    refine Or.inl ⟨c, hp, ?_⟩
    cases c with
    | test me =>
      simp only [TicketLock.advance, Option.some.injEq] at hr
      subst hr
      simp only [Bool.false_eq_true, if_false, update_self, Option.some.injEq] at hc'
      subst hc'
      split <;> rfl
    | sleep me | incTurn =>
      simp only [TicketLock.advance, Option.some.injEq] at hr
      subst hr
      simp only [Bool.false_eq_true, if_false, update_self, Option.some.injEq] at hc'
      subst hc'
      rfl
    | asleep me => cases hr
    | setPid =>
      simp only [TicketLock.advance, Option.some.injEq] at hr
      subst hr
      simp at hc'
    | wake =>
      simp only [TicketLock.advance, Option.some.injEq] at hr
      subst hr
      simp [wakeup] at hc'

/-- `ticket_acquire` returns only at `lk->pid = myproc()->pid`. -/
theorem step_return_acquire {s t : TicketSys} {p : Fin NPROC} {op : TicketOp}
    (h : s.step (p, op) = some t) {c : TicketPc} (hc : s.calls p = some c)
    (hacq : c.acquiring) (ht : t.calls p = none) : t.lk.pid = pidOf p := by
  cases op with
  | acquire => simp [(step_acquire h).1] at hc
  | release => simp [(step_release h).1] at hc
  | run =>
    obtain ⟨c', r, hp, hr, rfl⟩ := step_run h
    rw [hc, Option.some.injEq] at hp
    subst hp
    cases c with
    | setPid =>
      simp only [TicketLock.advance, Option.some.injEq] at hr
      subst hr
      rfl
    | test me | sleep me =>
      simp only [TicketLock.advance, Option.some.injEq] at hr
      subst hr
      simp at ht
    | asleep me => cases hr
    | incTurn | wake => cases hacq

end TicketSys

/-- **Mutual exclusion**: at every reachable state at most one process owns the ticket lock. -/
theorem ticket_excludes {s : TicketSys} (h : s.Reachable) {p q : Fin NPROC}
    (hp : s.lk.owns p (s.calls p)) (hq : s.lk.owns q (s.calls q)) : p = q :=
  (TicketSys.ticketInv_reachable h).owner_unique p q hp hq

namespace TicketSys

/-- A process sleeps in `ticket_acquire(lk)` holding the ticket of `turn`. -/
def SleepsThroughTurn (s : TicketSys) : Prop := ∃ p, s.calls p = some (.asleep s.lk.turn)

instance (s : TicketSys) : Decidable s.SleepsThroughTurn := by
  unfold SleepsThroughTurn
  infer_instance

/-- A sleeper holds the ticket of `turn`, no process owns the lock and none is about to call
`wakeup(lk)`: nothing will wake the sleeper. -/
def Stalled (s : TicketSys) : Prop :=
  s.SleepsThroughTurn ∧ ∀ q, s.lk.owns q (s.calls q) = false ∧ s.calls q ≠ some .wake

/-- A process other than the sleeper becomes a waiter, under a lock with the same `turn` and
`pid`: the lock stays stalled. -/
theorem Stalled.update_waiter {s : TicketSys} (hs : s.Stalled) {lk : TicketLock}
    (hturn : lk.turn = s.lk.turn) (hpid : lk.pid = s.lk.pid) {q : Fin NPROC}
    (hq : s.calls q ≠ some (.asleep s.lk.turn)) {c : TicketPc} {me : ℕ} (hc : c.drawn = some me) :
    Stalled ⟨lk, update s.calls q (some c)⟩ := by
  obtain ⟨⟨p, hp⟩, hfree⟩ := hs
  have hpq : p ≠ q := by
    rintro rfl
    exact hq hp
  refine ⟨⟨p, ?_⟩, fun r => ?_⟩
  · show update s.calls q (some c) p = some (.asleep lk.turn)
    rw [update_of_ne hpq, hp, hturn]
  · by_cases hrq : r = q
    · subst hrq
      show lk.owns r (update s.calls r (some c) r) = false ∧ update s.calls r (some c) r ≠ _
      rw [update_self]
      refine ⟨TicketLock.owns_of_drawn hc, fun hcw => ?_⟩
      rw [Option.some.injEq] at hcw
      subst hcw
      cases hc
    · show lk.owns r (update s.calls q (some c) r) = false ∧ update s.calls q (some c) r ≠ _
      rw [update_of_ne hrq, TicketLock.owns_of_pid_eq hpid]
      exact hfree r

/-- **Step lemma**: a stalled lock stays stalled.  No process can take the sleeper's ticket, so
every test fails, and with no owner no process reaches `fetch_and_add(&lk->turn, 1)`. -/
theorem stalled_step {s t : TicketSys} {l : Fin NPROC × TicketOp} (h : TicketInv s.lk s.calls)
    (hs : s.Stalled) (hst : s.step l = some t) : t.Stalled := by
  obtain ⟨q, op⟩ := l
  cases op with
  | acquire =>
    obtain ⟨hq, rfl⟩ := step_acquire hst
    exact hs.update_waiter rfl rfl (by simp [hq]) rfl
  | release =>
    obtain ⟨hq, rfl⟩ := step_release hst
    unfold TicketLock.releaseTest
    split
    · -- a matching pid out of any call would make `q` the owner
      rename_i hpid
      have hfree := (hs.2 q).1
      simp [hq, TicketLock.owns, hpid] at hfree
    · rw [← hq, update_eq_self]
      exact hs
  | run =>
    obtain ⟨c, r, hq, hr, rfl⟩ := step_run hst
    cases c with
    | test me =>
      simp only [TicketLock.advance, Option.some.injEq] at hr
      subst hr
      -- the sleeper holds the ticket of `turn`, so `q`'s test fails
      have hme : s.lk.turn ≠ me := by
        rintro rfl
        obtain ⟨p, hp⟩ := hs.1
        have hqp := h.drawn_inj q p s.lk.turn (by simp [drawnOf, hq, TicketPc.drawn])
          (by simp [drawnOf, hp, TicketPc.drawn])
        subst hqp
        rw [hp] at hq
        cases hq
      simpa [hme] using hs.update_waiter rfl rfl (by simp [hq]) (c := .sleep me) rfl
    | sleep me =>
      simp only [TicketLock.advance, Option.some.injEq] at hr
      subst hr
      simpa using hs.update_waiter rfl rfl (by simp [hq]) (c := .asleep me) rfl
    | asleep me => cases hr
    | setPid =>
      have hfree := (hs.2 q).1
      simp [hq, TicketLock.owns] at hfree
    | incTurn =>
      have hfree := (hs.2 q).1
      simp [hq, TicketLock.owns] at hfree
    | wake => exact absurd hq (hs.2 q).2

/-- **A lost wakeup is permanent**: from a reachable stalled state every run stays stalled, so
no process owns the lock again and the sleeper is never woken. -/
theorem stalled_forever {s t : TicketSys} (hr : s.Reachable) (hs : s.Stalled)
    (ls : List (Fin NPROC × TicketOp)) (hrun : Run.exec step s ls = some t) : t.Stalled :=
  (Run.exec_invariant (fun u : TicketSys => TicketInv u.lk u.calls ∧ u.Stalled)
    (fun _ _ _ hu hst => ⟨ticketInv_step hu.1 hst, stalled_step hu.1 hu.2 hst⟩) ls s t
    ⟨ticketInv_reachable hr, hs⟩ hrun).2

end TicketSys

set_option maxRecDepth 100000 in
/-- Process 0 takes the lock.  Process 1 draws ticket 1 and finds `turn != me`; before it sets
`SLEEPING`, process 0 releases: `turn` becomes 1 and `wakeup(lk)` finds no sleeper.  Process 1
then sleeps with its turn come. -/
theorem lost_wakeup : ∃ s, TicketSys.Reachable s ∧ s.SleepsThroughTurn := by
  obtain ⟨s, hs, hf⟩ := TicketSys.exists_reachable_of_exec
    [(0, .acquire), (0, .run), (0, .run), (1, .acquire), (1, .run), (0, .release), (0, .run),
      (0, .run), (1, .run)]
    (f := fun s => decide s.SleepsThroughTurn) (b := true) (by decide)
  exact ⟨s, hs, of_decide_eq_true hf⟩

end Xv6Lab
