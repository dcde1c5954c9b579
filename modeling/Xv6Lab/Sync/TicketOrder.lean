import Xv6Lab.Sync.TicketWrap

/-!
# Ticket locks enter in the order of their tickets

A run of the lock is logged with two kinds of events: a process's `fetch_and_add(&lk->ticket, 1)`
(`draw`), and its leaving the wait loop of `ticket_acquire` (`enter`).  FIFO order says the
processes enter in the order in which they drew: the entries are a prefix of the draws.

* `FifoInv` — the draws are indexed by ticket and a waiter is found at its ticket; the entries are
  a prefix of the draws that reaches `turn`, and past it while some process owns the lock;
* `fifoInv_step` — every step keeps it (`Run.logged` adds the events a step shows);
* `ticket_fifo32` — on 32-bit counters, in every logged run the processes enter in the order of
  their `fetch_and_add`s.
-/

namespace Xv6Lab

open Function Run

/-- A step's event for the order of entry. -/
inductive TicketEvent where
  /-- `fetch_and_add(&lk->ticket, 1)` by the process. -/
  | draw (p : Fin NPROC)
  /-- The process leaves the wait loop of `ticket_acquire`. -/
  | enter (p : Fin NPROC)
  deriving DecidableEq, Repr

/-- What a step shows: the test that finds `turn == me` is an entry. -/
def ticketEvent (s : TicketSys) : Fin NPROC × TicketOp → List TicketEvent
  | (p, .acquire) => [.draw p]
  | (_, .release) => []
  | (p, .run) => if s.calls p = some (.test s.lk.turn) then [.enter p] else []

namespace TicketEvent

def draw? : TicketEvent → Option (Fin NPROC)
  | draw p => some p
  | enter _ => none

def enter? : TicketEvent → Option (Fin NPROC)
  | draw _ => none
  | enter p => some p

end TicketEvent

/-- The processes in the order of their draws. -/
def draws (evs : List TicketEvent) : List (Fin NPROC) := evs.filterMap TicketEvent.draw?

/-- The processes in the order of their entries. -/
def enters (evs : List TicketEvent) : List (Fin NPROC) := evs.filterMap TicketEvent.enter?

@[simp] theorem draws_append (evs evs' : List TicketEvent) :
    draws (evs ++ evs') = draws evs ++ draws evs' := List.filterMap_append

@[simp] theorem enters_append (evs evs' : List TicketEvent) :
    enters (evs ++ evs') = enters evs ++ enters evs' := List.filterMap_append

@[simp] theorem draws_nil : draws [] = [] := rfl
@[simp] theorem enters_nil : enters [] = [] := rfl
@[simp] theorem draws_draw (p : Fin NPROC) : draws [.draw p] = [p] := rfl
@[simp] theorem enters_draw (p : Fin NPROC) : enters [.draw p] = [] := rfl
@[simp] theorem draws_enter (p : Fin NPROC) : draws [.enter p] = [] := rfl
@[simp] theorem enters_enter (p : Fin NPROC) : enters [.enter p] = [p] := rfl

/-- **The order invariant** of a lock and the events of the run that reached it. -/
structure FifoInv (s : TicketSys) (evs : List TicketEvent) : Prop where
  length_draws : (draws evs).length = s.lk.ticket
  drawn_at : ∀ q v, drawnOf s.calls q = some v → (draws evs)[v]? = some q
  entry_order : enters evs <+: draws evs
  turn_le : s.lk.turn ≤ (enters evs).length
  waiting_ge : ∀ q v, drawnOf s.calls q = some v → (enters evs).length ≤ v
  owner_entered : ∀ q, s.lk.owns q (s.calls q) → (enters evs).length = s.lk.turn + 1

theorem fifoInv_init : FifoInv TicketSys.init [] where
  length_draws := rfl
  drawn_at _ _ h := by cases h
  entry_order := List.prefix_refl []
  turn_le := le_rfl
  waiting_ge _ _ h := by cases h
  owner_entered q h := by simp [TicketSys.init, TicketLock.owns, initTicketLock, pidOf] at h

namespace FifoInv

variable {s : TicketSys} {evs : List TicketEvent}

/-- **Frame rule**: with the counters kept, no new waiter or owner and no event, the invariant
stays. -/
theorem of_same (h : FifoInv s evs) {t : TicketSys} (hticket : t.lk.ticket = s.lk.ticket)
    (hturn : t.lk.turn = s.lk.turn)
    (hdrawn : ∀ q v, drawnOf t.calls q = some v → drawnOf s.calls q = some v)
    (howns : ∀ q, t.lk.owns q (t.calls q) → s.lk.owns q (s.calls q)) : FifoInv t evs where
  length_draws := hticket ▸ h.length_draws
  drawn_at q v hq := h.drawn_at q v (hdrawn q v hq)
  entry_order := h.entry_order
  turn_le := hturn ▸ h.turn_le
  waiting_ge q v hq := h.waiting_ge q v (hdrawn q v hq)
  owner_entered q hq := hturn ▸ h.owner_entered q (howns q hq)

/-- A draw appends the drawing process at its ticket. -/
theorem draw (h : FifoInv s evs) (hi : TicketInv s.lk s.calls) {p : Fin NPROC}
    (hp : s.calls p = none) :
    FifoInv ⟨s.lk.draw.1, update s.calls p (some s.lk.draw.2)⟩ (evs ++ [.draw p]) where
  length_draws := by simp [h.length_draws, TicketLock.draw]
  drawn_at q v hq := by
    by_cases hqp : q = p
    · subst hqp
      simp only [drawnOf, update_self, Option.bind_some, TicketLock.draw, TicketPc.drawn,
        Option.some.injEq] at hq
      subst hq
      simp [h.length_draws]
    · rw [drawnOf_update_ne hqp] at hq
      have hv : v < (draws evs).length := h.length_draws ▸ hi.drawn_lt q v hq
      simp [List.getElem?_append_left hv, h.drawn_at q v hq]
  entry_order := by
    simpa using List.prefix_append_of_prefix h.entry_order
  turn_le := by simpa [TicketLock.draw] using h.turn_le
  waiting_ge q v hq := by
    simp only [enters_append, enters_draw, List.append_nil]
    by_cases hqp : q = p
    · subst hqp
      simp only [drawnOf, update_self, Option.bind_some, TicketLock.draw, TicketPc.drawn,
        Option.some.injEq] at hq
      rw [← hq, ← h.length_draws]
      exact h.entry_order.length_le
    · rw [drawnOf_update_ne hqp] at hq
      exact h.waiting_ge q v hq
  owner_entered q hq := by
    simpa [TicketLock.draw] using h.owner_entered q (TicketInv.owns_after_draw hq).2

/-- The test that finds `turn == me`: the entry of the process that drew the ticket of `turn`. -/
theorem pass (h : FifoInv s evs) (hi : TicketInv s.lk s.calls) {p : Fin NPROC}
    (hp : s.calls p = some (.test s.lk.turn)) :
    FifoInv ⟨s.lk, update s.calls p (some .setPid)⟩ (evs ++ [.enter p]) := by
  have hpd : drawnOf s.calls p = some s.lk.turn := by simp [drawnOf, hp, TicketPc.drawn]
  -- the entries so far reach exactly `turn`
  have hlen : (enters evs).length = s.lk.turn :=
    le_antisymm (h.waiting_ge p _ hpd) h.turn_le
  have hdrawn : ∀ q v, drawnOf (update s.calls p (some .setPid)) q = some v →
      q ≠ p ∧ drawnOf s.calls q = some v := by
    intro q v hq
    by_cases hqp : q = p
    · subst hqp
      simp [drawnOf, TicketPc.drawn] at hq
    · rw [drawnOf_update_ne hqp] at hq
      exact ⟨hqp, hq⟩
  exact {
    length_draws := by simpa using h.length_draws
    drawn_at := fun q v hq => by simpa using h.drawn_at q v (hdrawn q v hq).2
    entry_order := by
      have htake := List.prefix_iff_eq_take.mp h.entry_order
      rw [draws_append, draws_enter, List.append_nil, enters_append, enters_enter,
        List.prefix_iff_eq_take, List.length_append, List.length_singleton, List.take_add_one,
        ← htake, hlen, h.drawn_at p _ hpd]
      rfl
    turn_le := by simp [hlen]
    waiting_ge := fun q v hq => by
      obtain ⟨hqp, hq⟩ := hdrawn q v hq
      have hne : v ≠ s.lk.turn := fun hv => hqp (hi.drawn_inj q p v hq (hv ▸ hpd))
      have := h.waiting_ge q v hq
      simp only [enters_append, enters_enter, List.length_append, List.length_singleton]
      omega
    owner_entered := fun _ _ => by simp [hlen] }

/-- The first step of `ticket_release` by the owner: it stays the owner, now at `incTurn`. -/
theorem release (h : FifoInv s evs) {p : Fin NPROC} (hp : s.calls p = none)
    (hpid : s.lk.pid = pidOf p) :
    FifoInv ⟨{ s.lk with pid := 0 }, update s.calls p (some .incTurn)⟩ evs := by
  refine h.of_same rfl rfl (fun q v hq => ?_) (fun q hq => ?_)
  · by_cases hqp : q = p
    · subst hqp
      simp [drawnOf, TicketPc.drawn] at hq
    · rwa [drawnOf_update_ne hqp] at hq
  · by_cases hqp : q = p
    · subst hqp
      simp [hp, hpid, TicketLock.owns]
    · simp only [update_of_ne hqp] at hq
      rcases hcq : s.calls q with _ | c
      · simp [hcq, TicketLock.owns, pidOf] at hq
      · rwa [hcq, TicketLock.owns_some s.lk] at hq

/-- `lk->pid = myproc()->pid`: the process that entered owns the lock by its pid. -/
theorem setPid (h : FifoInv s evs) {p : Fin NPROC} (hp : s.calls p = some .setPid) :
    FifoInv ⟨{ s.lk with pid := pidOf p }, update s.calls p none⟩ evs := by
  refine h.of_same rfl rfl (fun q v hq => ?_) (fun q hq => ?_)
  · by_cases hqp : q = p
    · subst hqp
      simp [drawnOf] at hq
    · rwa [drawnOf_update_ne hqp] at hq
  · by_cases hqp : q = p
    · subst hqp
      simp [hp, TicketLock.owns]
    · simp only [update_of_ne hqp] at hq
      rcases hcq : s.calls q with _ | c
      · simp only [hcq, TicketLock.owns, beq_iff_eq] at hq
        exact absurd (pidOf_inj hq).symm hqp
      · rwa [hcq, TicketLock.owns_some s.lk] at hq

/-- A waiter moves on inside `ticket_acquire` with its ticket. -/
theorem wait_step (h : FifoInv s evs) {p : Fin NPROC} {c c' : TicketPc} {me : ℕ}
    (hp : s.calls p = some c) (hc : c.drawn = some me) (hc' : c'.drawn = some me) :
    FifoInv ⟨s.lk, update s.calls p (some c')⟩ evs := by
  refine h.of_same rfl rfl (fun q v hq => ?_) (fun q hq => ?_)
  · by_cases hqp : q = p
    · subst hqp
      simp only [drawnOf, update_self, Option.bind_some, hc'] at hq
      simp only [drawnOf, hp, Option.bind_some, hc, hq]
    · rwa [drawnOf_update_ne hqp] at hq
  · by_cases hqp : q = p
    · subst hqp
      simp only [update_self, TicketLock.owns_of_drawn hc'] at hq
      cases hq
    · simpa only [update_of_ne hqp] using hq

/-- `fetch_and_add(&lk->turn, 1)`: the owner's entry made the entries reach past `turn`. -/
theorem bump (h : FifoInv s evs) (hi : TicketInv s.lk s.calls) {p : Fin NPROC}
    (hp : s.calls p = some .incTurn) :
    FifoInv ⟨{ s.lk with turn := s.lk.turn + 1 }, update s.calls p (some .wake)⟩ evs := by
  have hpo : s.lk.owns p (s.calls p) := by simp [hp, TicketLock.owns]
  have hdrawn : ∀ q v, drawnOf (update s.calls p (some .wake)) q = some v →
      drawnOf s.calls q = some v := by
    intro q v hq
    by_cases hqp : q = p
    · subst hqp
      simp [drawnOf, TicketPc.drawn] at hq
    · rwa [drawnOf_update_ne hqp] at hq
  exact {
    length_draws := h.length_draws
    drawn_at := fun q v hq => h.drawn_at q v (hdrawn q v hq)
    entry_order := h.entry_order
    turn_le := (h.owner_entered p hpo).ge
    waiting_ge := fun q v hq => h.waiting_ge q v (hdrawn q v hq)
    owner_entered := fun q hq => by
      -- `p` was the only owner, and it owns the lock no more
      by_cases hqp : q = p
      · subst hqp
        simp [TicketLock.owns] at hq
      · simp only [update_of_ne hqp] at hq
        rw [TicketLock.owns_of_pid_eq rfl] at hq
        exact absurd (hi.owner_unique q p hq hpo) hqp }

/-- `wakeup(lk)`: its caller leaves the call, and the sleepers test again. -/
theorem wake (h : FifoInv s evs) (hi : TicketInv s.lk s.calls) {p : Fin NPROC}
    (hp : s.calls p = some .wake) :
    FifoInv ⟨s.lk, wakeup (update s.calls p none)⟩ evs := by
  refine h.of_same rfl rfl (fun q v hq => ?_) (fun q hq => ?_)
  · by_cases hqp : q = p
    · subst hqp
      simp [drawnOf, wakeup] at hq
    · simp only [drawnOf, wakeup, update_of_ne hqp] at hq
      rcases hcq : s.calls q with _ | c
      · simp [hcq] at hq
      · simpa [drawnOf, hcq] using hq
  · by_cases hqp : q = p
    · subst hqp
      simp only [wakeup, update_self, Option.map_none, TicketLock.owns, beq_iff_eq] at hq
      exact absurd hq (hi.released q (Or.inr hp))
    · simpa only [wakeup, update_of_ne hqp, TicketLock.owns_wakeUp] using hq

end FifoInv

namespace TicketSys

/-- **Step lemma**: every logged step keeps the order invariant. -/
theorem fifoInv_step {st st' : TicketSys × List TicketEvent} {l : Fin NPROC × TicketOp}
    (hi : TicketInv st.1.lk st.1.calls) (h : FifoInv st.1 st.2)
    (hst : logged step ticketEvent st l = some st') : FifoInv st'.1 st'.2 := by
  obtain ⟨hstep, hevs⟩ := logged_eq_some hst
  rw [hevs]
  obtain ⟨p, op⟩ := l
  cases op with
  | acquire =>
    obtain ⟨hp, ht⟩ := step_acquire hstep
    rw [ht]
    exact h.draw hi hp
  | release =>
    obtain ⟨hp, ht⟩ := step_release hstep
    rw [ht, ticketEvent, List.append_nil]
    unfold TicketLock.releaseTest
    split
    · exact h.release hp ‹_›
    · rw [← hp, update_eq_self]
      exact h
  | run =>
    obtain ⟨c, r, hp, hr, ht⟩ := step_run hstep
    rw [ht]
    cases c with
    | test me =>
      simp only [TicketLock.advance, Option.some.injEq] at hr
      subst hr
      by_cases hme : st.1.lk.turn = me
      · subst hme
        simpa [ticketEvent, hp] using h.pass hi hp
      · have hne : st.1.calls p ≠ some (.test st.1.lk.turn) := by
          rw [hp]
          simpa [eq_comm] using hme
        simpa [ticketEvent, hne, hme] using h.wait_step hp rfl (show TicketPc.drawn (.sleep me) = some me from rfl)
    | sleep me =>
      simp only [TicketLock.advance, Option.some.injEq] at hr
      subst hr
      simpa [ticketEvent, hp] using h.wait_step hp rfl (show TicketPc.drawn (.asleep me) = some me from rfl)
    | asleep me => cases hr
    | setPid =>
      simp only [TicketLock.advance, Option.some.injEq] at hr
      subst hr
      simpa [ticketEvent, hp] using h.setPid hp
    | incTurn =>
      simp only [TicketLock.advance, Option.some.injEq] at hr
      subst hr
      simpa [ticketEvent, hp] using h.bump hi hp
    | wake =>
      simp only [TicketLock.advance, Option.some.injEq] at hr
      subst hr
      simpa [ticketEvent, hp] using h.wake hi hp

/-- A state of the unbounded lock and the events of the run that reached it. -/
def LoggedReachable : TicketSys × List TicketEvent → Prop :=
  Run.Reachable (logged step ticketEvent) fun st => st = (init, [])

/-- **Run lemma**: every logged run keeps the invariants, the order invariant among them. -/
theorem fifoInv_reachable {st : TicketSys × List TicketEvent} (h : LoggedReachable st) :
    (TicketInv st.1.lk st.1.calls ∧ TicketWindow st.1.lk st.1.calls) ∧ FifoInv st.1 st.2 :=
  Run.Reachable.induction
    (fun st => (TicketInv st.1.lk st.1.calls ∧ TicketWindow st.1.lk st.1.calls) ∧
      FifoInv st.1 st.2)
    (fun st (hs : st = (init, [])) => hs ▸ ⟨⟨ticketInv_init, ticketWindow_init⟩, fifoInv_init⟩)
    (fun _ _ _ hs hst =>
      have hstep := (logged_eq_some hst).1
      ⟨⟨ticketInv_step hs.1.1 hstep, ticketWindow_step hs.1.1 hs.1.2 hstep⟩,
        fifoInv_step hs.1.1 hs.2 hst⟩) h

/-- The 32-bit lock shows the events the unbounded one does: a waiter's ticket is `turn` exactly
when its 32-bit value is. -/
theorem ticketEvent_reduce {s : TicketSys} (hi : TicketInv s.lk s.calls)
    (hw : TicketWindow s.lk s.calls) (l : Fin NPROC × TicketOp) :
    ticketEvent s.reduce l = ticketEvent s l := by
  obtain ⟨p, op⟩ := l
  cases op with
  | acquire | release => rfl
  | run =>
    simp only [ticketEvent, reduce_calls, reduce_lk, TicketLock.reduce]
    by_cases htest : ∃ me, s.calls p = some (.test me)
    · obtain ⟨me, hc⟩ := htest
      have hiff := hw.wrap_eq_turn_iff hi
        (show drawnOf s.calls p = some me by simp [drawnOf, hc, TicketPc.drawn])
      by_cases hme : s.lk.turn = me
      · subst hme
        simp [hc, TicketPc.reduce]
      · have hw' : wrap me ≠ wrap s.lk.turn := fun h => hme (hiff.mp h.symm)
        have hne : me ≠ s.lk.turn := fun h => hme h.symm
        simp [hc, TicketPc.reduce, hw', hne]
    · -- not at the test, the 32-bit pc is not at it either
      have hne : s.calls p ≠ some (.test s.lk.turn) := fun h => htest ⟨_, h⟩
      have hne' : (s.calls p).map TicketPc.reduce ≠ some (.test (wrap s.lk.turn)) := by
        intro h
        rcases hc : s.calls p with _ | ⟨m | m | m | _ | _ | _⟩ <;>
          simp [hc, TicketPc.reduce] at h
        exact htest ⟨m, hc⟩
      simp only [hne, hne', if_false]

/-- A state of the 32-bit lock and the events of the run that reached it. -/
def LoggedReachable32 : TicketSys × List TicketEvent → Prop :=
  Run.Reachable (logged step32 ticketEvent) fun st => st = (init, [])

/-- Every logged run of the 32-bit lock is the reduction of a logged run of the unbounded one,
with the same events. -/
theorem loggedReachable32 {st : TicketSys × List TicketEvent} (h : LoggedReachable32 st) :
    ∃ s : TicketSys, LoggedReachable (s, st.2) ∧ st.1 = s.reduce := by
  have hinv : ∀ st : TicketSys × List TicketEvent,
      TicketInv st.1.lk st.1.calls ∧ TicketWindow st.1.lk st.1.calls →
      ∀ l, logged step32 ticketEvent (Prod.map reduce id st) l =
        (logged step ticketEvent st l).map (Prod.map reduce id) :=
    fun st hs l => logged_comm reduce (fun s => TicketInv s.lk s.calls ∧ TicketWindow s.lk s.calls)
      (fun s l hs => step32_reduce hs.1 hs.2 l) (fun s l hs => ticketEvent_reduce hs.1 hs.2 l)
      st l hs
  have key : ∃ st₀ : TicketSys × List TicketEvent, LoggedReachable st₀ ∧
      st = Prod.map reduce id st₀ :=
    Run.Reachable.of_comm (Prod.map reduce id)
      (fun st : TicketSys × List TicketEvent =>
        TicketInv st.1.lk st.1.calls ∧ TicketWindow st.1.lk st.1.calls)
      (fun st (hs : st = (init, [])) => hs ▸ ⟨ticketInv_init, ticketWindow_init⟩)
      (fun _ _ _ hs hst =>
        have hstep := (logged_eq_some hst).1
        ⟨ticketInv_step hs.1 hstep, ticketWindow_step hs.1 hs.2 hstep⟩)
      (fun st l hs => hinv st hs l)
      (fun u (hu : u = (init, [])) => ⟨(init, []), rfl, by rw [hu]; simp [reduce_init]⟩) h
  obtain ⟨⟨s, evs⟩, hs, rfl⟩ := key
  exact ⟨s, hs, rfl⟩

end TicketSys

/-- **FIFO on 32-bit counters**: in every run of the lock, the processes leave the wait loop of
`ticket_acquire` in the order in which their `fetch_and_add(&lk->ticket, 1)` executed. -/
theorem ticket_fifo32 {st : TicketSys × List TicketEvent} (h : TicketSys.LoggedReachable32 st) :
    enters st.2 <+: draws st.2 := by
  obtain ⟨s, hs, -⟩ := TicketSys.loggedReachable32 h
  exact (TicketSys.fifoInv_reachable hs).2.entry_order

end Xv6Lab
