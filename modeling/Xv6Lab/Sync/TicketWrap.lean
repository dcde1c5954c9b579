import Xv6Lab.Sync.TicketLock
import Mathlib.Order.Interval.Finset.Nat
import Mathlib.Data.Fintype.Fin

/-!
# Ticket locks on 32-bit counters

`lk->ticket` and `lk->turn` are `uint`s, so both `fetch_and_add`s wrap at `2^32`.
`TicketSys.step32` is the lock with those counters; `TicketSys.step`, with unbounded counters, is
its abstraction.

* `TicketWindow` — no waiter's ticket is below `turn`, and every ticket strictly between `turn`
  and `ticket` is held by a waiter.  With one ticket per process, `ticket ≤ turn + NPROC + 1`
  (`ticket_le_turn`);
* `step32_reduce` — on such a state the 32-bit lock does what the unbounded one does, read modulo
  `2^32`: a waiter's ticket and `turn` are equal exactly when their 32-bit values are;
* `reachable32` — every state of the 32-bit lock is the reduction of a reachable state of the
  unbounded one, so at most one process owns it (`ticket_excludes32`);
* `release_stray` — a `ticket_release` by a process that does not own the lock changes nothing.
-/

namespace Xv6Lab

open Function

/-! ### The 32-bit lock -/

namespace TicketPc

/-- A waiter's ticket as the 32-bit `me` holds it. -/
def reduce : TicketPc → TicketPc
  | test me => test (wrap me)
  | sleep me => sleep (wrap me)
  | asleep me => asleep (wrap me)
  | c => c

@[simp] theorem reduce_wakeUp (c : TicketPc) : c.wakeUp.reduce = c.reduce.wakeUp := by
  cases c <;> rfl

end TicketPc

namespace TicketLock

/-- `fetch_and_add(&lk->ticket, 1)` on the 32-bit `ticket`. -/
def draw32 (lk : TicketLock) : TicketLock × TicketPc :=
  ({ lk with ticket := wrap (lk.ticket + 1) }, .test lk.ticket)

/-- The steps of the calls on 32-bit counters: only `fetch_and_add(&lk->turn, 1)` differs. -/
def advance32 (lk : TicketLock) (p : Fin NPROC) :
    TicketPc → Option (TicketLock × Option TicketPc × Bool)
  | .incTurn => some ({ lk with turn := wrap (lk.turn + 1) }, some .wake, false)
  | c => lk.advance p c

/-- The counters' 32-bit values. -/
def reduce (lk : TicketLock) : TicketLock := { lk with ticket := wrap lk.ticket, turn := wrap lk.turn }

/-- Ownership reads `pid` and the kind of call only. -/
@[simp] theorem owns_reduce (lk : TicketLock) (q : Fin NPROC) (c : Option TicketPc) :
    lk.reduce.owns q (c.map TicketPc.reduce) = lk.owns q c := by
  rcases c with _ | ⟨_ | _ | _ | _ | _ | _⟩ <;> rfl

end TicketLock

namespace TicketSys

/-- One step by process `p` of the lock on 32-bit counters. -/
def step32 (s : TicketSys) : Fin NPROC × TicketOp → Option TicketSys
  | (p, .acquire) =>
    if s.calls p = none then
      let r := s.lk.draw32
      some ⟨r.1, update s.calls p (some r.2)⟩
    else none
  | (p, .release) =>
    if s.calls p = none then
      let r := s.lk.releaseTest p
      some ⟨r.1, update s.calls p r.2⟩
    else none
  | (p, .run) =>
    match s.calls p with
    | none => none
    | some c => (s.lk.advance32 p c).map fun r =>
      let calls := update s.calls p r.2.1
      ⟨r.1, if r.2.2 then wakeup calls else calls⟩

/-- A reachable state of the lock on 32-bit counters. -/
def Reachable32 : TicketSys → Prop := Run.Reachable step32 Init

/-- The lock and the calls with every counter and ticket at its 32-bit value. -/
def reduce (s : TicketSys) : TicketSys := ⟨s.lk.reduce, fun q => (s.calls q).map TicketPc.reduce⟩

theorem reduce_init : init.reduce = init := by
  simp only [reduce, init, initTicketLock, TicketLock.reduce, Option.map_none]
  rfl

end TicketSys

/-! ### The window of outstanding tickets -/

/-- Every waiter's ticket is at least `turn`, and every ticket strictly between `turn` and `ticket`
is a waiter's. -/
structure TicketWindow (lk : TicketLock) (calls : Fin NPROC → Option TicketPc) : Prop where
  drawn_ge : ∀ q me, drawnOf calls q = some me → lk.turn ≤ me
  between : ∀ v, lk.turn < v → v < lk.ticket → ∃ q, drawnOf calls q = some v

theorem ticketWindow_init : TicketWindow initTicketLock fun _ => none where
  drawn_ge _ _ h := by cases h
  between _ h₁ h₂ := by simp [initTicketLock] at h₂

namespace TicketWindow

variable {lk lk' : TicketLock} {calls calls' : Fin NPROC → Option TicketPc}

/-- **Frame rule**: with the counters kept, no new waiter, and every waiter past `turn` still
waiting, the window stays. -/
theorem of_same (h : TicketWindow lk calls) (hticket : lk'.ticket = lk.ticket)
    (hturn : lk'.turn = lk.turn)
    (hnew : ∀ q me, drawnOf calls' q = some me → drawnOf calls q = some me)
    (hold : ∀ q me, drawnOf calls q = some me → lk.turn < me → drawnOf calls' q = some me) :
    TicketWindow lk' calls' where
  drawn_ge q me hq := hturn ▸ h.drawn_ge q me (hnew q me hq)
  between v h₁ h₂ := by
    rw [hturn] at h₁
    rw [hticket] at h₂
    obtain ⟨q, hq⟩ := h.between v h₁ h₂
    exact ⟨q, hold q v hq h₁⟩

/-- Outstanding tickets: the waiters' and `turn`'s, at most one for each process and one more. -/
theorem ticket_le_turn (h : TicketWindow lk calls) (hi : TicketInv lk calls) :
    lk.ticket ≤ lk.turn + NPROC + 1 := by
  have hsub : (Finset.Ioo lk.turn lk.ticket).map ⟨some, Option.some_injective ℕ⟩ ⊆
      Finset.univ.image (drawnOf calls) := by
    intro x hx
    obtain ⟨v, hv, rfl⟩ := Finset.mem_map.mp hx
    obtain ⟨h₁, h₂⟩ := Finset.mem_Ioo.mp hv
    obtain ⟨q, hq⟩ := h.between v h₁ h₂
    exact Finset.mem_image.mpr ⟨q, Finset.mem_univ q, hq⟩
  have hcard := (Finset.card_le_card hsub).trans Finset.card_image_le
  rw [Finset.card_map, Nat.card_Ioo, Finset.card_univ, Fintype.card_fin] at hcard
  have := hi.turn_le
  omega

/-- A waiter's ticket is `turn` exactly when its 32-bit value is. -/
theorem wrap_eq_turn_iff (h : TicketWindow lk calls) (hi : TicketInv lk calls) {q : Fin NPROC}
    {me : ℕ} (hq : drawnOf calls q = some me) : wrap lk.turn = wrap me ↔ lk.turn = me := by
  have hge := h.drawn_ge q me hq
  have hlt := hi.drawn_lt q me hq
  have hle := h.ticket_le_turn hi
  constructor
  · intro hw
    simp only [wrap, UINT] at hw
    have hN : NPROC = 64 := rfl
    omega
  · intro heq
    rw [heq]

end TicketWindow

namespace TicketSys

/-- **Step lemma**: every step keeps the window. -/
theorem ticketWindow_step {s t : TicketSys} {l : Fin NPROC × TicketOp}
    (hi : TicketInv s.lk s.calls) (h : TicketWindow s.lk s.calls) (hst : s.step l = some t) :
    TicketWindow t.lk t.calls := by
  obtain ⟨p, op⟩ := l
  cases op with
  | acquire =>
    obtain ⟨hp, rfl⟩ := step_acquire hst
    have hpd : drawnOf s.calls p = none := by simp [drawnOf, hp]
    refine ⟨fun q me hq => ?_, fun v h₁ h₂ => ?_⟩
    · by_cases hqp : q = p
      · subst hqp
        simp only [drawnOf, update_self, Option.bind_some, TicketLock.draw, TicketPc.drawn,
          Option.some.injEq] at hq
        rw [← hq]
        exact hi.turn_le
      · rw [drawnOf_update_ne hqp] at hq
        exact h.drawn_ge q me hq
    · -- the new ticket is `p`'s; an older one keeps its holder, which is not `p`
      simp only [TicketLock.draw] at h₁ h₂
      rcases Nat.lt_succ_iff_lt_or_eq.mp h₂ with h₂ | rfl
      · obtain ⟨q, hq⟩ := h.between v h₁ h₂
        have hqp : q ≠ p := by
          rintro rfl
          rw [hpd] at hq
          cases hq
        exact ⟨q, by rw [drawnOf_update_ne hqp]; exact hq⟩
      · exact ⟨p, by simp [drawnOf, TicketLock.draw, TicketPc.drawn]⟩
  | release =>
    obtain ⟨hp, rfl⟩ := step_release hst
    unfold TicketLock.releaseTest
    split
    · refine h.of_same rfl rfl (fun q me hq => ?_) (fun q me hq _ => ?_)
      · by_cases hqp : q = p
        · subst hqp
          simp [drawnOf, TicketPc.drawn] at hq
        · rwa [drawnOf_update_ne hqp] at hq
      · have hqp : q ≠ p := by
          rintro rfl
          simp [drawnOf, hp] at hq
        rwa [drawnOf_update_ne hqp]
    · rw [← hp, update_eq_self]
      exact h
  | run =>
    obtain ⟨c, r, hp, hr, rfl⟩ := step_run hst
    -- the steps that keep every waiter's ticket and the counters
    have hkeep : ∀ (c' : Option TicketPc) (hc' : c'.bind TicketPc.drawn = c.drawn)
        (lk' : TicketLock), lk'.ticket = s.lk.ticket → lk'.turn = s.lk.turn →
        TicketWindow lk' (update s.calls p c') := by
      intro c' hc' lk' hticket hturn
      have hd : ∀ q, drawnOf (update s.calls p c') q = drawnOf s.calls q := by
        intro q
        by_cases hqp : q = p
        · subst hqp
          simp [drawnOf, hp, hc']
        · exact drawnOf_update_ne hqp _
      exact h.of_same hticket hturn (fun q me hq => (hd q) ▸ hq) (fun q me hq _ => (hd q).symm ▸ hq)
    cases c with
    | test me =>
      simp only [TicketLock.advance, Option.some.injEq] at hr
      subst hr
      by_cases hme : s.lk.turn = me
      · -- `p` passes with the ticket of `turn`, which lies outside the open window
        subst hme
        simp only [ne_eq, not_true_eq_false, if_false, Bool.false_eq_true]
        refine h.of_same rfl rfl (fun q m hq => ?_) (fun q m hq hlt => ?_)
        · by_cases hqp : q = p
          · subst hqp
            simp [drawnOf, TicketPc.drawn] at hq
          · rwa [drawnOf_update_ne hqp] at hq
        · have hqp : q ≠ p := by
            rintro rfl
            simp [drawnOf, hp, TicketPc.drawn] at hq
            omega
          rwa [drawnOf_update_ne hqp]
      · simpa [hme] using hkeep (some (.sleep me)) rfl s.lk rfl rfl
    | sleep me =>
      simp only [TicketLock.advance, Option.some.injEq] at hr
      subst hr
      simpa using hkeep (some (.asleep me)) rfl s.lk rfl rfl
    | asleep me => cases hr
    | setPid =>
      simp only [TicketLock.advance, Option.some.injEq] at hr
      subst hr
      simpa using hkeep none rfl { s.lk with pid := pidOf p } rfl rfl
    | incTurn =>
      simp only [TicketLock.advance, Option.some.injEq] at hr
      subst hr
      -- `p` owns the lock, so no waiter holds `turn`: every waiter is past it
      have hpo : s.lk.owns p (s.calls p) := by simp [hp, TicketLock.owns]
      have hd : ∀ q, drawnOf (update s.calls p (some .wake)) q = drawnOf s.calls q := by
        intro q
        by_cases hqp : q = p
        · subst hqp
          simp [drawnOf, hp, TicketPc.drawn]
        · exact drawnOf_update_ne hqp _
      refine ⟨fun q me hq => ?_, fun v h₁ h₂ => ?_⟩
      · simp only [Bool.false_eq_true, if_false, hd] at hq ⊢
        have hne := hi.owner_blocks p hpo q me hq
        have hge := h.drawn_ge q me hq
        show s.lk.turn + 1 ≤ me
        omega
      · simp only [Bool.false_eq_true, if_false] at h₁ h₂ ⊢
        obtain ⟨q, hq⟩ := h.between v (by omega) h₂
        exact ⟨q, by rw [hd]; exact hq⟩
    | wake =>
      simp only [TicketLock.advance, Option.some.injEq] at hr
      subst hr
      simp only [if_true]
      have hd : ∀ q, drawnOf (wakeup (update s.calls p none)) q = drawnOf s.calls q := by
        intro q
        by_cases hqp : q = p
        · subst hqp
          simp [drawnOf, wakeup, hp, TicketPc.drawn]
        · simp only [drawnOf, wakeup, update_of_ne hqp]
          rcases s.calls q with _ | c
          · rfl
          · simp
      exact h.of_same rfl rfl (fun q me hq => (hd q) ▸ hq) (fun q me hq _ => (hd q).symm ▸ hq)

/-- **Run lemma**: every reachable state of the unbounded lock has its window. -/
theorem ticketWindow_reachable {s : TicketSys} (h : s.Reachable) :
    TicketInv s.lk s.calls ∧ TicketWindow s.lk s.calls :=
  Run.Reachable.induction (fun s => TicketInv s.lk s.calls ∧ TicketWindow s.lk s.calls)
    (fun _ hs => hs ▸ ⟨ticketInv_init, ticketWindow_init⟩)
    (fun _ _ _ hs hst => ⟨ticketInv_step hs.1 hst, ticketWindow_step hs.1 hs.2 hst⟩) h

/-! ### The 32-bit lock refines the unbounded one -/

@[simp] theorem reduce_lk (s : TicketSys) : s.reduce.lk = s.lk.reduce := rfl

@[simp] theorem reduce_calls (s : TicketSys) (q : Fin NPROC) :
    s.reduce.calls q = (s.calls q).map TicketPc.reduce := rfl

theorem wrap_succ_wrap (a : ℕ) : wrap (wrap a + 1) = wrap (a + 1) := Nat.mod_add_mod a UINT 1

theorem map_reduce_update (calls : Fin NPROC → Option TicketPc) (p : Fin NPROC)
    (c : Option TicketPc) :
    (fun q => (update calls p c q).map TicketPc.reduce) =
      update (fun q => (calls q).map TicketPc.reduce) p (c.map TicketPc.reduce) := by
  funext q
  by_cases hqp : q = p
  · subst hqp
    simp
  · simp [hqp]

theorem map_reduce_wakeup (calls : Fin NPROC → Option TicketPc) :
    (fun q => (wakeup calls q).map TicketPc.reduce) =
      wakeup fun q => (calls q).map TicketPc.reduce := by
  funext q
  simp only [wakeup]
  rcases calls q with _ | c <;> simp

/-- One step of a call on the 32-bit counters is the unbounded step, reduced, as long as a test
of `turn` compares alike on both. -/
theorem advance32_reduce (lk : TicketLock) (p : Fin NPROC) (c : TicketPc)
    (htest : ∀ me, c = .test me → (wrap lk.turn = wrap me ↔ lk.turn = me)) :
    lk.reduce.advance32 p c.reduce =
      (lk.advance p c).map fun r => (r.1.reduce, r.2.1.map TicketPc.reduce, r.2.2) := by
  cases c with
  | test me =>
    have h := htest me rfl
    by_cases hme : lk.turn = me
    · simp [TicketPc.reduce, TicketLock.advance32, TicketLock.advance, TicketLock.reduce, hme]
    · have hw : wrap lk.turn ≠ wrap me := fun hw => hme (h.mp hw)
      simp [TicketPc.reduce, TicketLock.advance32, TicketLock.advance, TicketLock.reduce, hme, hw]
  | incTurn =>
    simp [TicketPc.reduce, TicketLock.advance32, TicketLock.advance, TicketLock.reduce,
      wrap_succ_wrap]
  | sleep me | asleep me | setPid | wake => rfl

/-- **The 32-bit lock refines the unbounded one**: from the reduction of a state with the invariant
and the window, a step of the 32-bit lock is the unbounded step, reduced. -/
theorem step32_reduce {s : TicketSys} (hi : TicketInv s.lk s.calls)
    (hw : TicketWindow s.lk s.calls) (l : Fin NPROC × TicketOp) :
    s.reduce.step32 l = (s.step l).map reduce := by
  obtain ⟨p, op⟩ := l
  cases op with
  | acquire =>
    by_cases hp : s.calls p = none
    · simp only [step32, step, reduce_calls, hp, Option.map_none, if_true, Option.map_some,
        Option.some.injEq]
      show TicketSys.mk _ _ = TicketSys.mk _ _
      rw [map_reduce_update]
      simp only [TicketLock.draw32, TicketLock.draw, TicketLock.reduce, wrap_succ_wrap,
        Option.map_some, TicketPc.reduce, reduce_lk, TicketSys.mk.injEq, true_and]
      rfl
    · have hp' : (s.calls p).map TicketPc.reduce ≠ none := by simpa using hp
      simp only [step32, step, reduce_calls, hp, hp', if_false, Option.map_none]
  | release =>
    by_cases hp : s.calls p = none
    · simp only [step32, step, reduce_calls, hp, Option.map_none, if_true, Option.map_some,
        Option.some.injEq]
      show TicketSys.mk _ _ = TicketSys.mk _ _
      rw [map_reduce_update]
      unfold TicketLock.releaseTest
      by_cases hpid : s.lk.pid = pidOf p
      · simp only [TicketLock.reduce, hpid, if_true, Option.map_some, TicketPc.reduce, reduce_lk,
          TicketSys.mk.injEq, true_and]
        rfl
      · simp only [TicketLock.reduce, hpid, if_false, Option.map_none, reduce_lk,
          TicketSys.mk.injEq, true_and]
        rfl
    · have hp' : (s.calls p).map TicketPc.reduce ≠ none := by simpa using hp
      simp only [step32, step, reduce_calls, hp, hp', if_false, Option.map_none]
  | run =>
    cases hc : s.calls p with
    | none => simp [step32, step, hc]
    | some c =>
      have htest : ∀ me, c = .test me → (wrap s.lk.turn = wrap me ↔ s.lk.turn = me) := by
        rintro me rfl
        exact hw.wrap_eq_turn_iff hi (q := p) (by simp [drawnOf, hc, TicketPc.drawn])
      simp only [step32, step, reduce_calls, hc, Option.map_some, reduce_lk,
        advance32_reduce s.lk p c htest, Option.map_map]
      congr 1
      funext r
      obtain ⟨lk', c', w⟩ := r
      cases w
      · simp [reduce, map_reduce_update]
      · simp [reduce, map_reduce_update, map_reduce_wakeup]

/-- **Run lemma**: every state the 32-bit lock reaches is the reduction of a state the unbounded
lock reaches. -/
theorem reachable32 {u : TicketSys} (hu : u.Reachable32) :
    ∃ s : TicketSys, s.Reachable ∧ u = s.reduce :=
  Run.Reachable.of_comm reduce (fun s => TicketInv s.lk s.calls ∧ TicketWindow s.lk s.calls)
    (fun s (hs : s = init) => hs ▸ ⟨ticketInv_init, ticketWindow_init⟩)
    (fun _ _ _ hs hst => ⟨ticketInv_step hs.1 hst, ticketWindow_step hs.1 hs.2 hst⟩)
    (fun _ l hs => step32_reduce hs.1 hs.2 l)
    (fun _ hu => ⟨init, rfl, hu.trans reduce_init.symm⟩) hu

/-- **Mutual exclusion on 32-bit counters**: at every reachable state at most one process owns
the lock. -/
theorem ticket_excludes32 {u : TicketSys} (hu : u.Reachable32) {p q : Fin NPROC}
    (hp : u.lk.owns p (u.calls p)) (hq : u.lk.owns q (u.calls q)) : p = q := by
  obtain ⟨s, hs, rfl⟩ := reachable32 hu
  rw [reduce_lk, reduce_calls, TicketLock.owns_reduce] at hp hq
  exact ticket_excludes hs hp hq

/-- The 32-bit lock moves the calls and `pid` as the unbounded one does: only the counters
differ. -/
theorem step32_shadow {s t : TicketSys} {l : Fin NPROC × TicketOp} (h : s.step32 l = some t) :
    ∃ t', s.step l = some t' ∧ t'.calls = t.calls ∧ t'.lk.pid = t.lk.pid := by
  obtain ⟨p, op⟩ := l
  cases op with
  | acquire =>
    simp only [step32, Option.ite_none_right_eq_some, Option.some.injEq] at h
    obtain ⟨hp, rfl⟩ := h
    exact ⟨⟨s.lk.draw.1, update s.calls p (some s.lk.draw.2)⟩, by simp only [step, hp, if_true],
      rfl, rfl⟩
  | release => exact ⟨t, h, rfl, rfl⟩
  | run =>
    rcases hc : s.calls p with _ | c
    · simp [step32, hc] at h
    · by_cases hinc : c = .incTurn
      · -- `fetch_and_add(&lk->turn, 1)`: the one step whose lock differs
        subst hinc
        simp only [step32, hc, TicketLock.advance32, Option.map_some, Option.some.injEq] at h
        subst h
        exact ⟨⟨{ s.lk with turn := s.lk.turn + 1 }, update s.calls p (some .wake)⟩,
          by simp [step, hc, TicketLock.advance], rfl, rfl⟩
      · have hadv : s.lk.advance32 p c = s.lk.advance p c := by
          cases c <;> first | rfl | cases hinc rfl
        refine ⟨t, ?_, rfl, rfl⟩
        simpa only [step, step32, hc, hadv] using h

/-- A process inside `ticket_release` of the 32-bit lock has cleared `pid`. -/
theorem released32 {u : TicketSys} (hu : u.Reachable32) {q : Fin NPROC}
    (hq : u.calls q = some .incTurn ∨ u.calls q = some .wake) : u.lk.pid ≠ pidOf q := by
  obtain ⟨s, hs, rfl⟩ := reachable32 hu
  have hq' : s.calls q = some .incTurn ∨ s.calls q = some .wake := by
    rw [reduce_calls] at hq
    rcases hc : s.calls q with _ | ⟨_ | _ | _ | _ | _ | _⟩ <;> simp_all [TicketPc.reduce]
  exact (ticketInv_reachable hs).released q hq'

/-- **A stray `ticket_release` changes nothing**: a process out of any call that does not own the
lock finds that `lk->pid` is not its pid, and the call returns. -/
theorem release_stray {s : TicketSys} {p : Fin NPROC} (hp : s.calls p = none)
    (hown : s.lk.owns p (s.calls p) = false) : s.step32 (p, .release) = some s := by
  have hpid : s.lk.pid ≠ pidOf p := by
    intro h
    simp [hp, TicketLock.owns, h] at hown
  simp only [step32, hp, if_true, TicketLock.releaseTest, hpid, if_false]
  rw [← hp, update_eq_self]

end TicketSys

end Xv6Lab
