import Xv6Lab.Sync.Semaphore
import Xv6Lab.Lib.Tally

/-!
# The waiting queue when only the semaphore wakes its waiters

`stranded_by_outside_wakeup` needs a wakeup that does not come from `sem_signal`.  Without one
(`SemSys.quietStep`: `sem_wait`, the retest of a woken waiter and `sem_signal` only) the
circular queue is exactly the list of sleeping waiters, and every free unit is promised to a
woken one.  `SemSys.QueueInv` says so:

* `set_iff` / `tail_eq` — the set entries of `thread[]` are the `count` slots from `next` on,
  circularly, and `end` is the slot just past them;
* `entry_asleep` / `asleep_entry` / `entry_inj` — each entry names a sleeping waiter, and each
  sleeping waiter has exactly one entry;
* `val_le` — while anyone sleeps, `val` is at most the number of woken waiters.

The step lemmas `QueueInv.test_zero`, `QueueInv.test_pos` and `QueueInv.signal` follow the three
branches of the source; `queueInv_quiet` is the run lemma.  Its consequences:
`quiet_not_stranded` (a free unit always has a woken waiter to take it) and `quiet_tail_free`
(`end` never overwrites a waiter that has not been dequeued).
-/

namespace Xv6Lab

open Tally Run

/-! ### Positions in the circular queue -/

/-- The place of slot `i` in a queue whose head is `next`. -/
def qpos (next i : Fin NPROC) : ℕ := (i.val + NPROC - next.val) % NPROC

/-- The number of set entries of `thread[]`. -/
def Sem.count (s : Sem) : ℕ := tally s.thread (· ≠ none)

theorem Sem.count_le (s : Sem) : s.count ≤ NPROC := by
  unfold Sem.count tally
  exact (Finset.card_le_univ _).trans (by simp)

theorem fin_val_add_one (a : Fin NPROC) : (a + 1).val = (a.val + 1) % NPROC := by
  rw [Fin.val_add]
  rfl

theorem qpos_self (n : Fin NPROC) : qpos n n = 0 := by
  simp [qpos]

/-- The slot at place `c` is `next + c`. -/
theorem qpos_eq_iff {n t i : Fin NPROC} {c : ℕ} (hc : c < NPROC)
    (ht : t.val = (n.val + c) % NPROC) : qpos n i = c ↔ i = t := by
  have hn := n.isLt
  have hi := i.isLt
  rw [Fin.ext_iff, ht]
  unfold qpos
  simp only [NPROC] at *
  omega

/-- Moving the head one slot on moves every other slot one place nearer. -/
theorem qpos_succ {n i : Fin NPROC} (hin : i ≠ n) : qpos (n + 1) i + 1 = qpos n i := by
  have hn := n.isLt
  have hi := i.isLt
  have hv : i.val ≠ n.val := fun e => hin (Fin.ext e)
  unfold qpos
  rw [fin_val_add_one]
  simp only [NPROC] at *
  omega

/-- ... and the old head to the last place. -/
theorem qpos_succ_self (n : Fin NPROC) : qpos (n + 1) n = NPROC - 1 := by
  have hn := n.isLt
  unfold qpos
  rw [fin_val_add_one]
  simp only [NPROC] at *
  omega

/-- Appending at `next + c` and stepping `end` on. -/
theorem tail_succ {n t : Fin NPROC} {c : ℕ} (ht : t.val = (n.val + c) % NPROC) :
    (t + 1).val = (n.val + (c + 1)) % NPROC := by
  rw [fin_val_add_one, ht]
  simp only [NPROC]
  omega

/-- Dequeuing at `next` and stepping `next` on. -/
theorem tail_of_succ {n t : Fin NPROC} {c : ℕ} (hc : 0 < c) (ht : t.val = (n.val + c) % NPROC) :
    t.val = ((n + 1).val + (c - 1)) % NPROC := by
  rw [fin_val_add_one, ht]
  simp only [NPROC]
  omega

/-- An entry still set after slot `i` is cleared is another slot's, and was set before. -/
theorem update_none_eq_some {α β : Type*} [DecidableEq α] {f : α → Option β} {i j : α} {r : β}
    (h : Function.update f i none j = some r) : j ≠ i ∧ f j = some r := by
  by_cases hji : j = i
  · subst hji
    rw [Function.update_self] at h
    cases h
  · rw [Function.update_of_ne hji] at h
    exact ⟨hji, h⟩

namespace SemSys

/-- The semaphore's own steps: every label but a wakeup from outside. -/
def quietStep (s : SemSys) (l : Fin NPROC × SemOp) : Option SemSys :=
  if l.2 = .wake then none else s.step l

def QuietReachable : SemSys → Prop := Run.Reachable quietStep Init

/-- The number of woken waiters. -/
def woken (s : SemSys) : ℕ := tally s.pc (· = .woken)

theorem test_of_val_zero {s : SemSys} {p : Fin NPROC} (hv : s.sem.val = 0) :
    s.test p = ⟨{ s.sem with
        thread := Function.update s.sem.thread s.sem.tail (some p), tail := s.sem.tail + 1 },
      Function.update s.pc p .asleep⟩ := by
  simp [test, Sem.waitTest, hv]

theorem test_of_val_ne_zero {s : SemSys} {p : Fin NPROC} (hv : s.sem.val ≠ 0) :
    s.test p = ⟨{ s.sem with val := s.sem.val - 1 }, Function.update s.pc p .out⟩ := by
  simp [test, Sem.waitTest, hv]

theorem signal_of_none {s : SemSys} (hq : s.sem.thread s.sem.next = none) :
    s.signal = ⟨{ s.sem with val := s.sem.val + 1 }, s.pc⟩ := by
  simp [signal, Sem.signal, hq]

theorem signal_of_some {s : SemSys} {q : Fin NPROC} (hq : s.sem.thread s.sem.next = some q)
    (hs : s.pc q = .asleep) :
    s.signal = ⟨{ s.sem with
        val := s.sem.val + 1, thread := Function.update s.sem.thread s.sem.next none,
        next := s.sem.next + 1 },
      Function.update s.pc q .woken⟩ := by
  simp [signal, Sem.signal, hq, wakeProc, hs]

/-- The queue of a semaphore whose waiters are woken only by `sem_signal`. -/
structure QueueInv (s : SemSys) : Prop where
  set_iff : ∀ i, s.sem.thread i ≠ none ↔ qpos s.sem.next i < s.sem.count
  tail_eq : s.sem.tail.val = (s.sem.next.val + s.sem.count) % NPROC
  entry_asleep : ∀ i q, s.sem.thread i = some q → s.pc q = .asleep
  asleep_entry : ∀ q, s.pc q = .asleep → ∃ i, s.sem.thread i = some q
  entry_inj : ∀ i j q, s.sem.thread i = some q → s.sem.thread j = some q → i = j
  val_le : (∃ q, s.pc q = .asleep) → s.sem.val ≤ s.woken

theorem queueInv_init (i : ℕ) : QueueInv (init i) where
  set_iff := fun j => by simp [init, semInit, Sem.count, tally]
  tail_eq := by simp [init, semInit, Sem.count, tally]
  entry_asleep := fun _ _ h => by simp [init, semInit] at h
  asleep_entry := fun _ h => by simp [init] at h
  entry_inj := fun _ _ _ h => by simp [init, semInit] at h
  val_le := fun ⟨_, h⟩ => by simp [init] at h

namespace QueueInv

variable {s : SemSys} (h : QueueInv s)
include h

/-- The set entries inject into the sleeping waiters. -/
theorem count_le_asleep : s.sem.count ≤ tally s.pc (· = .asleep) := by
  unfold Sem.count
  exact tally_le_tally (· ≠ none) (· = SemPc.asleep) (fun i => (s.sem.thread i).getD 0)
    (fun i hi => by
      obtain ⟨q, hq⟩ := Option.ne_none_iff_exists'.mp hi
      simpa [hq] using h.entry_asleep i q hq)
    (fun i j hi hj hij => by
      obtain ⟨q, hq⟩ := Option.ne_none_iff_exists'.mp hi
      obtain ⟨r, hr⟩ := Option.ne_none_iff_exists'.mp hj
      simp only [hq, hr, Option.getD_some] at hij
      subst hij
      exact h.entry_inj i j q hq hr)

/-- With a process outside the queue, the queue is not full. -/
theorem count_lt {p : Fin NPROC} (hp : s.pc p ≠ .asleep) : s.sem.count < NPROC :=
  lt_of_le_of_lt h.count_le_asleep (tally_lt_of_not (· = SemPc.asleep) hp)

theorem pos_tail {p : Fin NPROC} (hp : s.pc p ≠ .asleep) :
    qpos s.sem.next s.sem.tail = s.sem.count :=
  (qpos_eq_iff (h.count_lt hp) h.tail_eq).mpr rfl

/-- **The slot `end` names is free** whenever a process outside the queue could append itself. -/
theorem tail_free {p : Fin NPROC} (hp : s.pc p ≠ .asleep) : s.sem.thread s.sem.tail = none := by
  by_contra hne
  have hlt := (h.set_iff s.sem.tail).mp hne
  rw [h.pos_tail hp] at hlt
  exact lt_irrefl _ hlt

theorem not_asleep_of_entry_ne {p q : Fin NPROC} (hp : s.pc p ≠ .asleep) {i : Fin NPROC}
    (hq : s.sem.thread i = some q) : q ≠ p := by
  rintro rfl
  exact hp (h.entry_asleep i q hq)

/-- `sem_wait` with no unit left: the caller appends itself at `end` and sleeps. -/
theorem test_zero {p : Fin NPROC} (hp : s.pc p ≠ .asleep) (hv : s.sem.val = 0) :
    QueueInv (s.test p) := by
  have hfree := h.tail_free hp
  have hc := h.count_lt hp
  -- one entry more: the caller's, at `end`
  have hcnt : tally (Function.update s.sem.thread s.sem.tail (some p)) (· ≠ none) =
      s.sem.count + 1 := by
    have := tally_update (· ≠ none) s.sem.thread s.sem.tail (some p)
    simpa [hfree, Sem.count] using this
  rw [test_of_val_zero hv]
  refine ⟨fun i => ?_, ?_, fun i q hq => ?_, fun q hq => ?_, fun i j q hi hj => ?_, fun _ => ?_⟩
  · -- `set_iff`: the new entry is the slot at place `count`
    show Function.update s.sem.thread s.sem.tail (some p) i ≠ none ↔
      qpos s.sem.next i < tally (Function.update s.sem.thread s.sem.tail (some p)) (· ≠ none)
    rw [hcnt]
    by_cases hi : i = s.sem.tail
    · rw [hi, Function.update_self, h.pos_tail hp]
      simp
    · have hpos : qpos s.sem.next i ≠ s.sem.count := fun he =>
        hi ((qpos_eq_iff hc h.tail_eq).mp he)
      rw [Function.update_of_ne hi, h.set_iff i]
      omega
  · -- `tail_eq`
    show (s.sem.tail + 1).val =
      (s.sem.next.val + tally (Function.update s.sem.thread s.sem.tail (some p)) (· ≠ none)) %
        NPROC
    rw [hcnt]
    exact tail_succ h.tail_eq
  · -- `entry_asleep`
    dsimp only at hq ⊢
    by_cases hi : i = s.sem.tail
    · rw [hi, Function.update_self, Option.some.injEq] at hq
      subst hq
      simp
    · rw [Function.update_of_ne hi] at hq
      rw [Function.update_of_ne (h.not_asleep_of_entry_ne hp hq)]
      exact h.entry_asleep i q hq
  · -- `asleep_entry`
    dsimp only at hq ⊢
    by_cases hqp : q = p
    · subst hqp
      exact ⟨s.sem.tail, by simp⟩
    · rw [Function.update_of_ne hqp] at hq
      obtain ⟨i, hi⟩ := h.asleep_entry q hq
      have hit : i ≠ s.sem.tail := by
        rintro rfl
        rw [hfree] at hi
        cases hi
      exact ⟨i, by rw [Function.update_of_ne hit]; exact hi⟩
  · -- `entry_inj`
    dsimp only at hi hj
    by_cases hit : i = s.sem.tail <;> by_cases hjt : j = s.sem.tail
    · rw [hit, hjt]
    · rw [hit, Function.update_self, Option.some.injEq] at hi
      rw [Function.update_of_ne hjt, ← hi] at hj
      exact absurd rfl (h.not_asleep_of_entry_ne hp hj)
    · rw [hjt, Function.update_self, Option.some.injEq] at hj
      rw [Function.update_of_ne hit, ← hj] at hi
      exact absurd rfl (h.not_asleep_of_entry_ne hp hi)
    · rw [Function.update_of_ne hit] at hi
      rw [Function.update_of_ne hjt] at hj
      exact h.entry_inj i j q hi hj
  · -- `val_le`: no unit is left
    show s.sem.val ≤ _
    rw [hv]
    exact Nat.zero_le _

/-- `sem_wait` with a unit left: the caller takes it. -/
theorem test_pos {p : Fin NPROC} (hp : s.pc p ≠ .asleep) (hv : s.sem.val ≠ 0) :
    QueueInv (s.test p) := by
  have hw := tally_update (· = SemPc.woken) s.pc p .out
  simp only [reduceCtorEq, if_false, add_zero] at hw
  rw [test_of_val_ne_zero hv]
  refine ⟨h.set_iff, h.tail_eq, fun i q hq => ?_, fun q hq => ?_, h.entry_inj, ?_⟩
  · dsimp only at hq ⊢
    rw [Function.update_of_ne (h.not_asleep_of_entry_ne hp hq)]
    exact h.entry_asleep i q hq
  · dsimp only at hq ⊢
    have hqp : q ≠ p := by
      rintro rfl
      simp at hq
    rw [Function.update_of_ne hqp] at hq
    exact h.asleep_entry q hq
  · rintro ⟨q, hq⟩
    dsimp only at hq
    have hqp : q ≠ p := by
      rintro rfl
      simp at hq
    rw [Function.update_of_ne hqp] at hq
    have hle := h.val_le ⟨q, hq⟩
    -- the caller took one unit, and was one of the woken waiters at most
    show s.sem.val - 1 ≤ tally (Function.update s.pc p .out) (· = .woken)
    unfold woken at hle
    split at hw <;> omega

/-- `sem_signal`: one more unit, and the head waiter is woken. -/
theorem signal : QueueInv s.signal := by
  cases hq : s.sem.thread s.sem.next with
  | none =>
    -- an empty head means an empty queue: nobody sleeps
    have hc : s.sem.count = 0 := by
      have := (h.set_iff s.sem.next).not.mp (by simp [hq])
      rw [qpos_self] at this
      omega
    have hnone : ∀ q, s.pc q ≠ .asleep := by
      intro q hsq
      obtain ⟨i, hi⟩ := h.asleep_entry q hsq
      have := (h.set_iff i).mp (by simp [hi])
      omega
    rw [signal_of_none hq]
    exact ⟨h.set_iff, h.tail_eq, h.entry_asleep, h.asleep_entry, h.entry_inj,
      fun ⟨q, hsq⟩ => absurd hsq (hnone q)⟩
  | some q =>
    have hsq := h.entry_asleep _ q hq
    have hc1 : 0 < s.sem.count := by
      have := (h.set_iff s.sem.next).mp (by simp [hq])
      rw [qpos_self] at this
      exact this
    have hcle := s.sem.count_le
    -- one entry less: `q`'s, at `next`
    have hcnt : tally (Function.update s.sem.thread s.sem.next none) (· ≠ none) + 1 =
        s.sem.count := by
      have := tally_update (· ≠ none) s.sem.thread s.sem.next none
      simpa [hq, Sem.count] using this
    have hw := tally_update (· = SemPc.woken) s.pc q .woken
    simp only [hsq, reduceCtorEq, if_false, add_zero, if_true] at hw
    have hne_q : ∀ {i r}, s.sem.thread i = some r → i ≠ s.sem.next → r ≠ q := by
      rintro i r hi hin rfl
      exact hin (h.entry_inj i _ r hi hq)
    rw [signal_of_some hq hsq]
    refine ⟨fun i => ?_, ?_, fun i r hr => ?_, fun r hr => ?_, fun i j r hi hj => ?_, ?_⟩
    · -- `set_iff`: every other entry moves one place nearer the head
      show Function.update s.sem.thread s.sem.next none i ≠ none ↔
        qpos (s.sem.next + 1) i < tally (Function.update s.sem.thread s.sem.next none) (· ≠ none)
      by_cases hin : i = s.sem.next
      · rw [hin, Function.update_self, qpos_succ_self]
        exact ⟨fun hn => absurd rfl hn, fun hlt => absurd hlt (by omega)⟩
      · have hsucc := qpos_succ hin
        rw [Function.update_of_ne hin, h.set_iff i]
        omega
    · -- `tail_eq`
      show s.sem.tail.val =
        ((s.sem.next + 1).val + tally (Function.update s.sem.thread s.sem.next none) (· ≠ none)) %
          NPROC
      rw [show tally (Function.update s.sem.thread s.sem.next none) (· ≠ none) =
        s.sem.count - 1 by omega]
      exact tail_of_succ hc1 h.tail_eq
    · -- `entry_asleep`
      dsimp only at hr ⊢
      obtain ⟨hin, hr⟩ := update_none_eq_some hr
      rw [Function.update_of_ne (hne_q hr hin)]
      exact h.entry_asleep i r hr
    · -- `asleep_entry`
      dsimp only at hr ⊢
      have hrq : r ≠ q := by
        rintro rfl
        simp at hr
      rw [Function.update_of_ne hrq] at hr
      obtain ⟨i, hi⟩ := h.asleep_entry r hr
      have hin : i ≠ s.sem.next := by
        rintro rfl
        rw [hq, Option.some.injEq] at hi
        exact hrq hi.symm
      exact ⟨i, by rw [Function.update_of_ne hin]; exact hi⟩
    · -- `entry_inj`
      dsimp only at hi hj
      exact h.entry_inj i j r (update_none_eq_some hi).2 (update_none_eq_some hj).2
    · -- `val_le`: the new unit goes to the waiter just woken
      intro _
      have hle := h.val_le ⟨q, hsq⟩
      show s.sem.val + 1 ≤ tally (Function.update s.pc q .woken) (· = .woken)
      unfold woken at hle
      omega

end QueueInv

/-- **Every step of the semaphore's own keeps the queue invariant.** -/
theorem queueInv_quietStep {s t : SemSys} {l : Fin NPROC × SemOp} (hs : QueueInv s)
    (h : s.quietStep l = some t) : QueueInv t := by
  obtain ⟨p, op⟩ := l
  unfold quietStep at h
  cases op with
  | wake => simp at h
  | wait | resume =>
    simp only [step, reduceCtorEq, if_false, Option.ite_none_right_eq_some,
      Option.some.injEq] at h
    obtain ⟨hp, rfl⟩ := h
    have hp' : s.pc p ≠ .asleep := by rw [hp]; decide
    by_cases hv : s.sem.val = 0
    · exact hs.test_zero hp' hv
    · exact hs.test_pos hp' hv
  | signal =>
    simp only [step, reduceCtorEq, if_false, Option.ite_none_right_eq_some,
      Option.some.injEq] at h
    obtain ⟨-, rfl⟩ := h
    exact hs.signal

theorem queueInv_quiet {s : SemSys} (h : s.QuietReachable) : QueueInv s :=
  Reachable.induction QueueInv (fun _ ⟨i, hi⟩ => hi ▸ queueInv_init i)
    (fun _ _ _ hs hstep => queueInv_quietStep hs hstep) h

/-- **Without wakeups from outside, no waiter is stranded**: while a unit is free and a waiter
sleeps, a woken waiter is on its way to take the unit. -/
theorem quiet_not_stranded {s : SemSys} (h : s.QuietReachable) : ¬s.Stranded := by
  rintro ⟨hv, hsl, hnw⟩
  have hle := (queueInv_quiet h).val_le hsl
  have hz : s.woken = 0 := (tally_eq_zero _ s.pc).mpr hnw
  omega

/-- **Without wakeups from outside, `end` never overwrites a waiter that has not been
dequeued**: the slot a process appends itself to is free. -/
theorem quiet_tail_free {s : SemSys} (h : s.QuietReachable) {p : Fin NPROC}
    (hp : s.pc p ≠ .asleep) : s.sem.thread s.sem.tail = none :=
  (queueInv_quiet h).tail_free hp

end SemSys

end Xv6Lab
