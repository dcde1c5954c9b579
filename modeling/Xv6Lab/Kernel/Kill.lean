import Xv6Lab.Kernel.ProcSpec

/-!
# `kill` and the slots it marks

`kill(pid)` marks the first slot whose `pid` is `pid` and never looks at the slot's state.  The
slots that were never used and the slots `wait` reaped all have pid `0`; `allocproc` sets a
slot's state, pid and kernel stack but leaves its `killed` bit, which only a reaping `wait`
clears.  So `kill(0)` marks an `UNUSED` slot, and the process `fork` puts there next starts
killed, though nobody killed its pid:

* `kill_marks` / `kill_state_unused` — what `kill` does to the slot it finds, and that it makes no
  slot `UNUSED` and takes none out of that state;
* `allocproc_some` / `fork_child` — the slot `allocproc` takes is the first `UNUSED` one, and a
  `fork` that returns a pid leaves its child there, `RUNNABLE`, with the slot's old `killed` bit;
* `kill_then_fork_killed` — in every state whose first pid-`0` slot is its first `UNUSED` slot, a
  `kill(0)` followed by a successful `fork` gives a killed child;
* `fork_child_born_killed` — booted, the first process calls `kill(0)` and then `fork()`.
-/

namespace Xv6Lab

open Scan Run

/-- `kill` marks the slot it finds and keeps its state, unless it was `SLEEPING`. -/
theorem kill_marks {k : Kernel} {pid : ℤ} {p : Fin NPROC}
    (hp : firstIdx NPROC (fun q => (k.proc q).pid == pid) = some p) :
    ((kill k pid).1.proc p).killed = true ∧
      ((k.proc p).state ≠ .sleeping → ((kill k pid).1.proc p).state = (k.proc p).state) := by
  unfold kill
  rw [hp]
  refine ⟨by simp, fun hs => ?_⟩
  simp [hs]

/-- `kill` moves no slot into or out of `UNUSED`. -/
theorem kill_state_unused (k : Kernel) (pid : ℤ) (q : Fin NPROC) :
    ((kill k pid).1.proc q).state = .unused ↔ (k.proc q).state = .unused := by
  unfold kill
  split
  · rename_i p _
    by_cases hq : q = p
    · subst hq
      simp only [Kernel.setProc_self]
      -- a sleeping slot becomes runnable; neither is `UNUSED`
      split <;> simp_all
    · simp [hq]
  · rfl

/-- `allocproc` takes the first `UNUSED` slot and leaves its `killed` bit. -/
theorem allocproc_some {k k' : Kernel} {p : Fin NPROC} (h : allocproc k = (k', some p)) :
    firstIdx NPROC (fun q => (k.proc q).state == .unused) = some p ∧
      (k'.proc p).killed = (k.proc p).killed := by
  unfold allocproc at h
  split at h
  · cases h
  · rename_i q hq
    dsimp only at h
    split at h
    · cases h
    · simp only [Prod.mk.injEq, Option.some.injEq] at h
      obtain ⟨rfl, rfl⟩ := h
      exact ⟨hq, by simp⟩

/-- **A `fork` that returns a pid** put its child, `RUNNABLE`, in the slot `allocproc` took, with
the `killed` bit that slot had before. -/
theorem fork_child {k k' : Kernel} {cur : Fin NPROC} {r : ℤ} (h : fork k cur = .ok (k', r))
    (hr : r ≠ -1) :
    ∃ np, firstIdx NPROC (fun q => (k.proc q).state == .unused) = some np ∧
      (k'.proc np).state = .runnable ∧ (k'.proc np).killed = (k.proc np).killed := by
  unfold fork at h
  split at h
  · -- no slot or no stack: `-1`
    cases h
    exact absurd rfl hr
  · rename_i k₁ np ha
    obtain ⟨hfirst, hkilled⟩ := allocproc_some ha
    obtain ⟨⟨_ | d, m⟩, -, h⟩ := except_bind_eq_ok.mp h
    · -- `copyuvm` failed: the slot is given back and the call returns `-1`
      dsimp only at h
      obtain ⟨m', -, h⟩ := except_bind_eq_ok.mp h
      cases h
      exact absurd rfl hr
    · cases h
      exact ⟨np, hfirst, by simp, by simp [hkilled]⟩

/-- **`kill(0)` kills the next child**: where the first slot with pid `0` is the first `UNUSED`
slot (at boot, every free slot has pid `0`), a `kill(0)` marks that free slot, and a `fork` after
it that returns a pid puts a killed child there. -/
theorem kill_then_fork_killed {k k' : Kernel} {cur p : Fin NPROC} {r : ℤ}
    (hpid : firstIdx NPROC (fun q => (k.proc q).pid == 0) = some p)
    (hfree : firstIdx NPROC (fun q => (k.proc q).state == .unused) = some p)
    (hf : fork (kill k 0).1 cur = .ok (k', r)) (hr : r ≠ -1) :
    (k'.proc p).state = .runnable ∧ (k'.proc p).killed = true := by
  obtain ⟨hmark, -⟩ := kill_marks hpid
  -- `kill` leaves every slot's `UNUSED` test as it was, so `fork` takes `p` again
  have hsame : (fun q => ((kill k 0).1.proc q).state == .unused) =
      fun q => (k.proc q).state == .unused := by
    funext q
    rw [Bool.eq_iff_iff, beq_iff_eq, beq_iff_eq, kill_state_unused]
  obtain ⟨np, hnp, hstate, hkilled⟩ := fork_child hf hr
  rw [hsame, hfree, Option.some.injEq] at hnp
  subst hnp
  exact ⟨hstate, hkilled.trans hmark⟩

set_option maxRecDepth 100000 in
/-- Booted, the first process calls `kill(0)`: the free slot `1` is marked while `UNUSED`, and the
child of its next `fork` (pid `2`) is born killed. -/
theorem fork_child_born_killed :
    ∃ k, Kernel.Reachable k ∧ (k.proc 1).state = .unused ∧ (k.proc 1).killed = true ∧
      ∃ k', k.step (0, .fork) = some k' ∧ (k'.proc 1).state = .runnable ∧
        (k'.proc 1).killed = true ∧ (k'.proc 1).pid = 2 := by
  obtain ⟨k, hk, hf⟩ := exists_reachable_of_bootRun bootMem_ok [(0, .kill 0)]
    (f := fun k => ((k.proc 1).state, (k.proc 1).killed,
      (k.step (0, .fork)).map fun k' => ((k'.proc 1).state, (k'.proc 1).killed, (k'.proc 1).pid)))
    (b := (.unused, true, some (.runnable, true, 2))) (by decide +kernel)
  simp only [Prod.mk.injEq, Option.map_eq_some_iff] at hf
  obtain ⟨hs, hkill, k', hstep, hs', hkill', hpid⟩ := hf
  exact ⟨k, hk, hs, hkill, k', hstep, hs', hkill', hpid⟩

end Xv6Lab
