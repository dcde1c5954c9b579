import Xv6Lab.Kernel.SharedMemorySpec
import Xv6Lab.Kernel.ProcSpec

/-!
# The shared-memory table between system calls

`ShmInv t` is what holds of `shmtable` whenever no system call is running:

* `unlocked` — `shmtable.shmlock` is free: every entry point that takes it gives it back before
  it returns;
* `size_le` — no block's `size` exceeds `MAXSHMPBLOCK`: `shmopen` stores only a `page_count`
  that passed its guard, and the only other write of `size` is `shminit`'s reset.

`shmInv_boot`, `shmInv_step` and `shmInv_reachable` are the initial, step and run lemmas.  The
specifications of `SharedMemorySpec` take exactly these two facts as hypotheses, so at every
reachable state they hold unconditionally: `shmclose_reachable_error` and
`shmopen_reachable_error` are the two consequences for crashes.
-/

namespace Xv6Lab

open Scan Run

/-- The shared-memory table between system calls. -/
structure ShmInv (t : ShmTable) : Prop where
  unlocked : t.locked = false
  size_le : ∀ i, (t.blocks i).size ≤ MAXSHMPBLOCK

theorem shmInv_shminit (t : ShmTable) : ShmInv (shminit t) where
  unlocked := rfl
  size_le := fun _ => by simp [shminit]

theorem shmInv_boot {k : Kernel} (h : Boot k) : ShmInv k.shm := by
  obtain ⟨m, -, hu⟩ := h
  rw [(userinit_shm hu).1]
  exact ⟨rfl, fun _ => by simp [ShmBlock.zero]⟩

/-- `shmattach` changes no block's `size`. -/
theorem shmattach_size {c c' : ShmCtx} {me me' : ShmCaller} {id : ℤ} {va : ℕ}
    (hl : c.table.locked = false) (h : shmattach c me id = .ok (c', me', va)) (j : Fin MAXSHM) :
    (c'.table.blocks j).size = (c.table.blocks j).size := by
  obtain ⟨-, hnone, hsome⟩ := shmattach_ok hl h
  cases hf : firstIdx MAXSHM fun i => (c.table.blocks i).id == id with
  | none => rw [hnone hf]
  | some i =>
    obtain ⟨mem, hb⟩ := hsome i hf
    rw [hb]
    by_cases hj : j = i
    · subst hj
      simp
    · simp [hj]

/-- **Every system call keeps the invariant.** -/
theorem shmInv_step {k k' : Kernel} {l : Fin NPROC × Syscall} (hk : ShmInv k.shm)
    (h : k.step l = some k') : ShmInv k'.shm := by
  obtain ⟨p, c⟩ := l
  rw [Kernel.step_eq_some] at h
  cases c with
  | shmInit =>
    rw [Kernel.sysStep_shmInit_ok h]
    exact shmInv_shminit k.shm
  | shmOpen id n f =>
    obtain ⟨c, r, ho, rfl⟩ := Kernel.sysStep_shmOpen_ok h
    obtain ⟨hl, hs⟩ := shmopen_ok_size hk.unlocked hk.size_le ho
    exact ⟨hl, hs⟩
  | shmAttach id =>
    obtain ⟨c, me, va, ha, rfl⟩ := Kernel.sysStep_shmAttach_ok h
    refine ⟨(shmattach_ok hk.unlocked ha).1, fun j => ?_⟩
    simp only [Kernel.setProc_shm, Kernel.withShm_shm]
    rw [shmattach_size hk.unlocked ha j]
    exact hk.size_le j
  | shmClose id =>
    obtain ⟨c, r, hc, rfl⟩ := Kernel.sysStep_shmClose_ok h
    obtain ⟨hl, hb⟩ := shmclose_ok hk.unlocked hc
    refine ⟨hl, fun i => ?_⟩
    rw [Kernel.withShm_shm, hb i, closeBlock_size]
    exact hk.size_le i
  | fork | exit | wait | sbrk _ | kill _ =>
    rw [(Kernel.sysStep_shm_of_proc rfl h).1]
    exact hk

/-- **The invariant holds at every reachable state.** -/
theorem shmInv_reachable {k : Kernel} (h : k.Reachable) : ShmInv k.shm :=
  Reachable.induction (fun k => ShmInv k.shm) (fun _ hb => shmInv_boot hb)
    (fun _ _ _ hs hstep => shmInv_step hs hstep) h

/-! ### Crashes at reachable states -/

/-- At a reachable state `shm_close` never indexes out of bounds and never releases a free
lock: its only crash is `kfree`'s panic. -/
theorem shmclose_reachable_error {k : Kernel} {p : Fin NPROC} {id : ℤ} {e : Crash}
    (hk : k.Reachable) (h : k.sysStep p (.shmClose id) = some (.error e)) :
    e = .panic "kfree" := by
  have hi := shmInv_reachable hk
  exact shmclose_error hi.unlocked hi.size_le (Kernel.sysStep_shmClose_error.mp h).2

/-- At a reachable state `shm_open` crashes exactly at its guard. -/
theorem shmopen_reachable_error {k : Kernel} {p : Fin NPROC} {id n f : ℤ} {e : Crash}
    (hk : k.Reachable) :
    k.sysStep p (.shmOpen id n f) = some (.error e) ↔
      k.live p = true ∧ e = .panic shmopenPanic ∧
        firstIdx MAXSHM (fun i => ((shmStart k.shmCtx).table.blocks i).id == id) = none ∧
        (∃ i, firstIdx MAXSHM (fun i => ((shmStart k.shmCtx).table.blocks i).refCount == 0) =
          some i) ∧
        (MAXSHMPBLOCK : ℤ) < n := by
  rw [Kernel.sysStep_shmOpen_error, shmopen_error (shmInv_reachable hk).unlocked]

end Xv6Lab
