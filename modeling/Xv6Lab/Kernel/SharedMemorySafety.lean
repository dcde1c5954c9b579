import Xv6Lab.Kernel.SharedMemoryInvariant

/-!
# Which shared-memory calls can crash the kernel

`shm_open`, `shm_attach` and `shm_close` take their integer arguments from user space.  At a
reachable state (`ShmInv`: the lock free, every `size` at most `MAXSHMPBLOCK`):

* `shm_open` crashes exactly at its guard `page_count > MAXSHMPBLOCK` (when no block carries the
  id and a block is free), with the guard's own panic;
* `shm_close` never indexes `pages[]` or `members[]` out of bounds and never releases a free
  lock: its only crash is `kfree`'s panic;
* `shm_attach` of a block with `flags != 0` by a process that is neither its owner nor a child of
  its owner ends in a panic (the source's refusal; it panics in `release` first).

`shm_crashes_by_design` collects these.  `shmattach_parentless` and `shmattach_members_overflow`
are the other crashes of `shm_attach`: a parentless caller (`initproc`) reads through
`myproc()->parent`, and `members[ref_count-1]` leaves the array once `ref_count` passes
`PROCNUM`.  `shm_open_guard_panics` is a reachable state where `shm_open(1, 5, 0)` panics.
-/

namespace Xv6Lab

open Scan Run

/-- A parentless caller that does not own a block with `flags != 0` reads through the null
`myproc()->parent`. -/
theorem shmattach_parentless {c : ShmCtx} {me : ShmCaller} {id : ℤ} {i : Fin MAXSHM}
    (hi : firstIdx MAXSHM (fun i => (c.table.blocks i).id == id) = some i)
    (hf : (c.table.blocks i).flags ≠ 0) (ho : me.pid ≠ (c.table.blocks i).owner)
    (hp : me.parentPid = none) :
    shmattach c me id = .error (.nullDeref "myproc()->parent") := by
  apply shmattach_error_of_map hi
  simp [shmattachMap, hf, ho, hp]

/-- Once a block counts more than `PROCNUM` references, a mapped attach writes
`members[ref_count-1]` outside the array. -/
theorem shmattach_members_overflow {c c₁ : ShmCtx} {me me₁ : ShmCaller} {id : ℤ} {i : Fin MAXSHM}
    {va : ℕ} (hl : c.table.locked = false)
    (hi : firstIdx MAXSHM (fun i => (c.table.blocks i).id == id) = some i)
    (hmap : shmattachMap c me (c.table.blocks i) = .ok (c₁, me₁, va))
    (hr : (PROCNUM : ℤ) < (c.table.blocks i).refCount) :
    shmattach c me id =
      .error (.outOfBounds "members" ((c.table.blocks i).refCount - 1)) := by
  obtain ⟨ht₁, -⟩ := shmattachMap_ok hl hmap
  have hout : ¬(0 ≤ (c.table.blocks i).refCount - 1 ∧ (c.table.blocks i).refCount - 1 < PROCNUM) := by
    omega
  unfold shmattach
  simp only [hi, hmap, except_ok_bind, ht₁, hl, acquire_free, ShmBlock.setMember, hout,
    dite_false, except_error_bind]

/-- **What can crash a shared-memory call at a reachable state, by design**: `shm_open` only at
its guard, `shm_close` only in `kfree`, and `shm_attach` by refusing a caller that is neither
the owner of a `flags != 0` block nor its owner's child. -/
theorem shm_crashes_by_design {k : Kernel} (hk : k.Reachable) :
    k.shm.locked = false ∧
    (∀ p id n f e, k.sysStep p (.shmOpen id n f) = some (.error e) ↔
      k.live p = true ∧ e = .panic shmopenPanic ∧
        firstIdx MAXSHM (fun i => ((shmStart k.shmCtx).table.blocks i).id == id) = none ∧
        (∃ i, firstIdx MAXSHM (fun i => ((shmStart k.shmCtx).table.blocks i).refCount == 0) =
          some i) ∧
        (MAXSHMPBLOCK : ℤ) < n) ∧
    (∀ p id e, k.sysStep p (.shmClose id) = some (.error e) → e = .panic "kfree") ∧
    (∀ p id i ppid, firstIdx MAXSHM (fun i => (k.shm.blocks i).id == id) = some i →
      k.live p = true → (k.shm.blocks i).flags ≠ 0 → (k.proc p).pid ≠ (k.shm.blocks i).owner →
      (k.caller p).parentPid = some ppid → ppid ≠ (k.shm.blocks i).owner →
      ∃ msg, k.sysStep p (.shmAttach id) = some (.error (.panic msg))) := by
  have hi := shmInv_reachable hk
  refine ⟨hi.unlocked, fun p id n f e => shmopen_reachable_error hk,
    fun p id e h => shmclose_reachable_error hk h, ?_⟩
  intro p id i ppid hid hlive hf ho hp hpo
  -- the refusal releases the free lock, which is `release`'s panic
  have hmap : shmattachMap k.shmCtx (k.caller p) (k.shm.blocks i) = .error (.panic "release") :=
    shmattachMap_denied hi.unlocked hf ho hp hpo
  exact ⟨"release", Kernel.sysStep_shmAttach_error.mpr ⟨hlive, shmattach_error_of_map hid hmap⟩⟩

/-- A reachable state with a process that can call `shm_open`. -/
theorem shm_crashes_by_design_boot :
    ∃ k, Kernel.Reachable k ∧ k.live 0 = true ∧
      k.shm.locked = false ∧
      (∀ p id n f e, k.sysStep p (.shmOpen id n f) = some (.error e) ↔
        k.live p = true ∧ e = .panic shmopenPanic ∧
          firstIdx MAXSHM (fun i => ((shmStart k.shmCtx).table.blocks i).id == id) = none ∧
          (∃ i, firstIdx MAXSHM (fun i => ((shmStart k.shmCtx).table.blocks i).refCount == 0) =
            some i) ∧
          (MAXSHMPBLOCK : ℤ) < n) ∧
      (∀ p id e, k.sysStep p (.shmClose id) = some (.error e) → e = .panic "kfree") ∧
      (∀ p id i ppid, firstIdx MAXSHM (fun i => (k.shm.blocks i).id == id) = some i →
        k.live p = true → (k.shm.blocks i).flags ≠ 0 → (k.proc p).pid ≠ (k.shm.blocks i).owner →
        (k.caller p).parentPid = some ppid → ppid ≠ (k.shm.blocks i).owner →
        ∃ msg, k.sysStep p (.shmAttach id) = some (.error (.panic msg))) := by
  obtain ⟨k, hk, hl⟩ := exists_reachable_of_bootRun bootMem_ok [] (f := fun k => k.live 0)
    (b := true) (by decide)
  exact ⟨k, hk, hl, shm_crashes_by_design hk⟩

set_option maxRecDepth 100000 in
/-- Booted, `shm_open(1, 5, 0)` by the first process panics at the guard. -/
theorem shm_open_guard_panics :
    ∃ k, Kernel.Reachable k ∧ k.sysStep 0 (.shmOpen 1 5 0) = some (.error (.panic shmopenPanic)) := by
  obtain ⟨k, hk, hc⟩ := exists_reachable_of_bootRun bootMem_ok [] (f := fun k => k.crashes 0 (.shmOpen 1 5 0))
    (b := some (.panic shmopenPanic)) (by decide)
  exact ⟨k, hk, Kernel.crashes_eq_some.mp hc⟩

end Xv6Lab
