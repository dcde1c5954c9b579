import Xv6Lab.Kernel.Proc

/-!
# What the process calls leave alone

`fork`, `exit`, `wait`, `sbrk` and `kill` act on the process table and the page allocator; none of them
touches `shmtable` or `start`.  Each has its frame lemma here, and `Kernel.step_eq_some` turns an
enabled step of a run back into the successful outcome of its system call.  Together they let an
invariant of the shared-memory globals be proved by looking at the `sharedm.c` entry points
only (`SharedMemoryInvariant`).
-/

namespace Xv6Lab

open Run

theorem allocproc_shm (k : Kernel) :
    (allocproc k).1.shm = k.shm ∧ (allocproc k).1.shmStart = k.shmStart := by
  unfold allocproc
  split
  · exact ⟨rfl, rfl⟩
  · dsimp only
    split <;> exact ⟨rfl, rfl⟩

theorem fork_shm {k k' : Kernel} {cur : Fin NPROC} {r : ℤ} (h : fork k cur = .ok (k', r)) :
    k'.shm = k.shm ∧ k'.shmStart = k.shmStart := by
  obtain ⟨hs, hst⟩ := allocproc_shm k
  unfold fork at h
  split at h
  · rename_i k₁ ha
    rw [ha] at hs hst
    cases h
    exact ⟨hs, hst⟩
  · rename_i k₁ np ha
    rw [ha] at hs hst
    -- `copyuvm` failing frees the new stack; succeeding installs the copy
    obtain ⟨⟨_ | d, m⟩, -, h⟩ := except_bind_eq_ok.mp h
    · dsimp only at h
      obtain ⟨m', -, h⟩ := except_bind_eq_ok.mp h
      cases h
      exact ⟨hs, hst⟩
    · cases h
      exact ⟨hs, hst⟩

theorem exit_shm {k k' : Kernel} {cur : Fin NPROC} (h : exit k cur = .ok k') :
    k'.shm = k.shm ∧ k'.shmStart = k.shmStart := by
  unfold exit at h
  split at h
  · cases h
  · cases h
    exact ⟨rfl, rfl⟩

theorem wait_shm {k k' : Kernel} {cur : Fin NPROC} {r : ℤ} (h : wait k cur = some (.ok (k', r))) :
    k'.shm = k.shm ∧ k'.shmStart = k.shmStart := by
  unfold wait at h
  split at h
  · simp only [Option.some.injEq] at h
    obtain ⟨m, -, h⟩ := except_bind_eq_ok.mp h
    obtain ⟨m', -, h⟩ := except_bind_eq_ok.mp h
    cases h
    exact ⟨rfl, rfl⟩
  · dsimp only at h
    split at h
    · simp only [Option.some.injEq, Except.ok.injEq, Prod.mk.injEq] at h
      rw [← h.1]
      exact ⟨rfl, rfl⟩
    · cases h

theorem growproc_shm {k k' : Kernel} {cur : Fin NPROC} {n r : ℤ}
    (h : growproc k cur n = .ok (k', r)) : k'.shm = k.shm ∧ k'.shmStart = k.shmStart := by
  unfold growproc at h
  split at h
  · obtain ⟨⟨d, m, sz⟩, -, h⟩ := except_bind_eq_ok.mp h
    dsimp only at h
    split at h <;> cases h <;> exact ⟨rfl, rfl⟩
  · split at h
    · obtain ⟨⟨d, m, sz⟩, -, h⟩ := except_bind_eq_ok.mp h
      dsimp only at h
      split at h <;> cases h <;> exact ⟨rfl, rfl⟩
    · cases h
      exact ⟨rfl, rfl⟩

theorem kill_shm (k : Kernel) (pid : ℤ) :
    (kill k pid).1.shm = k.shm ∧ (kill k pid).1.shmStart = k.shmStart := by
  unfold kill
  split <;> exact ⟨rfl, rfl⟩

/-- `userinit` starts from the zero-initialised shared-memory globals. -/
theorem userinit_shm {m : Kmem} {k : Kernel} (h : userinit m = .ok k) :
    k.shm = ⟨false, fun _ => ShmBlock.zero⟩ ∧ k.shmStart = true := by
  obtain ⟨hs, hst⟩ := allocproc_shm (Kernel.empty m)
  unfold userinit at h
  split at h
  · cases h
  · rename_i k₁ p ha
    rw [ha] at hs hst
    obtain ⟨⟨_ | d, m₁⟩, -, h⟩ := except_bind_eq_ok.mp h
    · cases h
    · obtain ⟨⟨d', m₂⟩, -, h⟩ := except_bind_eq_ok.mp h
      cases h
      exact ⟨hs, hst⟩

/-- The calls of `sharedm.c`, the only ones that read or write `shmtable` or `start`. -/
def Syscall.isShm : Syscall → Bool
  | .shmInit | .shmOpen _ _ _ | .shmAttach _ | .shmClose _ => true
  | .fork | .exit | .wait | .sbrk _ | .kill _ => false

namespace Kernel

/-- An enabled step of a run is a system call that returned. -/
theorem step_eq_some {k k' : Kernel} {p : Fin NPROC} {c : Syscall} :
    k.step (p, c) = some k' ↔ k.sysStep p c = some (.ok k') := by
  unfold step
  cases k.sysStep p c with
  | none => simp
  | some r =>
    cases r <;> simp

/-- **The calls other than `sharedm.c`'s keep the shared-memory globals.** -/
theorem sysStep_shm_of_proc {k k' : Kernel} {p : Fin NPROC} {c : Syscall} (hc : c.isShm = false)
    (h : k.sysStep p c = some (.ok k')) : k'.shm = k.shm ∧ k'.shmStart = k.shmStart := by
  cases c with
  | fork =>
    simp only [sysStep] at h
    split at h
    · simp only [Option.some.injEq, except_map_eq_ok] at h
      obtain ⟨⟨k₁, r⟩, hf, rfl⟩ := h
      exact fork_shm hf
    · cases h
  | exit =>
    simp only [sysStep] at h
    split at h
    · simp only [Option.some.injEq] at h
      exact exit_shm h
    · cases h
  | wait =>
    simp only [sysStep] at h
    split at h
    · simp only [Option.map_eq_some_iff, except_map_eq_ok] at h
      obtain ⟨r, hw, ⟨⟨k₁, n⟩, rfl, rfl⟩⟩ := h
      exact wait_shm hw
    · cases h
  | sbrk n =>
    simp only [sysStep] at h
    split at h
    · simp only [Option.some.injEq, except_map_eq_ok] at h
      obtain ⟨⟨k₁, r⟩, hg, rfl⟩ := h
      exact growproc_shm hg
    · cases h
  | kill pid =>
    simp only [sysStep] at h
    split at h
    · simp only [Option.some.injEq, Except.ok.injEq] at h
      rw [← h]
      exact kill_shm k pid
    · cases h
  | shmInit | shmOpen _ _ _ | shmAttach _ | shmClose _ => cases hc

@[simp] theorem withShm_shm (k : Kernel) (c : ShmCtx) : (k.withShm c).shm = c.table := rfl

@[simp] theorem withShm_kmem (k : Kernel) (c : ShmCtx) : (k.withShm c).kmem = c.kmem := rfl

@[simp] theorem withShm_proc (k : Kernel) (c : ShmCtx) : (k.withShm c).proc = k.proc := rfl

theorem sysStep_shmInit_ok {k k' : Kernel} {p : Fin NPROC}
    (h : k.sysStep p .shmInit = some (.ok k')) : k' = { k with shm := shminit k.shm } := by
  simp only [sysStep, Option.ite_none_right_eq_some, Option.some.injEq, Except.ok.injEq] at h
  exact h.2.symm

theorem sysStep_shmOpen_ok {k k' : Kernel} {p : Fin NPROC} {id n f : ℤ}
    (h : k.sysStep p (.shmOpen id n f) = some (.ok k')) :
    ∃ c r, shmopen k.shmCtx (k.caller p) id n f = .ok (c, r) ∧ k' = k.withShm c := by
  simp only [sysStep, Option.ite_none_right_eq_some, Option.some.injEq, except_map_eq_ok] at h
  obtain ⟨-, ⟨c, r⟩, ho, rfl⟩ := h
  exact ⟨c, r, ho, rfl⟩

theorem sysStep_shmAttach_ok {k k' : Kernel} {p : Fin NPROC} {id : ℤ}
    (h : k.sysStep p (.shmAttach id) = some (.ok k')) :
    ∃ c me va, shmattach k.shmCtx (k.caller p) id = .ok (c, me, va) ∧
      k' = (k.withShm c).setProc p { k.proc p with pgdir := me.pgdir } := by
  simp only [sysStep, Option.ite_none_right_eq_some, Option.some.injEq, except_map_eq_ok] at h
  obtain ⟨-, ⟨c, me, va⟩, ha, rfl⟩ := h
  exact ⟨c, me, va, ha, rfl⟩

theorem sysStep_shmClose_ok {k k' : Kernel} {p : Fin NPROC} {id : ℤ}
    (h : k.sysStep p (.shmClose id) = some (.ok k')) :
    ∃ c r, shmclose k.shmCtx (k.caller p) id = .ok (c, r) ∧ k' = k.withShm c := by
  simp only [sysStep, Option.ite_none_right_eq_some, Option.some.injEq, except_map_eq_ok] at h
  obtain ⟨-, ⟨c, r⟩, hc, rfl⟩ := h
  exact ⟨c, r, hc, rfl⟩

theorem sysStep_shmOpen_error {k : Kernel} {p : Fin NPROC} {id n f : ℤ} {e : Crash} :
    k.sysStep p (.shmOpen id n f) = some (.error e) ↔
      k.live p = true ∧ shmopen k.shmCtx (k.caller p) id n f = .error e := by
  simp only [sysStep, Option.ite_none_right_eq_some, Option.some.injEq, except_map_eq_error]

theorem sysStep_shmAttach_error {k : Kernel} {p : Fin NPROC} {id : ℤ} {e : Crash} :
    k.sysStep p (.shmAttach id) = some (.error e) ↔
      k.live p = true ∧ shmattach k.shmCtx (k.caller p) id = .error e := by
  simp only [sysStep, Option.ite_none_right_eq_some, Option.some.injEq, except_map_eq_error]

theorem sysStep_shmClose_error {k : Kernel} {p : Fin NPROC} {id : ℤ} {e : Crash} :
    k.sysStep p (.shmClose id) = some (.error e) ↔
      k.live p = true ∧ shmclose k.shmCtx (k.caller p) id = .error e := by
  simp only [sysStep, Option.ite_none_right_eq_some, Option.some.injEq, except_map_eq_error]

/-- The crash a system call ends in, if it crashes. -/
def crashes (k : Kernel) (p : Fin NPROC) (c : Syscall) : Option Crash :=
  match k.sysStep p c with
  | some (.error e) => some e
  | _ => none

theorem crashes_eq_some {k : Kernel} {p : Fin NPROC} {c : Syscall} {e : Crash} :
    k.crashes p c = some e ↔ k.sysStep p c = some (.error e) := by
  unfold crashes
  split <;> simp_all

end Kernel

end Xv6Lab
