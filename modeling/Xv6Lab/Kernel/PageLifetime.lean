import Xv6Lab.Kernel.SharedMemoryInvariant

/-!
# Lifetimes of shared pages

Three paths hand pages to `kfree`: `shmclose` when a block's count reaches `0`, and `wait`'s
`freevm` of a reaped child's directory, which frees every present user page below `KERNBASE`
— shared mappings included, since nothing tells `freevm` which pages are the block's.  `exit`
closes no shared block: the zombie keeps its directory, and the block keeps its count.

* `exit_zombie` — `exit` makes the caller a zombie with its directory and shared table as they
  were;
* `wait_reaps` — a `wait` that reaps frees the child's kernel stack and then its whole
  directory with `freevm`, and leaves the shared table alone;
* `reaped_child_frees_shared_page` — booted, `fork`; the child opens and attaches a one-page
  block and exits; the parent's `wait` frees the block's page while `ref_count == 2`.
-/

namespace Xv6Lab

open Scan Run

/-- **`exit` keeps the zombie's directory**: its pages stay mapped until `wait` frees them. -/
theorem exit_zombie {k k' : Kernel} {cur : Fin NPROC} (h : exit k cur = .ok k') :
    (k'.proc cur).state = .zombie ∧ (k'.proc cur).pgdir = (k.proc cur).pgdir ∧ k'.shm = k.shm := by
  unfold exit at h
  split at h
  · cases h
  · cases h
    refine ⟨by simp, ?_, rfl⟩
    simp only [Kernel.setProc_self]
    split <;> rfl

/-- **What a reaping `wait` frees**: the first zombie child's kernel stack, then every page of its
directory. -/
theorem wait_reaps {k k' : Kernel} {cur : Fin NPROC} {r : ℤ} (h : wait k cur = some (.ok (k', r)))
    (hr : r ≠ -1) :
    ∃ p m, firstIdx NPROC (fun p => (k.proc p).parent == some cur && (k.proc p).state == .zombie) =
        some p ∧ kfree (k.proc p).kstack k.kmem = .ok m ∧ freevm (k.proc p).pgdir m = .ok k'.kmem ∧
      k'.shm = k.shm := by
  unfold wait at h
  split at h
  · rename_i p hp
    simp only [Option.some.injEq] at h
    obtain ⟨m, hm, h⟩ := except_bind_eq_ok.mp h
    obtain ⟨m', hm', h⟩ := except_bind_eq_ok.mp h
    cases h
    exact ⟨p, m, hp, hm, hm', rfl⟩
  · -- no zombie child: `wait` returns `-1` or sleeps
    dsimp only at h
    split at h
    · simp only [Option.some.injEq, Except.ok.injEq, Prod.mk.injEq] at h
      exact absurd h.2.symm hr
    · cases h

set_option maxRecDepth 100000 in
/-- A child that attached a block and exited without closing it: the parent's `wait` hands the
block's page to `kfree` while the block still counts two holders. -/
theorem reaped_child_frees_shared_page :
    ∃ k, Kernel.Reachable k ∧ (k.shm.blocks 0).id = 5 ∧ (k.shm.blocks 0).refCount = 2 ∧
      (k.shm.blocks 0).pages 0 ∈ k.kmem.kfreed := by
  obtain ⟨k, hk, hf⟩ := exists_reachable_of_bootRun bootMem_ok
    [(0, .fork), (1, .shmOpen 5 1 0), (1, .shmAttach 5), (1, .exit), (0, .wait)]
    (f := fun k => ((k.shm.blocks 0).id, (k.shm.blocks 0).refCount,
      decide ((k.shm.blocks 0).pages 0 ∈ k.kmem.kfreed)))
    (b := (5, 2, true)) (by decide +kernel)
  simp only [Prod.mk.injEq, decide_eq_true_eq] at hf
  exact ⟨k, hk, hf.1, hf.2.1, hf.2.2⟩

end Xv6Lab
