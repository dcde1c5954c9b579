import Xv6Lab.Kernel.SharedMemoryInvariant

/-!
# Reference counts of shared blocks

`shmclose` decides whether the caller holds block `b` by one test, `pid == owner ||
pid == members[j]` for some `j` (`closeHit`), and drops one reference when it passes.  Nothing
records that a holder has already closed: the owner passes the test for ever, and `shmclose`
never clears the caller's `members[]` entry.

* `closeBlock_owner` — every `shmclose(id)` by the owner of a block carrying `id` drops a
  reference, however often the owner has closed before;
* `closeBlock_members` — `shmclose` leaves `members[]` as it was, so a member that closed is
  still found by the next `shmclose`;
* `closeBlock_of_not_holder` — a caller that is neither the owner nor listed in `members[]`
  leaves the block unchanged;
* `shmClose_step` / `owner_closes_refCount` — the step and run lemmas at kernel level: `n`
  closes by the owner in a row take `n` from the count;
* `owner_double_close_refCount` — booted, `shm_open(7, 1, 0)`, then `shm_close(7)` twice by the
  same process: a reachable state where block 0 has `ref_count == -1`.
-/

namespace Xv6Lab

open Run

/-! ### One close, one block -/

theorem closeBlock_owner {me : ShmCaller} {id : ℤ} {b : ShmBlock} (ho : me.pid = b.owner)
    (hid : b.id = id) : closeBlock me id b = { b with refCount := b.refCount - 1 } := by
  have hhit : closeHit me id b = true := (closeHit_iff me id b).mpr ⟨hid, Or.inl ho⟩
  rw [closeBlock, if_pos hhit]

theorem closeBlock_members (me : ShmCaller) (id : ℤ) (b : ShmBlock) :
    (closeBlock me id b).members = b.members := by
  unfold closeBlock
  split <;> rfl

theorem closeBlock_of_not_holder {me : ShmCaller} {id : ℤ} {b : ShmBlock}
    (hn : ¬(me.pid = b.owner ∨ ∃ j, b.members j = me.pid)) : closeBlock me id b = b := by
  have hmiss : closeHit me id b = false := by
    rw [Bool.eq_false_iff, Ne, closeHit_iff]
    exact fun h => hn h.2
  rw [closeBlock, if_neg (by rw [hmiss]; decide)]

/-! ### Closes by one process -/

/-- One `shm_close(id)` step rewrites every block by `closeBlock` for the calling slot and keeps
the process table. -/
theorem shmClose_step {k k' : Kernel} {p : Fin NPROC} {id : ℤ} (hk : ShmInv k.shm)
    (h : k.step (p, .shmClose id) = some k') :
    (∀ i, k'.shm.blocks i = closeBlock (k.caller p) id (k.shm.blocks i)) ∧ k'.proc = k.proc := by
  obtain ⟨c, r, hc, rfl⟩ := Kernel.sysStep_shmClose_ok (Kernel.step_eq_some.mp h)
  exact ⟨(shmclose_ok hk.unlocked hc).2, rfl⟩

/-- **The owner's closes never stop counting**: `n` successful `shm_close(id)` calls in a row by
the owner of block `i` take `n` from its `ref_count`. -/
theorem owner_closes_refCount {p : Fin NPROC} {id : ℤ} {i : Fin MAXSHM} (n : ℕ) :
    ∀ k k' : Kernel, ShmInv k.shm → (k.proc p).pid = (k.shm.blocks i).owner →
      (k.shm.blocks i).id = id →
      Run.exec Kernel.step k (List.replicate n (p, .shmClose id)) = some k' →
      (k'.shm.blocks i).refCount = (k.shm.blocks i).refCount - n := by
  induction n with
  | zero =>
    intro k k' _ _ _ h
    cases h
    simp
  | succ n ih =>
    intro k k' hk ho hid h
    rw [List.replicate_succ, Run.exec_cons] at h
    cases hs : k.step (p, .shmClose id) with
    | none => rw [hs] at h; cases h
    | some k₁ =>
      rw [hs, Option.bind_some] at h
      obtain ⟨hb, hp⟩ := shmClose_step hk hs
      -- the first close drops one reference and keeps the owner, the id and the caller's pid
      have hb₁ : k₁.shm.blocks i = { k.shm.blocks i with refCount := (k.shm.blocks i).refCount - 1 } := by
        rw [hb i]
        exact closeBlock_owner ho hid
      have ho₁ : (k₁.proc p).pid = (k₁.shm.blocks i).owner := by
        rw [hp, hb₁]
        exact ho
      have hid₁ : (k₁.shm.blocks i).id = id := by
        rw [hb₁]
        exact hid
      rw [ih k₁ k' (shmInv_step hk hs) ho₁ hid₁ h, hb₁]
      push_cast
      ring

set_option maxRecDepth 100000 in
/-- The owner closing twice: booted, `shm_open(7, 1, 0)` and two `shm_close(7)` by the first
process leave block 0 with `ref_count == -1`. -/
theorem owner_double_close_refCount :
    ∃ k, Kernel.Reachable k ∧ (k.shm.blocks 0).id = 7 ∧ (k.shm.blocks 0).refCount = -1 := by
  obtain ⟨k, hk, hf⟩ := exists_reachable_of_bootRun bootMem_ok
    [(0, .shmOpen 7 1 0), (0, .shmClose 7), (0, .shmClose 7)]
    (f := fun k => ((k.shm.blocks 0).id, (k.shm.blocks 0).refCount)) (b := (7, -1)) (by decide)
  simp only [Prod.mk.injEq] at hf
  exact ⟨k, hk, hf.1, hf.2⟩

end Xv6Lab
