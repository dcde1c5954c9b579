import Xv6Lab.Kernel.SharedMemoryCount

/-!
# What `shmopen` answers

`shmopen(id, page_count, flag)` scans every slot for `id` before it looks at any `ref_count`.
A slot keeps the `id` it was last opened with after its count fell to `0` (`shmclose` frees the
pages and leaves `id`), and the zero-initialised table starts with `id == 0` in every slot.  So
`-1` ("already open") is the answer for every `id` a slot has ever carried, live or not.

* `shmopen_of_id` — some slot carries `id`: `-1`, and nothing changes;
* `shmopen_full` — no slot carries `id` and every slot is live: `-3`, and nothing changes;
* `shmopen_fresh` — no slot carries `id` and `page_count` passes the guard: `0`, and the first
  free slot becomes the caller's block of `page_count` pages;
* `shm_reopen_refused` — booted, the first process opens and closes id 5: no block is live,
  yet `shm_open(5, 1, 0)` answers `-1`.

The guard `page_count > MAXSHMPBLOCK` has no lower side, so a negative count is stored as the
block's `size`, and `shmattach` hands it to `shm_allocuvm` as `(uint)size`:

* `shm_bound_of_neg` — for `size = -k` the product `amount_pages*PGSIZE` wraps, and the search's
  bound `KERNBASE - amount_pages*PGSIZE` lands above `KERNBASE`;
* `shm_negative_size_wraps` — booted, `shm_open(5, -1, 0)` leaves a live block of size `-1`.
-/

namespace Xv6Lab

open Scan Run

/-- **A slot that carries `id`, live or not, makes `shmopen` answer `-1`** and leave the
table as `shminit` (on the first call) left it. -/
theorem shmopen_of_id {c : ShmCtx} (me : ShmCaller) {id n flag : ℤ} {i : Fin MAXSHM}
    (hi : ((shmStart c).table.blocks i).id = id) :
    shmopen c me id n flag = .ok (shmStart c, -1) := by
  obtain ⟨j, hj⟩ := firstIdx_isSome (p := fun i => ((shmStart c).table.blocks i).id == id)
    (by simpa using hi)
  unfold shmopen
  simp only [hj]

/-- **No slot carries `id` and every slot is live**: `-3`, with the lock given back. -/
theorem shmopen_full {c : ShmCtx} (me : ShmCaller) {id n flag : ℤ}
    (hl : c.table.locked = false) (hid : ∀ i, ((shmStart c).table.blocks i).id ≠ id)
    (hlive : ∀ i, ((shmStart c).table.blocks i).refCount ≠ 0) :
    shmopen c me id n flag = .ok (shmStart c, -3) := by
  have hnone : firstIdx MAXSHM (fun i => ((shmStart c).table.blocks i).id == id) = none :=
    (firstIdx_eq_none_iff _).mpr fun i => by simpa using hid i
  have hfull : firstIdx MAXSHM (fun i => ((shmStart c).table.blocks i).refCount == 0) = none :=
    (firstIdx_eq_none_iff _).mpr fun i => by simpa using hlive i
  unfold shmopen
  simp only [hnone, shmStart_locked hl, acquire_free, except_ok_bind, hfull, release_held,
    ShmTable.with_locked_eq (shmStart_locked hl)]

/-- **No slot carries `id`, `page_count` passes the guard**: `0`, and the first slot with
`ref_count == 0` becomes a live block of the caller's with `page_count` pages; every other
slot stays as it was. -/
theorem shmopen_fresh {c : ShmCtx} (me : ShmCaller) {id n flag : ℤ}
    (hl : c.table.locked = false) (hid : ∀ i, ((shmStart c).table.blocks i).id ≠ id)
    {i : Fin MAXSHM} (hfree : ((shmStart c).table.blocks i).refCount = 0)
    (hfirst : ∀ j < i, ((shmStart c).table.blocks j).refCount ≠ 0) (hn : n ≤ MAXSHMPBLOCK) :
    ∃ c', shmopen c me id n flag = .ok (c', 0) ∧ c'.table.locked = false ∧
      (c'.table.blocks i).id = id ∧ (c'.table.blocks i).owner = me.pid ∧
      (c'.table.blocks i).flags = flag ∧ (c'.table.blocks i).refCount = 1 ∧
      (c'.table.blocks i).size = n ∧
      ∀ j, j ≠ i → c'.table.blocks j = (shmStart c).table.blocks j := by
  have hnone : firstIdx MAXSHM (fun i => ((shmStart c).table.blocks i).id == id) = none :=
    (firstIdx_eq_none_iff _).mpr fun i => by simpa using hid i
  have hi : firstIdx MAXSHM (fun i => ((shmStart c).table.blocks i).refCount == 0) = some i :=
    (firstIdx_eq_some_iff _ i).mpr ⟨by simpa using hfree, fun j hj => by simpa using hfirst j hj⟩
  obtain ⟨b', m', ha, -⟩ := allocPages_ok hn MAXSHMPBLOCK 0 ((shmStart c).table.blocks i)
    (shmStart c).kmem
  let b : ShmBlock := { b' with id := id, owner := me.pid, flags := flag, refCount := 1, size := n }
  refine ⟨{ shmStart c with table := { (shmStart c).table.set i b with locked := false },
                            kmem := m' }, ?_, rfl, ?_, ?_, ?_, ?_, ?_,
    fun j hj => ShmTable.set_blocks_ne _ _ hj⟩
  · unfold shmopen
    simp only [hnone, shmStart_locked hl, acquire_free, except_ok_bind, hi,
      show ¬((MAXSHMPBLOCK : ℤ) < n) from not_lt.mpr hn, if_false, ha, release_held]
    rfl
  -- the new block's fields, read back from slot `i`
  all_goals simp [b]

/-- **A closed id cannot be opened again.**  Booted, the first process runs `shm_open(5, 1, 0)`
and `shm_close(5)`: no block is live any more, and some slot is free, yet `shm_open(5, 1, 0)`
by that process answers `-1` ("already open"), since slot 0 still carries id 5. -/
theorem shm_reopen_refused :
    ∃ k, Kernel.Reachable k ∧ k.live 0 = true ∧ (∀ i, (k.shm.blocks i).refCount = 0) ∧
      ∃ c, shmopen k.shmCtx (k.caller 0) 5 1 0 = .ok (c, -1) := by
  obtain ⟨k, hk, hf⟩ := exists_reachable_of_bootRun bootMem_ok
    [(0, .shmOpen 5 1 0), (0, .shmClose 5)]
    (f := fun k => (k.live 0, (List.finRange MAXSHM).all fun i => (k.shm.blocks i).refCount == 0,
      (k.shm.blocks 0).id, k.shmStart))
    (b := (true, true, 5, false)) (by decide)
  simp only [Prod.mk.injEq, List.all_eq_true, List.mem_finRange, beq_iff_eq, true_implies]
    at hf
  obtain ⟨hlive, hfree, hid, hstart⟩ := hf
  refine ⟨k, hk, hlive, hfree, _, shmopen_of_id (k.caller 0) (i := 0) ?_⟩
  -- the table is past its first `shmopen`, so `shminit` does not run again
  have hs : shmStart k.shmCtx = k.shmCtx := by
    unfold shmStart
    rw [if_neg (by simp [Kernel.shmCtx, hstart])]
  rw [hs]
  exact hid

/-! ### A negative page count -/

/-- `(uint)` of a negative `int`: `-k` becomes `2^32 - k`. -/
theorem toUint_neg {k : ℕ} (h0 : 0 < k) (hk : k ≤ UINT) : toUint (-k) = UINT - k := by
  unfold toUint
  have h : (-(k : ℤ)) % (UINT : ℤ) = ((UINT - k : ℕ) : ℤ) := by
    rw [Int.emod_eq_iff (by unfold UINT; omega)]
    refine ⟨by omega, by omega, ⟨1, by push_cast [Nat.cast_sub hk]; ring⟩⟩
  rw [h, Int.toNat_natCast]

/-- **The search's bound for a negative size.**  For `size = -k`, `amount_pages` is
`2^32 - k`, the product `amount_pages*PGSIZE` passes `2^32` and wraps to `2^32 - k*PGSIZE`, and
`KERNBASE - amount_pages*PGSIZE` wraps to `KERNBASE + k*PGSIZE`. -/
theorem shm_bound_of_neg {k : ℕ} (h0 : 0 < k) (hk : k < 2 ^ 19) :
    UINT ≤ toUint (-k) * PGSIZE ∧ wrap (toUint (-k) * PGSIZE) = UINT - k * PGSIZE ∧
      usub KERNBASE (wrap (toUint (-k) * PGSIZE)) = KERNBASE + k * PGSIZE := by
  rw [toUint_neg h0 (by unfold UINT; omega)]
  have hw : wrap ((UINT - k) * PGSIZE) = UINT - k * PGSIZE := by
    unfold wrap UINT PGSIZE
    omega
  refine ⟨by unfold UINT PGSIZE; omega, hw, ?_⟩
  rw [hw]
  unfold usub wrap UINT PGSIZE KERNBASE
  omega

/-- **A negative size reaches the search.**  Booted, the first process runs
`shm_open(5, -1, 0)`: slot 0 becomes a live block of size `-1`, and for it `shm_allocuvm`'s
product `amount_pages*PGSIZE` wraps and its bound is `KERNBASE + PGSIZE`. -/
theorem shm_negative_size_wraps :
    ∃ k, Kernel.Reachable k ∧ (k.shm.blocks 0).refCount = 1 ∧ (k.shm.blocks 0).size = -1 ∧
      UINT ≤ toUint (k.shm.blocks 0).size * PGSIZE ∧
      usub KERNBASE (wrap (toUint (k.shm.blocks 0).size * PGSIZE)) = KERNBASE + PGSIZE := by
  obtain ⟨k, hk, hf⟩ := exists_reachable_of_bootRun bootMem_ok [(0, .shmOpen 5 (-1) 0)]
    (f := fun k => ((k.shm.blocks 0).refCount, (k.shm.blocks 0).size)) (b := (1, -1)) (by decide)
  simp only [Prod.mk.injEq] at hf
  obtain ⟨hcount, hsize⟩ := hf
  obtain ⟨hprod, -, hbound⟩ := shm_bound_of_neg (k := 1) (by decide) (by decide)
  refine ⟨k, hk, hcount, hsize, ?_, ?_⟩
  · rw [hsize]
    exact_mod_cast hprod
  · rw [hsize]
    simpa using hbound

end Xv6Lab
