import Xv6Lab.Kernel.SharedMemorySpec

/-!
# Where `shm_allocuvm` places a block, and when it cannot

`shm_allocuvm` searches the candidate starts `PGROUNDUP(sz), PGROUNDUP(sz) + PGSIZE, ...` up to
`KERNBASE - amount*PGSIZE`, testing each page with `walkpgdir(pgdir, va, 0)` and reading
`*pte` at once.  Two outcomes the search's callers do not expect:

* no candidate at all: the search loop never runs and the result is `-1`, which `shmattach`
  compares with `0` only, so it records the caller as a member, counts one more reference and
  returns `(char*)-1` (`shmattach_of_no_room`);
* a candidate page whose page table is absent: `walkpgdir` returns `0` and `*pte` reads through
  it (`shmattach_of_absent_table`).

* `shmAllocuvm_of_no_room`, `shmAllocuvm_of_absent_table` — the two outcomes of the search;
* `shmattach_places_badly` — both at `shmattach` for a live block of two pages.
-/

namespace Xv6Lab

open Scan Run

/-- The search's bound `KERNBASE - amount*PGSIZE`, as the `uint` arithmetic gives it. -/
theorem shm_bound_eq {n : ℕ} (hn : n ≤ MAXSHMPBLOCK) :
    usub KERNBASE (wrap (n * PGSIZE)) = KERNBASE - n * PGSIZE := by
  have hn4 : n ≤ 4 := hn
  have h : n * PGSIZE < UINT := by unfold PGSIZE UINT; omega
  rw [wrap_of_lt h, usub_of_le (by unfold PGSIZE KERNBASE; omega) (by decide)]

/-- **No room below `KERNBASE`**: with `PGROUNDUP(sz)` past the last candidate the loop never
runs, and `shm_allocuvm` returns `-1` (the word `2^32 - 1`) with nothing mapped. -/
theorem shmAllocuvm_of_no_room (d : PageDir) (m : Kmem) {sz : ℕ}
    (pages : Fin MAXSHMPBLOCK → ℕ) {n : ℕ} (perm : ℕ) (hn : n ≤ MAXSHMPBLOCK)
    (hroom : KERNBASE - n * PGSIZE < pgroundup sz) :
    shmAllocuvm d m sz pages n perm = .ok (d, m, UINT - 1) := by
  unfold shmAllocuvm
  rw [shm_bound_eq hn]
  -- the search stops before its first candidate
  have hs : shmSearch d n (KERNBASE - n * PGSIZE) ((KERNBASE - n * PGSIZE) / PGSIZE + 2)
      (pgroundup sz) = .ok (pgroundup sz) := by
    rw [shmSearch, if_neg (by omega)]
  simp only [hs, except_ok_bind, if_pos hroom]

/-- **A candidate without a page table**: the first candidate's page table is absent, so
`walkpgdir` returns `0` and the test `*pte & PTE_P` reads through it. -/
theorem shmAllocuvm_of_absent_table {d : PageDir} (m : Kmem) {sz : ℕ}
    (pages : Fin MAXSHMPBLOCK → ℕ) {n : ℕ} (perm : ℕ) (hn1 : 1 ≤ n) (hn : n ≤ MAXSHMPBLOCK)
    (hsz : sz ≤ KERNBASE) (hroom : pgroundup sz ≤ KERNBASE - n * PGSIZE)
    (hpde : d.pde (PDX (pgroundup sz)) = none) :
    shmAllocuvm d m sz pages n perm = .error (.nullDeref "pte") := by
  have hlt : pgroundup sz < UINT := (pgroundup_le_kernbase hsz).trans_lt (by decide)
  obtain ⟨k, rfl⟩ : ∃ k, n = k + 1 := ⟨n - 1, by omega⟩
  -- the scan's first page is the candidate itself
  have hscan : shmScan d (pgroundup sz) (k + 1) 0 = .error (.nullDeref "pte") := by
    simp only [shmScan, Nat.zero_mul, show wrap 0 = 0 from rfl, Nat.add_zero, wrap_of_lt hlt,
      walkpgdir, hpde, Option.map_none]
  have hsearch : shmSearch d (k + 1) (KERNBASE - (k + 1) * PGSIZE)
      ((KERNBASE - (k + 1) * PGSIZE) / PGSIZE + 2) (pgroundup sz) =
        .error (.nullDeref "pte") := by
    rw [shmSearch, if_pos hroom]
    simp only [hscan, except_error_bind]
  unfold shmAllocuvm
  rw [shm_bound_eq hn]
  simp only [hsearch, except_error_bind]

/-- **`shmattach` with no room**: for a block the caller owns with `flags == 0`, the `-1` of
`shm_allocuvm` passes the test `== 0`; the caller is recorded, the count goes up by one, and
`(char*)-1` is returned. -/
theorem shmattach_of_no_room {c : ShmCtx} {me : ShmCaller} {id : ℤ} {i : Fin MAXSHM}
    (hl : c.table.locked = false)
    (hi : firstIdx MAXSHM (fun i => (c.table.blocks i).id == id) = some i)
    (hflags : (c.table.blocks i).flags = 0) (howner : me.pid = (c.table.blocks i).owner)
    (hsize : 0 ≤ (c.table.blocks i).size ∧ (c.table.blocks i).size ≤ MAXSHMPBLOCK)
    (href : 1 ≤ (c.table.blocks i).refCount ∧ (c.table.blocks i).refCount ≤ PROCNUM)
    (hroom : KERNBASE - toUint (c.table.blocks i).size * PGSIZE < pgroundup me.sz) :
    ∃ c', shmattach c me id = .ok (c', me, UINT - 1) ∧ c'.table.locked = false ∧
      (c'.table.blocks i).refCount = (c.table.blocks i).refCount + 1 := by
  have h4 : (c.table.blocks i).size ≤ 4 := hsize.2
  have hn : toUint (c.table.blocks i).size ≤ MAXSHMPBLOCK := by
    unfold toUint UINT
    omega
  have hmap : shmMap c me (c.table.blocks i) (PTE_W + PTE_U) =
      .ok ({ c with table := { c.table with locked := false } }, { me with pgdir := me.pgdir },
        UINT - 1) := by
    unfold shmMap
    simp only [hl, acquire_free, except_ok_bind,
      shmAllocuvm_of_no_room me.pgdir c.kmem _ _ hn hroom, show UINT - 1 ≠ 0 by decide,
      if_false, release_held]
  have h64 : (c.table.blocks i).refCount ≤ 64 := href.2
  let j : Fin PROCNUM := ⟨((c.table.blocks i).refCount - 1).toNat, by omega⟩
  have hset : (c.table.blocks i).setMember ((c.table.blocks i).refCount - 1) me.pid =
      .ok { c.table.blocks i with members := Function.update (c.table.blocks i).members j me.pid } := by
    unfold ShmBlock.setMember
    rw [dif_pos (by omega)]
  let b : ShmBlock := { c.table.blocks i with
    members := Function.update (c.table.blocks i).members j me.pid,
    refCount := (c.table.blocks i).refCount + 1 }
  refine ⟨{ c with table := { c.table.set i b with locked := false } }, ?_, rfl, by simp [b]⟩
  unfold shmattach
  simp only [hi, shmattachMap, if_pos hflags, if_pos howner, hmap, except_ok_bind,
    acquire_free, hset, release_held]
  rfl

/-- **`shmattach` over an absent page table**: the search crashes on its first candidate. -/
theorem shmattach_of_absent_table {c : ShmCtx} {me : ShmCaller} {id : ℤ} {i : Fin MAXSHM}
    (hl : c.table.locked = false)
    (hi : firstIdx MAXSHM (fun i => (c.table.blocks i).id == id) = some i)
    (hflags : (c.table.blocks i).flags = 0) (howner : me.pid = (c.table.blocks i).owner)
    (hsize : 1 ≤ (c.table.blocks i).size ∧ (c.table.blocks i).size ≤ MAXSHMPBLOCK)
    (hsz : me.sz ≤ KERNBASE)
    (hroom : pgroundup me.sz ≤ KERNBASE - toUint (c.table.blocks i).size * PGSIZE)
    (hpde : me.pgdir.pde (PDX (pgroundup me.sz)) = none) :
    shmattach c me id = .error (.nullDeref "pte") := by
  have h4 : (c.table.blocks i).size ≤ 4 := hsize.2
  have hn1 : 1 ≤ toUint (c.table.blocks i).size := by
    unfold toUint UINT
    omega
  have hn : toUint (c.table.blocks i).size ≤ MAXSHMPBLOCK := by
    unfold toUint UINT
    omega
  apply shmattach_error_of_map hi
  simp only [shmattachMap, hflags, howner, if_true, shmMap, hl, acquire_free, except_ok_bind,
    shmAllocuvm_of_absent_table c.kmem _ _ hn1 hn hsz hroom hpde, except_error_bind]

/-! ### A block of two pages -/

/-- Slot 0 holds a live block: id 5, owned by pid 1, `flags == 0`, one reference, two pages. -/
def twoPageBlock : ShmCtx :=
  ⟨⟨false, fun i => if i = 0 then ⟨5, 1, 0, 1, 2, fun _ => 0, fun _ => 0⟩ else ShmBlock.zero⟩,
    false, ⟨[], 0, []⟩⟩

/-- Pid 1 with one page below `KERNBASE` left, every page table present and no page mapped. -/
def highCaller : ShmCaller := ⟨1, none, ⟨0, fun _ => some 0, fun _ => none⟩, KERNBASE - PGSIZE⟩

/-- Pid 1 with `sz = 4 MB` and only the first page table. -/
def tablelessCaller : ShmCaller :=
  ⟨1, none, ⟨0, fun i => if i = 0 then some 0 else none, fun _ => none⟩, 0x400000⟩

/-- **`shmattach` does not place a block as it should.**  For a live block of two pages:
called with one page left below `KERNBASE`, `shmattach(5)` returns `(char*)-1`, not `0`, and
counts one more reference; called at `sz = 4 MB` with no page table there, it reads through the
null result of `walkpgdir`. -/
theorem shmattach_places_badly :
    (∃ c', shmattach twoPageBlock highCaller 5 = .ok (c', highCaller, UINT - 1) ∧
      (c'.table.blocks 0).refCount = 2) ∧
    shmattach twoPageBlock tablelessCaller 5 = .error (.nullDeref "pte") := by
  have hi : firstIdx MAXSHM (fun i => (twoPageBlock.table.blocks i).id == 5) = some 0 := by
    decide
  refine ⟨?_, shmattach_of_absent_table rfl hi rfl rfl (by decide) (by decide +kernel)
    (by decide +kernel) (by decide +kernel)⟩
  obtain ⟨c', h, -, hc⟩ := @shmattach_of_no_room twoPageBlock highCaller 5 0 rfl hi rfl rfl
    (by decide) (by decide) (by decide +kernel)
  exact ⟨c', h, hc⟩

end Xv6Lab
