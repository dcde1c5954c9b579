import Xv6Lab.Kernel.Basic

/-!
# The physical page allocator (`kalloc.c`)

`kmem.freelist` is a LIFO list of free 4096-byte pages, named by their kernel virtual addresses.
`kalloc` pops the head (or returns `0` when the list is empty); `kfree` checks the address as the
source does — page aligned, above the kernel image's `end`, below `PHYSTOP` — and pushes it.

The model adds one ghost field, `kfreed`: every address ever handed to `kfree`, latest first.
Statements about pages being freed once, or never while still in use, are statements about this
log; the allocator itself never reads it.  Page contents (`memset`'s junk) are not modelled.
-/

namespace Xv6Lab

/-- The allocator's state. -/
structure Kmem where
  /-- `kmem.freelist`, head first. -/
  freelist : List ℕ
  /-- The linker symbol `end`: the first address after the kernel image. -/
  kend : ℕ
  /-- Ghost: every page passed to `kfree`, latest first. -/
  kfreed : List ℕ

/-- `kalloc()`: the head of the free list, or `0` when memory is exhausted. -/
def kalloc (m : Kmem) : Kmem × ℕ :=
  match m.freelist with
  | [] => (m, 0)
  | r :: rs => ({ m with freelist := rs }, r)

/-- `kfree(v)`: panics on an address that is not a page the allocator can own. -/
def kfree (v : ℕ) (m : Kmem) : Except Crash Kmem :=
  if v % PGSIZE ≠ 0 ∨ v < m.kend ∨ PHYSTOP ≤ V2P v then .error (.panic "kfree")
  else .ok { m with freelist := v :: m.freelist, kfreed := v :: m.kfreed }

@[simp] theorem kalloc_kfreed (m : Kmem) : (kalloc m).1.kfreed = m.kfreed := by
  unfold kalloc
  split <;> rfl

@[simp] theorem kalloc_kend (m : Kmem) : (kalloc m).1.kend = m.kend := by
  unfold kalloc
  split <;> rfl

theorem kalloc_zero_iff (m : Kmem) : (kalloc m).2 = 0 ↔ m.freelist = [] ∨ m.freelist.head? = some 0 := by
  unfold kalloc
  split <;> simp_all

theorem kfree_ok {v : ℕ} {m m' : Kmem} (h : kfree v m = .ok m') :
    m'.kfreed = v :: m.kfreed ∧ m'.freelist = v :: m.freelist ∧ m'.kend = m.kend := by
  unfold kfree at h
  split at h
  · cases h
  · cases h
    exact ⟨rfl, rfl, rfl⟩

/-- `kfree` of the null page always panics: `0` is below the kernel image. -/
theorem kfree_zero (m : Kmem) (hend : 0 < m.kend) : kfree 0 m = .error (.panic "kfree") := by
  unfold kfree
  rw [if_pos (Or.inr (Or.inl hend))]

end Xv6Lab
