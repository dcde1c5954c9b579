import Xv6Lab.Kernel.SharedMemory
import Xv6Lab.Lib.Run

/-!
# What each shared-memory entry point does

One specification per entry point of `sharedm.c`, for a table whose lock is free (as it is
between system calls, `SharedMemoryInvariant`):

* `shmclose_ok` — a successful `shmclose(id)` leaves the lock free and rewrites every block by
  `closeBlock`: a block carrying `id` whose `owner` is the caller, or whose `members[]` lists the
  caller anywhere, loses one reference (`closeHit`); every other block is untouched;
* `shmclose_error` — with every block's `size` at most `MAXSHMPBLOCK`, `shmclose` stops only in
  `kfree`'s panic: none of its `pages[k]` or `members[j]` accesses is out of bounds;
* `shmopen_error` / `shmopen_ok_size` — `shmopen` stops exactly at its guard
  `page_count > MAXSHMPBLOCK`, when no block carries `id` and some block is free, and it only
  ever stores a `size` that passed the guard;
* `shmattach_ok` — a successful `shmattach(id)` leaves the lock free and changes only the first
  block carrying `id`, in its `members[]` and by one more reference.

Later proofs use these lemmas and never unfold the entry points.
-/

namespace Xv6Lab

open Scan Run

/-! ### `shmclose` -/

/-- The inner scan of `shmclose` finds the caller in block `b`: it is the owner, or `members[]`
lists it. -/
def closeHit (me : ShmCaller) (id : ℤ) (b : ShmBlock) : Bool :=
  b.id == id && (firstIdx PROCNUM fun j => me.pid == b.owner || me.pid == b.members j).isSome

/-- Block `b` after a `shmclose(id)` by `me`. -/
def closeBlock (me : ShmCaller) (id : ℤ) (b : ShmBlock) : ShmBlock :=
  if closeHit me id b then { b with refCount := b.refCount - 1 } else b

theorem closeHit_iff (me : ShmCaller) (id : ℤ) (b : ShmBlock) :
    closeHit me id b = true ↔ b.id = id ∧ (me.pid = b.owner ∨ ∃ j, b.members j = me.pid) := by
  unfold closeHit
  rw [Bool.and_eq_true, beq_iff_eq, Option.isSome_iff_ne_none, Ne, firstIdx_eq_none_iff]
  simp only [not_forall, Bool.or_eq_false_iff, beq_eq_false_iff_ne, not_and_or, not_not]
  refine and_congr Iff.rfl ⟨fun ⟨j, hj⟩ => hj.imp (fun h => h) fun h => ⟨j, h.symm⟩, ?_⟩
  rintro (h | ⟨j, hj⟩)
  · exact ⟨0, Or.inl h⟩
  · exact ⟨j, Or.inr hj.symm⟩

@[simp] theorem closeBlock_size (me : ShmCaller) (id : ℤ) (b : ShmBlock) :
    (closeBlock me id b).size = b.size := by
  unfold closeBlock
  split <;> rfl

theorem closeBlock_refCount (me : ShmCaller) (id : ℤ) (b : ShmBlock) :
    (closeBlock me id b).refCount = if closeHit me id b then b.refCount - 1 else b.refCount := by
  unfold closeBlock
  split <;> rfl

theorem shmcloseBlock_ok {me : ShmCaller} {id : ℤ} {c c' : ShmCtx} {i : Fin MAXSHM}
    (hl : c.table.locked = false) (h : shmcloseBlock me id c i = .ok c') :
    c'.table.locked = false ∧
      c'.table.blocks = Function.update c.table.blocks i (closeBlock me id (c.table.blocks i)) := by
  unfold shmcloseBlock at h
  by_cases hid : (c.table.blocks i).id = id
  · simp only [hid, if_true, hl, acquire_free, except_ok_bind] at h
    cases hf : firstIdx PROCNUM fun j =>
        me.pid == (c.table.blocks i).owner || me.pid == (c.table.blocks i).members j with
    | none =>
      -- the caller is not found: only the lock is taken and given back
      simp only [hf, release_held, except_ok_bind, Except.ok.injEq] at h
      subst h
      have hmiss : closeHit me id (c.table.blocks i) = false := by simp [closeHit, hf]
      exact ⟨rfl, by simp [closeBlock, hmiss]⟩
    | some j =>
      have hhit : closeHit me id (c.table.blocks i) = true := by simp [closeHit, hid, hf]
      rw [← hid] at hhit
      simp only [hf] at h
      -- with or without the pages freed, the table is the same
      split at h
      · obtain ⟨m, -, h⟩ := except_bind_eq_ok.mp h
        simp only [release_held, except_ok_bind, Except.ok.injEq] at h
        subst h
        exact ⟨rfl, by simp [ShmTable.set, closeBlock, hhit, ← hid]⟩
      · simp only [except_ok_bind, release_held, Except.ok.injEq] at h
        subst h
        exact ⟨rfl, by simp [ShmTable.set, closeBlock, hhit, ← hid]⟩
  · simp only [hid, if_false, Except.ok.injEq] at h
    subst h
    exact ⟨hl, by simp [closeBlock, closeHit, hid]⟩

/-- **`shmclose` rewrites each block by `closeBlock`.** -/
theorem shmclose_ok {me : ShmCaller} {id r : ℤ} {c c' : ShmCtx}
    (hl : c.table.locked = false) (h : shmclose c me id = .ok (c', r)) :
    c'.table.locked = false ∧ ∀ i, c'.table.blocks i = closeBlock me id (c.table.blocks i) := by
  unfold shmclose at h
  obtain ⟨c₁, hrun, hres⟩ := except_bind_eq_ok.mp h
  simp only [Except.ok.injEq, Prod.mk.injEq] at hres
  obtain ⟨rfl, -⟩ := hres
  obtain ⟨hl₁, hb⟩ := foldlM_except_proj (shmcloseBlock me id) (fun c => c.table.locked = false)
    (fun c => c.table.blocks) (fun t i => Function.update t i (closeBlock me id (t i)))
    (fun _ _ _ hs hstep => shmcloseBlock_ok hs hstep) _ c c₁ hl hrun
  refine ⟨hl₁, fun i => ?_⟩
  rw [hb, foldl_update_each (fun _ b => closeBlock me id b)]

/-- `freePages` of a block of at most `MAXSHMPBLOCK` pages only stops in `kfree`. -/
theorem freePages_error {b : ShmBlock} (hs : b.size ≤ MAXSHMPBLOCK) :
    ∀ (n k : ℕ) (m : Kmem) (e : Crash), freePages b n k m = .error e → e = .panic "kfree" := by
  intro n
  induction n with
  | zero => intro k m e h; cases h
  | succ n ih =>
    intro k m e h
    unfold freePages at h
    split at h
    · rename_i hk
      have hk4 : k < MAXSHMPBLOCK := by omega
      simp only [pageAt, hk4, dif_pos, except_ok_bind] at h
      rcases except_bind_eq_error.mp h with h | ⟨m', -, h⟩
      · unfold kfree at h
        split at h
        · cases h
          rfl
        · cases h
      · exact ih (k + 1) m' e h
    · cases h

theorem shmcloseBlock_error {me : ShmCaller} {id : ℤ} {c : ShmCtx} {i : Fin MAXSHM} {e : Crash}
    (hl : c.table.locked = false) (hs : (c.table.blocks i).size ≤ MAXSHMPBLOCK)
    (h : shmcloseBlock me id c i = .error e) : e = .panic "kfree" := by
  unfold shmcloseBlock at h
  by_cases hid : (c.table.blocks i).id = id
  · simp only [hid, if_true, hl, acquire_free, except_ok_bind] at h
    cases hf : firstIdx PROCNUM fun j =>
        me.pid == (c.table.blocks i).owner || me.pid == (c.table.blocks i).members j with
    | none =>
      simp only [hf, release_held, except_ok_bind] at h
      cases h
    | some j =>
      simp only [hf] at h
      split at h
      · rcases except_bind_eq_error.mp h with h | ⟨m, -, h⟩
        · exact freePages_error (by simpa using hs) _ _ _ _ h
        · simp only [release_held, except_ok_bind] at h
          cases h
      · simp only [except_ok_bind, release_held] at h
        cases h
  · simp only [hid, if_false] at h
    cases h

/-- **`shmclose` never indexes out of bounds**: with every block's size in range, its only way
to stop is `kfree`'s panic. -/
theorem shmclose_error {me : ShmCaller} {id : ℤ} {c : ShmCtx} {e : Crash}
    (hl : c.table.locked = false) (hs : ∀ i, (c.table.blocks i).size ≤ MAXSHMPBLOCK)
    (h : shmclose c me id = .error e) : e = .panic "kfree" := by
  unfold shmclose at h
  rcases except_bind_eq_error.mp h with h | ⟨c', -, h⟩
  · -- an iteration failed; every earlier one kept the lock free and the sizes
    have key : ∀ (l : List (Fin MAXSHM)) (c : ShmCtx), c.table.locked = false →
        (∀ i, (c.table.blocks i).size ≤ MAXSHMPBLOCK) →
        l.foldlM (shmcloseBlock me id) c = .error e → e = .panic "kfree" := by
      intro l
      induction l with
      | nil => intro c _ _ h; cases h
      | cons i l ih =>
        intro c hl hs h
        rw [List.foldlM_cons] at h
        rcases except_bind_eq_error.mp h with h | ⟨c₁, h₁, h⟩
        · exact shmcloseBlock_error hl (hs i) h
        · obtain ⟨hl₁, hb⟩ := shmcloseBlock_ok hl h₁
          refine ih c₁ hl₁ (fun j => ?_) h
          rw [hb]
          by_cases hj : j = i
          · subst hj
            simpa using hs j
          · simpa [hj] using hs j
    exact key _ c hl hs h
  · cases h

/-! ### `shmopen` -/

/-- `shmopen`'s guard message. -/
def shmopenPanic : String := "Number of pages is larger than available blocks!:D"

theorem shmStart_locked {c : ShmCtx} (hl : c.table.locked = false) :
    (shmStart c).table.locked = false := by
  unfold shmStart
  split
  · rfl
  · exact hl

theorem shmStart_size {c : ShmCtx} (hs : ∀ i, (c.table.blocks i).size ≤ MAXSHMPBLOCK) (i : Fin MAXSHM) :
    ((shmStart c).table.blocks i).size ≤ MAXSHMPBLOCK := by
  unfold shmStart
  split
  · simp [shminit]
  · exact hs i

/-- `pages[j] = kalloc()` for `j < page_count` stays inside `pages[]` once the guard passed. -/
theorem allocPages_ok {n : ℤ} (hn : n ≤ MAXSHMPBLOCK) :
    ∀ (k j : ℕ) (b : ShmBlock) (m : Kmem), ∃ b' m',
      allocPages n k j b m = .ok (b', m') ∧ b' = { b with pages := b'.pages } := by
  intro k
  induction k with
  | zero => intro j b m; exact ⟨b, m, rfl, rfl⟩
  | succ k ih =>
    intro j b m
    unfold allocPages
    split
    · rename_i hj
      have hj4 : j < MAXSHMPBLOCK := by omega
      obtain ⟨b', m', h, hb'⟩ := ih (j + 1)
        { b with pages := Function.update b.pages ⟨j, hj4⟩ (kalloc m).2 } (kalloc m).1
      refine ⟨b', m', ?_, ?_⟩
      · simp only [ShmBlock.setPage, hj4, dif_pos, except_ok_bind]
        exact h
      · rw [hb']
    · exact ⟨b, m, rfl, rfl⟩

/-- **`shmopen` stops exactly at its guard**: when no block carries `id`, some block is free and
`page_count > MAXSHMPBLOCK`, and then with the guard's panic. -/
theorem shmopen_error {c : ShmCtx} {me : ShmCaller} {id n flag : ℤ} {e : Crash}
    (hl : c.table.locked = false) :
    shmopen c me id n flag = .error e ↔
      e = .panic shmopenPanic ∧
        firstIdx MAXSHM (fun i => ((shmStart c).table.blocks i).id == id) = none ∧
        (∃ i, firstIdx MAXSHM (fun i => ((shmStart c).table.blocks i).refCount == 0) = some i) ∧
        (MAXSHMPBLOCK : ℤ) < n := by
  have hl₀ := shmStart_locked hl
  unfold shmopen
  dsimp only
  split
  · rename_i j hid
    simp [hid]
  · rename_i hid
    simp only [hid, hl₀, acquire_free, except_ok_bind, true_and]
    split
    · rename_i hfree
      simp [hfree]
    · rename_i i hfree
      simp only [hfree, Option.some.injEq, exists_eq', true_and]
      -- the guard reads `4 < n` once the cast of `MAXSHMPBLOCK` is evaluated
      by_cases hn : (4 : ℤ) < n
      · simp [hn, shmopenPanic, eq_comm]
      · obtain ⟨b', m', ha, -⟩ := allocPages_ok (not_lt.mp hn) MAXSHMPBLOCK 0
          ((shmStart c).table.blocks i) (shmStart c).kmem
        simp [hn, ha]

/-- **`shmopen` stores only sizes that passed its guard.** -/
theorem shmopen_ok_size {c c' : ShmCtx} {me : ShmCaller} {id n flag r : ℤ}
    (hl : c.table.locked = false) (hs : ∀ i, (c.table.blocks i).size ≤ MAXSHMPBLOCK)
    (h : shmopen c me id n flag = .ok (c', r)) :
    c'.table.locked = false ∧ ∀ i, (c'.table.blocks i).size ≤ MAXSHMPBLOCK := by
  have hl₀ := shmStart_locked hl
  have hs₀ := shmStart_size hs
  unfold shmopen at h
  cases hid : firstIdx MAXSHM fun i => ((shmStart c).table.blocks i).id == id with
  | some j =>
    simp only [hid, Except.ok.injEq, Prod.mk.injEq] at h
    rw [← h.1]
    exact ⟨hl₀, hs₀⟩
  | none =>
    simp only [hid, hl₀, acquire_free, except_ok_bind] at h
    cases hfree : firstIdx MAXSHM fun i => ((shmStart c).table.blocks i).refCount == 0 with
    | none =>
      simp only [hfree, release_held, except_ok_bind, Except.ok.injEq, Prod.mk.injEq] at h
      rw [← h.1]
      exact ⟨rfl, hs₀⟩
    | some i =>
      simp only [hfree] at h
      split at h
      · cases h
      · rename_i hn
        obtain ⟨b', m', ha, -⟩ := allocPages_ok (not_lt.mp hn) MAXSHMPBLOCK 0
          ((shmStart c).table.blocks i) (shmStart c).kmem
        simp only [ha, except_ok_bind, release_held, Except.ok.injEq, Prod.mk.injEq] at h
        rw [← h.1]
        refine ⟨rfl, fun j => ?_⟩
        by_cases hj : j = i
        · subst hj
          simp only [ShmTable.set_blocks_self]
          omega
        · simp only [ShmTable.set_blocks_ne _ _ hj]
          exact hs₀ j

/-! ### `shmattach` -/

/-- Giving back a lock that was found free restores the table. -/
theorem ShmTable.with_locked_eq {t : ShmTable} {l : Bool} (h : t.locked = l) :
    { t with locked := l } = t := by
  cases t
  cases h
  rfl

/-- **`shmMap` is `shm_allocuvm` under the lock**: on success the table is as it was and the
caller only gets a new directory. -/
theorem shmMap_ok {c c' : ShmCtx} {me me' : ShmCaller} {b : ShmBlock} {perm va : ℕ}
    (hl : c.table.locked = false) (h : shmMap c me b perm = .ok (c', me', va)) :
    c'.table = c.table ∧ me' = { me with pgdir := me'.pgdir } := by
  unfold shmMap at h
  simp only [hl, acquire_free, except_ok_bind] at h
  obtain ⟨⟨d, m, v⟩, -, h⟩ := except_bind_eq_ok.mp h
  split at h
  · simp only [release_held, except_ok_bind] at h
    cases h
  · simp only [release_held, except_ok_bind, Except.ok.injEq, Prod.mk.injEq] at h
    obtain ⟨rfl, rfl, -⟩ := h
    exact ⟨ShmTable.with_locked_eq hl, rfl⟩

/-- Every way through the permission check that returns is one of its `shmMap` calls. -/
theorem shmattachMap_shmMap {c : ShmCtx} {me : ShmCaller} {b : ShmBlock}
    {r : ShmCtx × ShmCaller × ℕ} (h : shmattachMap c me b = .ok r) :
    ∃ perm, shmMap c me b perm = .ok r := by
  unfold shmattachMap at h
  split at h
  · split at h <;> exact ⟨_, h⟩
  · split at h
    · exact ⟨_, h⟩
    · split at h
      · cases h
      · split at h
        · exact ⟨_, h⟩
        · obtain ⟨u, -, h⟩ := except_bind_eq_ok.mp h
          cases h

theorem shmattachMap_ok {c c' : ShmCtx} {me me' : ShmCaller} {b : ShmBlock} {va : ℕ}
    (hl : c.table.locked = false) (h : shmattachMap c me b = .ok (c', me', va)) :
    c'.table = c.table ∧ me' = { me with pgdir := me'.pgdir } := by
  obtain ⟨perm, hmap⟩ := shmattachMap_shmMap h
  exact shmMap_ok hl hmap

/-- **A caller that is neither the owner nor its child is refused by a crash**: the denied path
releases the free lock, so it panics in `release` before it can print "Access denied!!". -/
theorem shmattachMap_denied {c : ShmCtx} {me : ShmCaller} {b : ShmBlock} {ppid : ℤ}
    (hl : c.table.locked = false) (hf : b.flags ≠ 0) (ho : me.pid ≠ b.owner)
    (hp : me.parentPid = some ppid) (hpo : ppid ≠ b.owner) :
    shmattachMap c me b = .error (.panic "release") := by
  simp [shmattachMap, hf, ho, hp, hpo, hl]

theorem shmattach_error_of_map {c : ShmCtx} {me : ShmCaller} {id : ℤ} {i : Fin MAXSHM}
    {e : Crash} (hi : firstIdx MAXSHM (fun i => (c.table.blocks i).id == id) = some i)
    (h : shmattachMap c me (c.table.blocks i) = .error e) : shmattach c me id = .error e := by
  unfold shmattach
  simp only [hi, h, except_error_bind]

/-- **`shmattach` changes only the first block carrying `id`**, in `members[]` and by one more
reference. -/
theorem shmattach_ok {c c' : ShmCtx} {me me' : ShmCaller} {id : ℤ} {va : ℕ}
    (hl : c.table.locked = false) (h : shmattach c me id = .ok (c', me', va)) :
    c'.table.locked = false ∧
      ((firstIdx MAXSHM fun i => (c.table.blocks i).id == id) = none →
        c'.table.blocks = c.table.blocks) ∧
      ∀ i, (firstIdx MAXSHM fun i => (c.table.blocks i).id == id) = some i →
        ∃ mem, c'.table.blocks = Function.update c.table.blocks i
          { c.table.blocks i with members := mem, refCount := (c.table.blocks i).refCount + 1 } := by
  unfold shmattach at h
  split at h
  · rename_i hid
    simp only [Except.ok.injEq, Prod.mk.injEq] at h
    rw [← h.1]
    exact ⟨hl, fun _ => rfl, fun i h' => by rw [hid] at h'; cases h'⟩
  · rename_i i hid
    obtain ⟨⟨c₁, me₁, va₁⟩, hmap, h⟩ := except_bind_eq_ok.mp h
    have ht₁ := (shmattachMap_ok hl hmap).1
    simp only [ht₁, hl, acquire_free, except_ok_bind] at h
    obtain ⟨b₁, hset, h⟩ := except_bind_eq_ok.mp h
    simp only [release_held, except_ok_bind, Except.ok.injEq, Prod.mk.injEq] at h
    rw [← h.1]
    refine ⟨rfl, fun h' => (by rw [hid] at h'; cases h'), fun j hj => ?_⟩
    obtain rfl : i = j := Option.some.inj (hid.symm.trans hj)
    -- `members[ref_count-1] = pid` is the only write besides the count
    unfold ShmBlock.setMember at hset
    split at hset
    · cases hset
      exact ⟨_, rfl⟩
    · cases hset

/-- `shmattach` gives the caller a new directory and changes nothing else about it. -/
theorem shmattach_caller {c c' : ShmCtx} {me me' : ShmCaller} {id : ℤ} {va : ℕ}
    (hl : c.table.locked = false) (h : shmattach c me id = .ok (c', me', va)) :
    me' = { me with pgdir := me'.pgdir } := by
  unfold shmattach at h
  split at h
  · cases h
    rfl
  · obtain ⟨⟨c₁, me₁, va₁⟩, hmap, h⟩ := except_bind_eq_ok.mp h
    obtain ⟨ht₁, hme₁⟩ := shmattachMap_ok hl hmap
    simp only [ht₁, hl, acquire_free, except_ok_bind] at h
    obtain ⟨b₁, -, h⟩ := except_bind_eq_ok.mp h
    simp only [release_held, except_ok_bind, Except.ok.injEq, Prod.mk.injEq] at h
    rw [← h.2.1]
    exact hme₁

end Xv6Lab
