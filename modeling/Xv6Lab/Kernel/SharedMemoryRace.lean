import Xv6Lab.Kernel.SharedMemoryInvariant

/-!
# Concurrent `shmopen`: the unlocked scan

`shmopen` looks for a block carrying `id` before it takes `shmtable.shmlock`, and allocates a
free block under the lock afterwards.  `shmopenScan` and `shmopenAlloc` are the two halves;
`shmopen_eq_scan_alloc` says that back to back they are `shmopen`.

* `IdsUnique` — two blocks carrying the same nonzero id are one block.  Every call of the atomic
  kernel keeps it (`idsUnique_step`), so it holds at every reachable `Kernel` state
  (`shm_ids_unique`): with the scan inside the call, a block is given an id only when no block
  carries it.  (Id `0` is every block's id before its first use.)
* `ShmRace` — the kernel with `shmopen` cut at its `acquire`: a process whose scan found nothing
  keeps its arguments in `opening` until its allocation step, and the other processes take steps
  in between.  Every run of the atomic kernel is one of its runs (`ShmRace.reachable_of_kernel`),
  and a scan followed at once by its allocation is the atomic call (`ShmRace.scan_alloc`).
* `shm_open_race_duplicates` — booted, `fork`; both processes scan for id `5` before either
  allocates, and two live blocks carry `5`.
-/

namespace Xv6Lab

open Scan Run

/-! ### `shmopen` in two halves -/

/-- The part of `shmopen` before `acquire`: the `start` test, and the scan for a block carrying
`id`, which reads the table without the lock. -/
def shmopenScan (c : ShmCtx) (id : ℤ) : ShmCtx × Option (Fin MAXSHM) :=
  let c := shmStart c
  (c, firstIdx MAXSHM fun i => (c.table.blocks i).id == id)

/-- The part of `shmopen` from `acquire` on, entered when the scan found no block carrying `id`:
the first free block gets `page_count` pages and the caller's `id`, pid and `flag`. -/
def shmopenAlloc (c : ShmCtx) (me : ShmCaller) (id pageCount flag : ℤ) :
    Except Crash (ShmCtx × ℤ) := do
  let locked ← acquire c.table.locked
  match firstIdx MAXSHM fun i => (c.table.blocks i).refCount == 0 with
  | none =>
    let locked ← release locked
    .ok ({ c with table := { c.table with locked := locked } }, -3)
  | some i =>
    if (MAXSHMPBLOCK : ℤ) < pageCount then
      .error (.panic "Number of pages is larger than available blocks!:D")
    let (b, m) ← allocPages pageCount MAXSHMPBLOCK 0 (c.table.blocks i) c.kmem
    let b := { b with id := id, owner := me.pid, flags := flag, refCount := 1, size := pageCount }
    let locked ← release locked
    .ok ({ c with table := { (c.table.set i b) with locked := locked }, kmem := m }, 0)

/-- Back to back, the two halves are `shmopen`. -/
theorem shmopen_eq_scan_alloc (c : ShmCtx) (me : ShmCaller) (id n flag : ℤ) :
    shmopen c me id n flag =
      match shmopenScan c id with
      | (c, some _) => .ok (c, -1)
      | (c, none) => shmopenAlloc c me id n flag := by
  unfold shmopen shmopenScan shmopenAlloc
  dsimp only
  cases firstIdx MAXSHM fun i => ((shmStart c).table.blocks i).id == id <;> rfl

theorem shmStart_id (c : ShmCtx) (j : Fin MAXSHM) :
    ((shmStart c).table.blocks j).id = (c.table.blocks j).id := by
  unfold shmStart
  split <;> rfl

@[simp] theorem closeBlock_id (me : ShmCaller) (id : ℤ) (b : ShmBlock) :
    (closeBlock me id b).id = b.id := by
  unfold closeBlock
  split <;> rfl

/-- **`shmopenAlloc` gives at most one block an id**, the caller's. -/
theorem shmopenAlloc_ids {c c' : ShmCtx} {me : ShmCaller} {id n flag r : ℤ}
    (hl : c.table.locked = false) (h : shmopenAlloc c me id n flag = .ok (c', r)) :
    (∀ j, (c'.table.blocks j).id = (c.table.blocks j).id) ∨
      ∃ i, ∀ j, (c'.table.blocks j).id = if j = i then id else (c.table.blocks j).id := by
  unfold shmopenAlloc at h
  simp only [hl, acquire_free, except_ok_bind] at h
  cases hfree : firstIdx MAXSHM fun i => (c.table.blocks i).refCount == 0 with
  | none =>
    simp only [hfree, release_held, except_ok_bind, Except.ok.injEq, Prod.mk.injEq] at h
    rw [← h.1]
    exact .inl fun _ => rfl
  | some i =>
    simp only [hfree] at h
    split at h
    · cases h
    · rename_i hn
      obtain ⟨b', m', ha, -⟩ := allocPages_ok (not_lt.mp hn) MAXSHMPBLOCK 0
        (c.table.blocks i) c.kmem
      simp only [ha, except_ok_bind, release_held, Except.ok.injEq, Prod.mk.injEq] at h
      rw [← h.1]
      refine .inr ⟨i, fun j => ?_⟩
      by_cases hj : j = i
      · subst hj
        simp
      · simp [hj]

/-- `shmattach` changes no block's id. -/
theorem shmattach_id {c c' : ShmCtx} {me me' : ShmCaller} {id : ℤ} {va : ℕ}
    (hl : c.table.locked = false) (h : shmattach c me id = .ok (c', me', va)) (j : Fin MAXSHM) :
    (c'.table.blocks j).id = (c.table.blocks j).id := by
  obtain ⟨-, hnone, hsome⟩ := shmattach_ok hl h
  cases hf : firstIdx MAXSHM fun i => (c.table.blocks i).id == id with
  | none => rw [hnone hf]
  | some i =>
    obtain ⟨mem, hb⟩ := hsome i hf
    rw [hb]
    by_cases hj : j = i
    · subst hj
      simp
    · simp [hj]

/-! ### Unique ids under the atomic `shmopen` -/

/-- Two blocks carrying the same nonzero id are one block. -/
def IdsUnique (t : ShmTable) : Prop :=
  ∀ i j, (t.blocks i).id = (t.blocks j).id → (t.blocks i).id ≠ 0 → i = j

theorem IdsUnique.of_ids_eq {t t' : ShmTable} (h : ∀ j, (t'.blocks j).id = (t.blocks j).id)
    (ht : IdsUnique t) : IdsUnique t' := by
  intro a b hab h0
  rw [h, h] at hab
  rw [h] at h0
  exact ht a b hab h0

/-- Giving one block an id that no block carries keeps the ids unique. -/
theorem IdsUnique.of_fresh {t t' : ShmTable} {id : ℤ} {i : Fin MAXSHM}
    (hfresh : ∀ j, (t.blocks j).id ≠ id)
    (h : ∀ j, (t'.blocks j).id = if j = i then id else (t.blocks j).id) (ht : IdsUnique t) :
    IdsUnique t' := by
  intro a b hab h0
  rw [h, h] at hab
  rw [h] at h0
  by_cases ha : a = i <;> by_cases hb : b = i
  · rw [ha, hb]
  · rw [if_pos ha, if_neg hb] at hab
    exact absurd hab.symm (hfresh b)
  · rw [if_neg ha, if_pos hb] at hab
    exact absurd hab (hfresh a)
  · rw [if_neg ha, if_neg hb] at hab
    rw [if_neg ha] at h0
    exact ht a b hab h0

/-- The atomic `shmopen` keeps the ids unique: it allocates only after a scan found no block
carrying the id, on the same table. -/
theorem IdsUnique.shmopen {c c' : ShmCtx} {me : ShmCaller} {id n f r : ℤ}
    (hl : c.table.locked = false) (h : shmopen c me id n f = .ok (c', r))
    (hu : IdsUnique c.table) : IdsUnique c'.table := by
  have hu₀ : IdsUnique (shmStart c).table := hu.of_ids_eq (shmStart_id c)
  rw [shmopen_eq_scan_alloc] at h
  cases hid : firstIdx MAXSHM fun i => ((shmStart c).table.blocks i).id == id with
  | some j =>
    simp only [shmopenScan, hid, Except.ok.injEq, Prod.mk.injEq] at h
    rw [← h.1]
    exact hu₀
  | none =>
    simp only [shmopenScan, hid] at h
    have hfresh : ∀ j, ((shmStart c).table.blocks j).id ≠ id := by
      intro j hj
      simpa [hj] using (firstIdx_eq_none_iff _).mp hid j
    rcases shmopenAlloc_ids (shmStart_locked hl) h with hsame | ⟨i, hi⟩
    · exact hu₀.of_ids_eq hsame
    · exact hu₀.of_fresh hfresh hi

/-- **Every call of the atomic kernel keeps the ids unique.** -/
theorem idsUnique_step {k k' : Kernel} {l : Fin NPROC × Syscall} (hk : ShmInv k.shm)
    (hu : IdsUnique k.shm) (h : k.step l = some k') : IdsUnique k'.shm := by
  obtain ⟨p, c⟩ := l
  rw [Kernel.step_eq_some] at h
  cases c with
  | shmInit =>
    rw [Kernel.sysStep_shmInit_ok h]
    exact hu.of_ids_eq fun _ => rfl
  | shmOpen id n f =>
    obtain ⟨c, r, ho, rfl⟩ := Kernel.sysStep_shmOpen_ok h
    exact hu.shmopen hk.unlocked ho
  | shmAttach id =>
    obtain ⟨c, me, va, ha, rfl⟩ := Kernel.sysStep_shmAttach_ok h
    exact hu.of_ids_eq (shmattach_id hk.unlocked ha)
  | shmClose id =>
    obtain ⟨c, r, hc, rfl⟩ := Kernel.sysStep_shmClose_ok h
    refine hu.of_ids_eq fun j => ?_
    rw [Kernel.withShm_shm, (shmclose_ok hk.unlocked hc).2 j, closeBlock_id]
    rfl
  | fork | exit | wait | sbrk _ | kill _ =>
    rw [(Kernel.sysStep_shm_of_proc rfl h).1]
    exact hu

/-- **Atomic `shmopen` keeps ids unique**: at every reachable state of the kernel whose
`shmopen` runs as one step, two blocks carrying the same nonzero id are one block. -/
theorem shm_ids_unique {k : Kernel} (hk : k.Reachable) : IdsUnique k.shm := by
  have h := Reachable.induction (fun k => ShmInv k.shm ∧ IdsUnique k.shm)
    (fun k hb => ⟨shmInv_boot hb, ?_⟩)
    (fun _ _ _ hs hstep => ⟨shmInv_step hs.1 hstep, idsUnique_step hs.1 hs.2 hstep⟩) hk
  · exact h.2
  · -- at boot every block carries id `0`
    obtain ⟨m, -, hu⟩ := hb
    intro i j _ h0
    rw [(userinit_shm hu).1] at h0
    exact absurd rfl h0

/-! ### The kernel with `shmopen` cut in two -/

/-- A step of a process: a whole system call, or one half of a `shmopen`. -/
inductive RaceOp where
  | call (c : Syscall)
  /-- `shmopen`'s part before `acquire` -/
  | scan (id count flag : ℤ)
  /-- `shmopen`'s part from `acquire` on -/
  | alloc
  deriving DecidableEq, Repr

/-- The kernel with the `shmopen` calls that are between their two halves. -/
structure ShmRace where
  k : Kernel
  /-- The arguments of the `shmopen` a process has scanned for and not yet finished. -/
  opening : Fin NPROC → Option (ℤ × ℤ × ℤ)

namespace ShmRace

/-- One step of process `p`; a process inside `shmopen` takes only its allocation step. -/
def step (s : ShmRace) : Fin NPROC × RaceOp → Option ShmRace
  | (p, .call c) => if s.opening p = none then (s.k.step (p, c)).map fun k => ⟨k, s.opening⟩
    else none
  | (p, .scan id n f) =>
    if s.k.live p = true ∧ s.opening p = none then
      match shmopenScan s.k.shmCtx id with
      -- a block carries `id`: the call returns `-1`
      | (c, some _) => some ⟨s.k.withShm c, s.opening⟩
      | (c, none) => some ⟨s.k.withShm c, Function.update s.opening p (some (id, n, f))⟩
    else none
  | (p, .alloc) =>
    match s.opening p with
    | none => none
    | some (id, n, f) =>
      match shmopenAlloc s.k.shmCtx (s.k.caller p) id n f with
      | .ok (c, _) => some ⟨s.k.withShm c, Function.update s.opening p none⟩
      | .error _ => none

/-- Booted, with no `shmopen` under way. -/
def init (s : ShmRace) : Prop := Boot s.k ∧ s.opening = fun _ => none

/-- A reachable state of the kernel with `shmopen` cut in two. -/
def Reachable : ShmRace → Prop := Run.Reachable step init

/-- **The atomic kernel embeds**: its every run is a run here with no `shmopen` under way. -/
theorem reachable_of_kernel {k : Kernel} (hk : k.Reachable) : Reachable ⟨k, fun _ => none⟩ := by
  have hmap : ∀ (k : Kernel) (l : Fin NPROC × Syscall) (k' : Kernel), k.step l = some k' →
      step ⟨k, fun _ => none⟩ (l.1, .call l.2) = some ⟨k', fun _ => none⟩ := by
    intro k l k' h
    simp [step, h]
  exact Run.Reachable.map (fun k => (⟨k, fun _ => none⟩ : ShmRace))
    (fun l => (l.1, RaceOp.call l.2)) (fun _ hb => ⟨hb, rfl⟩) hmap hk

@[simp] theorem withShm_shmCtx (k : Kernel) (c : ShmCtx) : (k.withShm c).shmCtx = c := rfl

@[simp] theorem withShm_caller (k : Kernel) (c : ShmCtx) (p : Fin NPROC) :
    (k.withShm c).caller p = k.caller p := rfl

@[simp] theorem withShm_withShm (k : Kernel) (c c' : ShmCtx) :
    (k.withShm c).withShm c' = k.withShm c' := rfl

/-- **A scan followed at once by its allocation is the atomic call**: whatever the scan finds, the
state after `shmopen`'s halves is the state after the whole `shm_open`. -/
theorem scan_alloc {s : ShmRace} {p : Fin NPROC} {id n f : ℤ} (hp : s.opening p = none) :
    s.step (p, .call (.shmOpen id n f)) =
      (s.step (p, .scan id n f)).bind fun t =>
        if t.opening p = none then some t else t.step (p, .alloc) := by
  simp only [step, hp, if_true, Kernel.step, Kernel.sysStep, and_true]
  by_cases hl : s.k.live p = true
  · simp only [hl, if_true, shmopen_eq_scan_alloc]
    cases hs : shmopenScan s.k.shmCtx id with
    | mk c hit =>
      cases hit with
      | some i =>
        simp only [Option.bind_some, hp, if_true]
        rfl
      | none =>
        simp only [Option.bind_some, Function.update_self, reduceCtorEq, if_false,
          withShm_shmCtx, withShm_caller, Function.update_idem]
        cases shmopenAlloc c (s.k.caller p) id n f with
        | error e => rfl
        | ok r =>
          -- the allocation clears the entry of `opening` the scan made, which was empty before
          rw [Function.update_eq_self_iff.mpr hp.symm]
          rfl
  · rw [if_neg hl, if_neg hl]
    rfl

/-- The run of `ls` from the state `userinit` boots into on the free list `m`. -/
def bootRun (m : Kmem) (ls : List (Fin NPROC × RaceOp)) : Option ShmRace :=
  (userinit m).toOption.bind fun k => Run.exec step ⟨k, fun _ => none⟩ ls

/-- An observation of a run from boot is an observation of a reachable state. -/
theorem exists_reachable_of_bootRun {β : Type*} {m : Kmem} (hm : FreeListOk m)
    (ls : List (Fin NPROC × RaceOp)) {f : ShmRace → β} {b : β}
    (h : (bootRun m ls).map f = some b) : ∃ s, Reachable s ∧ f s = b := by
  unfold bootRun at h
  cases hk : userinit m with
  | error e => rw [hk] at h; cases h
  | ok k =>
    rw [hk] at h
    exact Run.exists_reachable_of_exec_map ls ⟨⟨m, hm, hk⟩, rfl⟩ h

end ShmRace

set_option maxRecDepth 100000 in
/-- Booted, the first process forks; parent and child both scan for id `5` before either takes
the lock, and each then allocates a block for it: two live blocks carry `5`. -/
theorem shm_open_race_duplicates :
    ∃ s, ShmRace.Reachable s ∧ ∃ i j : Fin MAXSHM, i ≠ j ∧
      (s.k.shm.blocks i).id = 5 ∧ (s.k.shm.blocks j).id = 5 ∧
      0 < (s.k.shm.blocks i).refCount ∧ 0 < (s.k.shm.blocks j).refCount := by
  obtain ⟨s, hs, hf⟩ := ShmRace.exists_reachable_of_bootRun bootMem_ok
    [(0, .call .fork), (0, .scan 5 1 0), (1, .scan 5 1 0), (0, .alloc), (1, .alloc)]
    (f := fun s => ((s.k.shm.blocks 0).id, (s.k.shm.blocks 1).id,
      (s.k.shm.blocks 0).refCount, (s.k.shm.blocks 1).refCount))
    (b := (5, 5, 1, 1)) (by decide +kernel)
  simp only [Prod.mk.injEq] at hf
  obtain ⟨h0, h1, r0, r1⟩ := hf
  exact ⟨s, hs, 0, 1, by decide, h0, h1, by rw [r0]; decide, by rw [r1]; decide⟩

end Xv6Lab
