import Xv6Lab.Kernel.Vm
import Xv6Lab.Lib.Scan

/-!
# The lab's shared memory (`sharedm.c`)

`shmtable` holds `MAXSHM` blocks; a block records its `id`, `owner` pid, `flags`, `ref_count`,
`size` (its page count) and the arrays `pages[MAXSHMPBLOCK]` and `members[PROCNUM]`.  The
global `start` makes the first `shmopen` run `shminit`.  The table is a zero-initialised global,
so before any `shmopen` every block has `id == 0` — and `shminit` never resets `id`, `owner` or
`flags`.

The four entry points are `Except Crash` computations over `ShmCtx` (the table, `start` and the
page allocator) for a calling process (`ShmCaller`: its pid, its parent's pid, its directory and
size).  They follow the source statement by statement:

* every array access goes through `getMember`/`setMember`/`setPage`/`pageAt`, which crash with
  `outOfBounds` instead of touching a neighbouring field;
* `myproc()->parent->pid` reads through a null pointer for a parentless process;
* `acquire`/`release` of `shmtable.shmlock` panic where `spinlock.c` does, which is how the
  access-denied path of `shmattach` ends: it releases a lock it never took;
* `cprintf` output is not modelled.
-/

namespace Xv6Lab

open Scan

abbrev MAXSHM : ℕ := 10
abbrev PROCNUM : ℕ := 64

/-- `struct shmblock`. -/
structure ShmBlock where
  id : ℤ
  owner : ℤ
  flags : ℤ
  refCount : ℤ
  size : ℤ
  pages : Fin MAXSHMPBLOCK → ℕ
  members : Fin PROCNUM → ℤ

/-- The all-zero block of the zero-initialised global. -/
def ShmBlock.zero : ShmBlock := ⟨0, 0, 0, 0, 0, fun _ => 0, fun _ => 0⟩

/-- `shmtable`: its lock bit and its blocks. -/
structure ShmTable where
  locked : Bool
  blocks : Fin MAXSHM → ShmBlock

/-- What the shared-memory code reads and writes besides the caller. -/
structure ShmCtx where
  table : ShmTable
  start : Bool
  kmem : Kmem

/-- The calling process as `myproc()` shows it to `sharedm.c`. -/
structure ShmCaller where
  pid : ℤ
  /-- `myproc()->parent->pid`; `none` for a process without a parent. -/
  parentPid : Option ℤ
  pgdir : PageDir
  sz : ℕ

/-! ### Array accesses -/

/-- A 32-bit `uint` from an `int`. -/
def toUint (x : ℤ) : ℕ := (x % UINT).toNat

/-- `members[j]`. -/
def ShmBlock.getMember (b : ShmBlock) (j : ℤ) : Except Crash ℤ :=
  if h : 0 ≤ j ∧ j < PROCNUM then .ok (b.members ⟨j.toNat, by omega⟩)
  else .error (.outOfBounds "members" j)

/-- `members[j] = v`. -/
def ShmBlock.setMember (b : ShmBlock) (j v : ℤ) : Except Crash ShmBlock :=
  if h : 0 ≤ j ∧ j < PROCNUM then
    .ok { b with members := Function.update b.members ⟨j.toNat, by omega⟩ v }
  else .error (.outOfBounds "members" j)

/-- `pages[j] = v`. -/
def ShmBlock.setPage (b : ShmBlock) (j : ℕ) (v : ℕ) : Except Crash ShmBlock :=
  if h : j < MAXSHMPBLOCK then .ok { b with pages := Function.update b.pages ⟨j, h⟩ v }
  else .error (.outOfBounds "pages" j)

/-- Replace block `i`. -/
def ShmTable.set (t : ShmTable) (i : Fin MAXSHM) (b : ShmBlock) : ShmTable :=
  { t with blocks := Function.update t.blocks i b }

@[simp] theorem ShmTable.set_blocks_self (t : ShmTable) (i : Fin MAXSHM) (b : ShmBlock) :
    (t.set i b).blocks i = b := by
  simp [ShmTable.set]

@[simp] theorem ShmTable.set_blocks_ne (t : ShmTable) {i j : Fin MAXSHM} (b : ShmBlock)
    (h : j ≠ i) : (t.set i b).blocks j = t.blocks j := by
  simp [ShmTable.set, h]

@[simp] theorem ShmTable.set_locked (t : ShmTable) (i : Fin MAXSHM) (b : ShmBlock) :
    (t.set i b).locked = t.locked := rfl

/-! ### `shminit` -/

/-- `shminit`: clear every block's `size`, `ref_count`, `pages` and `members`, and initialise
the lock. -/
def shminit (t : ShmTable) : ShmTable where
  locked := false
  blocks := fun i =>
    { t.blocks i with size := 0, refCount := 0, pages := (fun _ => 0), members := (fun _ => 0) }

/-! ### `shmopen` -/

/-- `for (j = 0; j < page_count; j++) pages[j] = kalloc();`, `k` iterations from `j` on. -/
def allocPages (pageCount : ℤ) : ℕ → ℕ → ShmBlock → Kmem → Except Crash (ShmBlock × Kmem)
  | 0, _, b, m => .ok (b, m)
  | k + 1, j, b, m =>
    if (j : ℤ) < pageCount then do
      let (m, pg) := kalloc m
      let b ← b.setPage j pg
      allocPages pageCount k (j + 1) b m
    else .ok (b, m)

/-- `if (start) { shminit(); start = 0; }`: the first `shmopen` initialises the table. -/
def shmStart (c : ShmCtx) : ShmCtx :=
  if c.start then { c with table := shminit c.table, start := false } else c

/-- `shmopen(id, page_count, flag)`: `0` on creating a block, `-1` when a block already carries
`id`, `-3` when every block is in use. -/
def shmopen (c : ShmCtx) (me : ShmCaller) (id pageCount flag : ℤ) :
    Except Crash (ShmCtx × ℤ) := do
  let c := shmStart c
  match firstIdx MAXSHM fun i => (c.table.blocks i).id == id with
  | some _ => .ok (c, -1)
  | none =>
    let locked ← acquire c.table.locked
    match firstIdx MAXSHM fun i => (c.table.blocks i).refCount == 0 with
    | none =>
      let locked ← release locked
      .ok ({ c with table := { c.table with locked := locked } }, -3)
    | some i =>
      if (MAXSHMPBLOCK : ℤ) < pageCount then
        .error (.panic "Number of pages is larger than available blocks!:D")
      let (b, m) ← allocPages pageCount MAXSHMPBLOCK 0 (c.table.blocks i) c.kmem
      let b := { b with id := id, owner := me.pid, flags := flag, refCount := 1, size := pageCount }
      let locked ← release locked
      .ok ({ c with table := { (c.table.set i b) with locked := locked }, kmem := m }, 0)

/-! ### `shmattach` -/

/-- One of the `acquire; shm_allocuvm(...); release` blocks of `shmattach`, with its panic when
`shm_allocuvm` returns `0`. -/
def shmMap (c : ShmCtx) (me : ShmCaller) (b : ShmBlock) (perm : ℕ) :
    Except Crash (ShmCtx × ShmCaller × ℕ) := do
  let locked ← acquire c.table.locked
  let (d, m, va) ← shmAllocuvm me.pgdir c.kmem me.sz b.pages (toUint b.size) perm
  if va = 0 then
    let _ ← release locked
    .error (.panic "bad shared mem allocation!!")
  let locked ← release locked
  .ok ({ c with table := { c.table with locked := locked }, kmem := m }, { me with pgdir := d }, va)

/-- The permission check of `shmattach` for block `b`: a block with `flags == 0` is mapped for
everyone (writable for its owner only); any other block only for its owner and the owner's
children, and anyone else ends in `release` of a lock the caller does not hold. -/
def shmattachMap (c : ShmCtx) (me : ShmCaller) (b : ShmBlock) :
    Except Crash (ShmCtx × ShmCaller × ℕ) :=
  if b.flags = 0 then
    if me.pid = b.owner then shmMap c me b (PTE_W + PTE_U) else shmMap c me b PTE_U
  else if me.pid = b.owner then shmMap c me b (PTE_W + PTE_U)
  else match me.parentPid with
    -- `myproc()->parent->pid` is read only when the caller is not the owner
    | none => .error (.nullDeref "myproc()->parent")
    | some ppid =>
      if ppid = b.owner then shmMap c me b (PTE_W + PTE_U)
      else do
        let _ ← release c.table.locked
        .error (.panic "Access denied!!")

/-- `shmattach(id)`: map the first block carrying `id` into the caller, record the caller in
`members[ref_count-1]` and count it.  Returns the mapped address as a 32-bit word, `0` when no
block carries `id`. -/
def shmattach (c : ShmCtx) (me : ShmCaller) (id : ℤ) :
    Except Crash (ShmCtx × ShmCaller × ℕ) :=
  match firstIdx MAXSHM fun i => (c.table.blocks i).id == id with
  | none => .ok (c, me, 0)
  | some i => do
    let b := c.table.blocks i
    let (c, me, va) ← shmattachMap c me b
    let locked ← acquire c.table.locked
    let b ← b.setMember (b.refCount - 1) me.pid
    let b := { b with refCount := b.refCount + 1 }
    let locked ← release locked
    .ok ({ c with table := { (c.table.set i b) with locked := locked } }, me, va)

/-! ### `shmclose` -/

/-- `for (k = 0; k < size; ++k) kfree(pages[k]);`, `n` iterations from `k` on. -/
def freePages (b : ShmBlock) : ℕ → ℕ → Kmem → Except Crash Kmem
  | 0, _, m => .ok m
  | n + 1, k, m =>
    if (k : ℤ) < b.size then do
      let pg ← pageAt b.pages k
      let m ← kfree pg m
      freePages b n (k + 1) m
    else .ok m

/-- The body of `shmclose`'s outer loop for block `i`: when it carries `id`, the first `j` with
`pid == owner || pid == members[j]` drops one reference, and the count reaching `0` frees the
block's pages. -/
def shmcloseBlock (me : ShmCaller) (id : ℤ) (c : ShmCtx) (i : Fin MAXSHM) :
    Except Crash ShmCtx := do
  let b := c.table.blocks i
  if b.id = id then
    let locked ← acquire c.table.locked
    match firstIdx PROCNUM fun j => me.pid == b.owner || me.pid == b.members j with
    | none =>
      let locked ← release locked
      .ok { c with table := { c.table with locked := locked } }
    | some _ =>
      let b := { b with refCount := b.refCount - 1 }
      let m ← if b.refCount = 0 then freePages b MAXSHMPBLOCK 0 c.kmem else .ok c.kmem
      let locked ← release locked
      .ok { c with table := { (c.table.set i b) with locked := locked }, kmem := m }
  else .ok c

/-- `shmclose(id)`: every block carrying `id` (the loop does not stop at the first); returns
`0`. -/
def shmclose (c : ShmCtx) (me : ShmCaller) (id : ℤ) : Except Crash (ShmCtx × ℤ) := do
  let c ← (List.finRange MAXSHM).foldlM (shmcloseBlock me id) c
  .ok (c, 0)

end Xv6Lab
