import Xv6Lab.Kernel.Kalloc

/-!
# Page directories (`vm.c`)

A process's address space is a two-level x86 page table.  `PageDir` keeps exactly what the
modelled functions read of it:

* `root` — the directory page itself (from `kalloc`, freed last by `freevm`);
* `pde i` — the page-table page of directory entry `i`, when present;
* `pte n` — the entry for virtual page `n` (address `n * PGSIZE`), when present (`PTE_P`).

Entries of a table whose directory entry is absent are never read (`walkpgdir` returns `0`
first); a table fresh from `kalloc` is zeroed, so `walkpgdirAlloc` clears its range.

The functions follow the source line by line: `walkpgdir` with and without allocation, the
`mappages` loop with its `remap` panic, `allocuvm`/`deallocuvm` (including `deallocuvm`'s skip of
a whole absent table and the 32-bit wrap of every address computation), `freevm`, `copyuvm`,
`inituvm`, and the lab's `shm_allocuvm`/`shm_from_allocuvm`.  Loops over addresses run on a
fuel argument that bounds their iterations; each loop also tests the source's own condition.

`setupkvm` builds the kernel half from `kmap` (`[KERNBASE, KERNBASE+PHYSTOP)` and
`[DEVSPACE, 2^32)`): it takes the directory page and one page per kernel table from `kalloc`, in
the order `mappages` would, and installs `kmap`'s entries as one function.  Page contents (the
bytes `memmove` copies, `loaduvm`) and the kernel entries' permission bits are outside the model.
-/

namespace Xv6Lab

def PTE_W : ℕ := 2
def PTE_U : ℕ := 4
def NPTENTRIES : ℕ := 1024

/-- `MAXSHMPBLOCK` (`sharedm.c`): the size of a shared block's `pages[]`. -/
abbrev MAXSHMPBLOCK : ℕ := 4

/-- A present page-table entry: the physical address it maps and its flag bits. -/
structure Pte where
  pa : ℕ
  perm : ℕ
  deriving DecidableEq, Repr

/-- A page directory. -/
structure PageDir where
  root : ℕ
  pde : ℕ → Option ℕ
  pte : ℕ → Option Pte

/-! ### Walking and mapping -/

/-- `walkpgdir(pgdir, va, 0)`: `none` when `va`'s table is absent (the source returns `0`),
otherwise the entry, `some none` when it is not present. -/
def walkpgdir (d : PageDir) (va : ℕ) : Option (Option Pte) :=
  (d.pde (PDX va)).map fun _ => d.pte (va / PGSIZE)

/-- `walkpgdir(pgdir, va, 1)`: allocate and zero `va`'s table when absent.  `none` is the
source's `0`: `kalloc` found no page. -/
def walkpgdirAlloc (d : PageDir) (m : Kmem) (va : ℕ) : Option (PageDir × Kmem) :=
  match d.pde (PDX va) with
  | some _ => some (d, m)
  | none =>
    let (m', pgtab) := kalloc m
    if pgtab = 0 then none
    else some ({ d with
      pde := Function.update d.pde (PDX va) (some pgtab)
      pte := fun n => if n / NPTENTRIES = PDX va then none else d.pte n }, m')

/-- Set the entry of virtual page `va / PGSIZE`. -/
def PageDir.setPte (d : PageDir) (va : ℕ) (e : Option Pte) : PageDir :=
  { d with pte := Function.update d.pte (va / PGSIZE) e }

/-- The body of `mappages`' loop, `n` pages from `a` (mapped to `pa`) on.  The flag is the
source's return value: `false` for `-1`, a table that could not be allocated. -/
def mappagesLoop (perm : ℕ) : ℕ → PageDir → Kmem → ℕ → ℕ → Except Crash (PageDir × Kmem × Bool)
  | 0, d, m, _, _ => .ok (d, m, true)
  | n + 1, d, m, a, pa =>
    match walkpgdirAlloc d m a with
    | none => .ok (d, m, false)
    | some (d, m) =>
      if (d.pte (a / PGSIZE)).isSome then .error (.panic "remap")
      else mappagesLoop perm n (d.setPte a (some ⟨pa, perm⟩)) m (wrap (a + PGSIZE))
        (wrap (pa + PGSIZE))

/-- `mappages(pgdir, va, size, pa, perm)`: map the pages from `PGROUNDDOWN(va)` to
`PGROUNDDOWN(va + size - 1)`. -/
def mappages (d : PageDir) (m : Kmem) (va size pa perm : ℕ) :
    Except Crash (PageDir × Kmem × Bool) :=
  let a := pgrounddown va
  let last := pgrounddown (wrap (va + size + UINT - 1))
  mappagesLoop perm (usub last a / PGSIZE + 1) d m a pa

/-! ### Freeing -/

/-- The body of `deallocuvm`'s loop from address `a` below `oldsz`.  An absent table skips to
the next directory entry (`a = PGADDR(PDX(a) + 1, 0, 0) - PGSIZE`); a present entry has its
page freed and is cleared. -/
def deallocLoop (oldsz : ℕ) : ℕ → PageDir → Kmem → ℕ → Except Crash (PageDir × Kmem)
  | 0, d, m, _ => .ok (d, m)
  | n + 1, d, m, a =>
    if a < oldsz then
      match walkpgdir d a with
      | none => deallocLoop oldsz n d m (wrap (usub (wrap ((PDX a + 1) * 2 ^ 22)) PGSIZE + PGSIZE))
      | some none => deallocLoop oldsz n d m (wrap (a + PGSIZE))
      | some (some e) =>
        if pgrounddown e.pa = 0 then .error (.panic "kfree")
        else do
          let m ← kfree (P2V (pgrounddown e.pa)) m
          deallocLoop oldsz n (d.setPte a none) m (wrap (a + PGSIZE))
    else .ok (d, m)

/-- `deallocuvm(pgdir, oldsz, newsz)`: free the user pages from `PGROUNDUP(newsz)` up to
`oldsz`; returns the new size. -/
def deallocuvm (d : PageDir) (m : Kmem) (oldsz newsz : ℕ) : Except Crash (PageDir × Kmem × ℕ) :=
  if oldsz ≤ newsz then .ok (d, m, oldsz)
  else do
    let (d, m) ← deallocLoop oldsz (oldsz / PGSIZE + 1) d m (pgroundup newsz)
    .ok (d, m, newsz)

/-- `kfree` every present directory entry's table, entries `i` to `i + n - 1`. -/
def freeTables (d : PageDir) : ℕ → ℕ → Kmem → Except Crash Kmem
  | 0, _, m => .ok m
  | n + 1, i, m =>
    match d.pde i with
    | none => freeTables d n (i + 1) m
    | some pgtab => do
      let m ← kfree pgtab m
      freeTables d n (i + 1) m

/-- `freevm(pgdir)`: the user pages, then every table, then the directory page. -/
def freevm (d : PageDir) (m : Kmem) : Except Crash Kmem := do
  if d.root = 0 then .error (.panic "freevm: no pgdir")
  let (d, m, _) ← deallocuvm d m KERNBASE 0
  let m ← freeTables d NPDENTRIES 0 m
  kfree d.root m

/-! ### Growing -/

/-- The body of `allocuvm`'s loop: one fresh zeroed page per address `a < newsz`; on failure
everything mapped since `oldsz` is unmapped again and `0` is returned. -/
def allocLoop (oldsz newsz : ℕ) : ℕ → PageDir → Kmem → ℕ → Except Crash (PageDir × Kmem × ℕ)
  | 0, d, m, _ => .ok (d, m, newsz)
  | n + 1, d, m, a =>
    if a < newsz then
      let (m, mem) := kalloc m
      if mem = 0 then do
        let (d, m, _) ← deallocuvm d m newsz oldsz
        .ok (d, m, 0)
      else do
        let (d, m, ok) ← mappages d m a PGSIZE (V2P mem) (PTE_W + PTE_U)
        if ok then allocLoop oldsz newsz n d m (a + PGSIZE)
        else do
          let (d, m, _) ← deallocuvm d m newsz oldsz
          let m ← kfree mem m
          .ok (d, m, 0)
    else .ok (d, m, newsz)

/-- `allocuvm(pgdir, oldsz, newsz)`: returns the new size, or `0` on error. -/
def allocuvm (d : PageDir) (m : Kmem) (oldsz newsz : ℕ) : Except Crash (PageDir × Kmem × ℕ) :=
  if KERNBASE ≤ newsz then .ok (d, m, 0)
  else if newsz < oldsz then .ok (d, m, oldsz)
  else allocLoop oldsz newsz (newsz / PGSIZE + 1) d m (pgroundup oldsz)

/-! ### Kernel half, new directories -/

/-- The directory entries `setupkvm`'s `mappages` calls allocate tables for, in order. -/
def kernelPdxs : List ℕ :=
  (List.range 56).map (512 + ·) ++ (List.range 8).map (1016 + ·)

/-- `kmap`'s entries for virtual page `n`: `[KERNBASE, KERNBASE+PHYSTOP)` onto `[0, PHYSTOP)`,
and the device space onto itself. -/
def kernelPte (n : ℕ) : Option Pte :=
  if KERNBASE ≤ n * PGSIZE ∧ n * PGSIZE < KERNBASE + PHYSTOP then
    some ⟨n * PGSIZE - KERNBASE, PTE_W⟩
  else if DEVSPACE ≤ n * PGSIZE ∧ n * PGSIZE < UINT then some ⟨n * PGSIZE, PTE_W⟩
  else none

/-- Allocate the kernel tables of the entries `is`, stopping at the first failed `kalloc`. -/
def allocKernelTables : List ℕ → PageDir → Kmem → PageDir × Kmem × Bool
  | [], d, m => (d, m, true)
  | i :: is, d, m =>
    let (m', pgtab) := kalloc m
    if pgtab = 0 then (d, m, false)
    else allocKernelTables is { d with pde := Function.update d.pde i (some pgtab) } m'

/-- `setupkvm()`: a directory holding only the kernel half, or `none` (the source's `0`) when
memory runs out; a partial directory is freed again. -/
def setupkvm (m : Kmem) : Except Crash (Option PageDir × Kmem) :=
  let (m, root) := kalloc m
  if root = 0 then .ok (none, m)
  else
    let d0 : PageDir := ⟨root, fun _ => none, kernelPte⟩
    let (d, m, ok) := allocKernelTables kernelPdxs d0 m
    if ok then .ok (some d, m)
    else do
      let m ← freevm d m
      .ok (none, m)

/-- `inituvm(pgdir, init, sz)`: one zeroed page at address `0`. -/
def inituvm (d : PageDir) (m : Kmem) (sz : ℕ) : Except Crash (PageDir × Kmem) := do
  if PGSIZE ≤ sz then .error (.panic "inituvm: more than a page")
  let (m, mem) := kalloc m
  if mem = 0 then .error (.nullDeref "memset(mem)")
  let (d, m, _) ← mappages d m 0 PGSIZE (V2P mem) (PTE_W + PTE_U)
  .ok (d, m)

/-- The body of `copyuvm`'s loop: copy each page below `sz` of `src` into `d`.  The flag is
`false` at the `bad:` exit, with the partial copy as it stands. -/
def copyLoop (src : PageDir) (sz : ℕ) : ℕ → PageDir → Kmem → ℕ →
    Except Crash (PageDir × Kmem × Bool)
  | 0, d, m, _ => .ok (d, m, true)
  | n + 1, d, m, i =>
    if i < sz then
      match walkpgdir src i with
      | none => .error (.panic "copyuvm: pte should exist")
      | some none => .error (.panic "copyuvm: page not present")
      | some (some e) =>
        let (m, mem) := kalloc m
        if mem = 0 then .ok (d, m, false)
        else do
          let (d, m, ok) ← mappages d m i PGSIZE (V2P mem) e.perm
          if ok then copyLoop src sz n d m (i + PGSIZE)
          else do
            let m ← kfree mem m
            .ok (d, m, false)
    else .ok (d, m, true)

/-- `copyuvm(pgdir, sz)`: a fresh directory with copies of the pages below `sz`, or `none`
after `bad:` has freed the partial copy. -/
def copyuvm (src : PageDir) (m : Kmem) (sz : ℕ) : Except Crash (Option PageDir × Kmem) := do
  match ← setupkvm m with
  | (none, m) => .ok (none, m)
  | (some d, m) =>
    let (d, m, ok) ← copyLoop src sz (sz / PGSIZE + 1) d m 0
    if ok then .ok (some d, m)
    else do
      let m ← freevm d m
      .ok (none, m)

/-! ### The lab's shared mappings -/

/-- `pages[j]` of a shared block's array, which the lab passes as a bare `char*[]`. -/
def pageAt (pages : Fin MAXSHMPBLOCK → ℕ) (j : ℕ) : Except Crash ℕ :=
  if h : j < MAXSHMPBLOCK then .ok (pages ⟨j, h⟩) else .error (.outOfBounds "pages" j)

/-- The inner loop of `shm_allocuvm`: from `j` on (`k` indices left below `amount_pages`), the
first `j` whose page `start + j*PGSIZE` is present, or `none` when the loop runs to the end
(`j == amount_pages`).  An absent table makes `*pte` read through `0`. -/
def shmScan (d : PageDir) (start : ℕ) : ℕ → ℕ → Except Crash (Option ℕ)
  | 0, _ => .ok none
  | k + 1, j =>
    match walkpgdir d (wrap (start + wrap (j * PGSIZE))) with
    | none => .error (.nullDeref "pte")
    | some (some _) => .ok (some j)
    | some none => shmScan d start k (j + 1)

/-- The outer loop of `shm_allocuvm`: candidate starts from `start` while `start <= bound`; a
present page at offset `j` moves the candidate past it (`start += j*PGSIZE`, then the loop's
`start += PGSIZE`). -/
def shmSearch (d : PageDir) (amount bound : ℕ) : ℕ → ℕ → Except Crash ℕ
  | 0, start => .ok start
  | n + 1, start =>
    if start ≤ bound then do
      match ← shmScan d start amount 0 with
      | none => .ok start
      | some j => shmSearch d amount bound n (wrap (wrap (start + wrap (j * PGSIZE)) + PGSIZE))
    else .ok start

/-- `shm_from_allocuvm`: map `pages[j]` at `start + j*PGSIZE` for the `k` indices from `j` on;
`mappages`' result is ignored, as in the source. -/
def shmFromAllocuvm (pages : Fin MAXSHMPBLOCK → ℕ) (perm start : ℕ) :
    ℕ → ℕ → PageDir → Kmem → Except Crash (PageDir × Kmem)
  | 0, _, d, m => .ok (d, m)
  | k + 1, j, d, m => do
    let pg ← pageAt pages j
    let (d, m, _) ← mappages d m (wrap (start + wrap (j * PGSIZE))) PGSIZE (V2P pg) perm
    shmFromAllocuvm pages perm start k (j + 1) d m

/-- `shm_allocuvm(pgdir, pages, amount_pages, perm)` for the current process of size `sz`:
the lowest free run of `amount_pages` pages from `PGROUNDUP(sz)` on, mapped to `pages`.
Returns that address, or `-1` (as the 32-bit word `2^32 - 1`) when none lies below `KERNBASE`. -/
def shmAllocuvm (d : PageDir) (m : Kmem) (sz : ℕ) (pages : Fin MAXSHMPBLOCK → ℕ)
    (amount perm : ℕ) : Except Crash (PageDir × Kmem × ℕ) := do
  let bound := usub KERNBASE (wrap (amount * PGSIZE))
  let start ← shmSearch d amount bound (bound / PGSIZE + 2) (pgroundup sz)
  if bound < start then .ok (d, m, UINT - 1)
  else do
    let (d, m) ← shmFromAllocuvm pages perm start amount 0 d m
    .ok (d, m, start)

end Xv6Lab
