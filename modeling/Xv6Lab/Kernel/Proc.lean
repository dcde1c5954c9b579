import Xv6Lab.Kernel.SharedMemory
import Xv6Lab.Lib.Run
import Mathlib.Data.List.Nodup

/-!
# Processes and the system-call machine (`proc.c`, `sysproc.c`)

The process table holds `NPROC` slots; a slot's `state`, `pid`, `parent` (a slot, `none` for a
null pointer), page directory `pgdir`, size `sz`, kernel stack page `kstack` and `killed` bit
are what the modelled calls read.  `Kernel` adds `nextpid`, `initproc`, the page allocator, and
the shared-memory globals (`shmtable` and `start`).

Each system call runs atomically, as the kernel's locks make it for the state modelled here:

* `fork` — `allocproc` (first `UNUSED` slot, fresh pid, a `kalloc`ed kernel stack), then
  `copyuvm` of the caller's pages below `sz`;
* `exit` — panics for `initproc`; passes the children to `initproc`, becomes `ZOMBIE`;
* `wait` — reaps the first `ZOMBIE` child in table order (`kfree` of its stack, `freevm` of its
  directory) or returns `-1` without children; while the caller must sleep the call is not
  enabled (its loop has no effect on this state until a child exits);
* `sbrk n` — `growproc(n)`;
* `kill pid` — marks the first slot whose `pid` is `pid`, whatever its state;
* `shm_init`, `shm_open`, `shm_attach`, `shm_close` — the `sharedm.c` entry points for the
  caller.

`Kernel.sysStep k p call` is `none` when slot `p` cannot make the call now (it is not a live
process, or `wait` would sleep), and otherwise the call's outcome, a crash included.  A run
stops at a crash; `Kernel.step` is the step function of the runs.  Boot is `userinit` on some
free list (the pages `kinit` left, which depend on the kernel image): `Boot`.
-/

namespace Xv6Lab

open Scan

/-- `enum procstate`. -/
inductive ProcState where
  | unused
  | embryo
  | sleeping
  | runnable
  | running
  | zombie
  deriving DecidableEq, Repr

/-- The fields of `struct proc` the model reads. -/
structure Proc where
  state : ProcState
  pid : ℤ
  parent : Option (Fin NPROC)
  pgdir : PageDir
  sz : ℕ
  kstack : ℕ
  killed : Bool

/-- A slot of the zero-initialised `ptable`. -/
def Proc.zero : Proc := ⟨.unused, 0, none, ⟨0, fun _ => none, fun _ => none⟩, 0, 0, false⟩

/-- The kernel state the system calls act on. -/
structure Kernel where
  proc : Fin NPROC → Proc
  nextpid : ℤ
  initproc : Fin NPROC
  kmem : Kmem
  shm : ShmTable
  shmStart : Bool

namespace Kernel

/-- Replace slot `p`. -/
def setProc (k : Kernel) (p : Fin NPROC) (q : Proc) : Kernel :=
  { k with proc := Function.update k.proc p q }

@[simp] theorem setProc_self (k : Kernel) (p : Fin NPROC) (q : Proc) :
    (k.setProc p q).proc p = q := by
  simp [setProc]

@[simp] theorem setProc_ne (k : Kernel) {p r : Fin NPROC} (q : Proc) (h : r ≠ p) :
    (k.setProc p q).proc r = k.proc r := by
  simp [setProc, h]

@[simp] theorem setProc_shm (k : Kernel) (p : Fin NPROC) (q : Proc) :
    (k.setProc p q).shm = k.shm := rfl

@[simp] theorem setProc_kmem (k : Kernel) (p : Fin NPROC) (q : Proc) :
    (k.setProc p q).kmem = k.kmem := rfl

/-- The shared-memory globals and the allocator, as `sharedm.c` sees them. -/
def shmCtx (k : Kernel) : ShmCtx := ⟨k.shm, k.shmStart, k.kmem⟩

/-- Write back what a shared-memory call changed. -/
def withShm (k : Kernel) (c : ShmCtx) : Kernel :=
  { k with shm := c.table, shmStart := c.start, kmem := c.kmem }

/-- Slot `p` as `myproc()` for `sharedm.c`. -/
def caller (k : Kernel) (p : Fin NPROC) : ShmCaller :=
  ⟨(k.proc p).pid, (k.proc p).parent.map fun q => (k.proc q).pid, (k.proc p).pgdir,
    (k.proc p).sz⟩

end Kernel

/-! ### `allocproc`, `fork` -/

/-- `allocproc()`: the first `UNUSED` slot becomes `EMBRYO` with the next pid and a fresh
kernel stack.  On a failed `kalloc` the slot is `UNUSED` again (the pid stays consumed). -/
def allocproc (k : Kernel) : Kernel × Option (Fin NPROC) :=
  match firstIdx NPROC fun p => (k.proc p).state == .unused with
  | none => (k, none)
  | some p =>
    let q := { k.proc p with state := .embryo, pid := k.nextpid }
    let k := { k.setProc p q with nextpid := k.nextpid + 1 }
    let (m, stack) := kalloc k.kmem
    if stack = 0 then ({ k.setProc p { q with state := .unused, kstack := 0 } with kmem := m }, none)
    else ({ k.setProc p { q with kstack := stack } with kmem := m }, some p)

/-- `fork()` by slot `cur`: returns the child's pid, or `-1`. -/
def fork (k : Kernel) (cur : Fin NPROC) : Except Crash (Kernel × ℤ) := do
  let src := k.proc cur
  match allocproc k with
  | (k, none) => .ok (k, -1)
  | (k, some np) =>
    let (d, m) ← copyuvm src.pgdir k.kmem src.sz
    match d with
    | none => do
      let m ← kfree (k.proc np).kstack m
      let k := k.setProc np { k.proc np with kstack := 0, state := .unused }
      .ok ({ k with kmem := m }, -1)
    | some d =>
      let q := { k.proc np with pgdir := d, sz := src.sz, parent := some cur, state := .runnable }
      .ok ({ k.setProc np q with kmem := m }, q.pid)

/-! ### `exit`, `wait` -/

/-- `exit()` by slot `cur`: abandoned children go to `initproc`, the caller becomes a zombie. -/
def exit (k : Kernel) (cur : Fin NPROC) : Except Crash Kernel :=
  if cur = k.initproc then .error (.panic "init exiting")
  else
    let reparent : Fin NPROC → Proc := fun p =>
      if (k.proc p).parent = some cur then { k.proc p with parent := some k.initproc }
      else k.proc p
    .ok ({ k with proc := reparent }.setProc cur { reparent cur with state := .zombie })

/-- `wait()` by slot `cur`: `none` while it would sleep; otherwise the reaped child's pid, or
`-1` without children. -/
def wait (k : Kernel) (cur : Fin NPROC) : Option (Except Crash (Kernel × ℤ)) :=
  match firstIdx NPROC fun p => (k.proc p).parent == some cur && (k.proc p).state == .zombie with
  | some p => some do
    let child := k.proc p
    let m ← kfree child.kstack k.kmem
    let m ← freevm child.pgdir m
    let q := { child with
        kstack := 0, pid := 0, parent := none, killed := false, state := .unused }
    .ok ({ k.setProc p q with kmem := m }, child.pid)
  | none =>
    let havekids := (List.finRange NPROC).any fun p => (k.proc p).parent == some cur
    if !havekids || (k.proc cur).killed then some (.ok (k, -1)) else none

/-! ### `growproc` -/

/-- `growproc(n)` by slot `cur` (the body of `sbrk`): `0` on success, `-1` on failure. -/
def growproc (k : Kernel) (cur : Fin NPROC) (n : ℤ) : Except Crash (Kernel × ℤ) := do
  let q := k.proc cur
  let target := toUint (q.sz + n)
  if 0 < n then
    let (d, m, sz) ← allocuvm q.pgdir k.kmem q.sz target
    let k := { k.setProc cur { q with pgdir := d } with kmem := m }
    if sz = 0 then .ok (k, -1) else .ok (k.setProc cur { q with pgdir := d, sz := sz }, 0)
  else if n < 0 then
    let (d, m, sz) ← deallocuvm q.pgdir k.kmem q.sz target
    let k := { k.setProc cur { q with pgdir := d } with kmem := m }
    if sz = 0 then .ok (k, -1) else .ok (k.setProc cur { q with pgdir := d, sz := sz }, 0)
  else .ok (k, 0)

/-! ### `kill` -/

/-- `kill(pid)`: the first slot whose `pid` is `pid` gets `killed` set and, if `SLEEPING`, is made
`RUNNABLE`; `-1` when no slot has that pid.  The scan reads the pid only, not the state. -/
def kill (k : Kernel) (pid : ℤ) : Kernel × ℤ :=
  match firstIdx NPROC fun p => (k.proc p).pid == pid with
  | some p =>
    let q := k.proc p
    let state := if q.state = .sleeping then ProcState.runnable else q.state
    (k.setProc p { q with killed := true, state := state }, 0)
  | none => (k, -1)

/-! ### System calls -/

/-- The system calls of the model, with their integer arguments. -/
inductive Syscall where
  | fork
  | exit
  | wait
  | sbrk (n : ℤ)
  | kill (pid : ℤ)
  | shmInit
  | shmOpen (id count flag : ℤ)
  | shmAttach (id : ℤ)
  | shmClose (id : ℤ)
  deriving DecidableEq, Repr

namespace Kernel

/-- Slot `p` holds a process that can run. -/
def live (k : Kernel) (p : Fin NPROC) : Bool :=
  (k.proc p).state == .runnable || (k.proc p).state == .running

/-- One system call by slot `p`: `none` when `p` cannot make it now. -/
def sysStep (k : Kernel) (p : Fin NPROC) : Syscall → Option (Except Crash Kernel)
  | .fork => if k.live p then some ((fork k p).map Prod.fst) else none
  | .exit => if k.live p then some (exit k p) else none
  | .wait => if k.live p then (wait k p).map (·.map Prod.fst) else none
  | .sbrk n => if k.live p then some ((growproc k p n).map Prod.fst) else none
  | .kill pid => if k.live p then some (.ok (kill k pid).1) else none
  | .shmInit =>
    if k.live p then some (.ok { k with shm := shminit k.shm }) else none
  | .shmOpen id count flag =>
    if k.live p then some ((shmopen k.shmCtx (k.caller p) id count flag).map fun r => k.withShm r.1)
    else none
  | .shmAttach id =>
    if k.live p then
      some ((shmattach k.shmCtx (k.caller p) id).map fun r =>
        (k.withShm r.1).setProc p { k.proc p with pgdir := r.2.1.pgdir })
    else none
  | .shmClose id =>
    if k.live p then some ((shmclose k.shmCtx (k.caller p) id).map fun r => k.withShm r.1)
    else none

/-- The step function of runs: a call that crashes ends the run. -/
def step (k : Kernel) (l : Fin NPROC × Syscall) : Option Kernel :=
  (k.sysStep l.1 l.2).bind fun r => match r with
    | .ok k' => some k'
    | .error _ => none

end Kernel

/-! ### Boot -/

/-- The process table and shared-memory globals before `userinit`. -/
def Kernel.empty (m : Kmem) : Kernel :=
  ⟨fun _ => Proc.zero, 1, 0, m, ⟨false, fun _ => ShmBlock.zero⟩, true⟩

/-- `userinit()`: the first process, one page of `initcode` at address `0`. -/
def userinit (m : Kmem) : Except Crash Kernel := do
  match allocproc (Kernel.empty m) with
  | (_, none) => .error (.nullDeref "initproc")
  | (k, some p) =>
    let (d, m) ← setupkvm k.kmem
    match d with
    | none => .error (.panic "userinit: out of memory?")
    | some d =>
      let (d, m) ← inituvm d m 0
      let q := { k.proc p with pgdir := d, sz := PGSIZE, state := .runnable }
      .ok { k.setProc p q with kmem := m, initproc := p }

/-- A free list as `kinit` leaves it: distinct page-aligned pages above the kernel image and
below `PHYSTOP`, with nothing freed yet in the ghost log. -/
def FreeListOk (m : Kmem) : Prop :=
  m.freelist.Nodup ∧ 0 < m.kend ∧ m.kfreed = [] ∧
    ∀ v ∈ m.freelist, v % PGSIZE = 0 ∧ m.kend ≤ v ∧ V2P v < PHYSTOP

/-- The states the kernel boots into. -/
def Boot (k : Kernel) : Prop := ∃ m, FreeListOk m ∧ userinit m = .ok k

/-- A reachable kernel state. -/
def Kernel.Reachable : Kernel → Prop := Run.Reachable Kernel.step Boot

/-- The run of `ls` from the state `userinit` boots into on the free list `m`. -/
def bootRun (m : Kmem) (ls : List (Fin NPROC × Syscall)) : Option Kernel :=
  (userinit m).toOption.bind fun k => Run.exec Kernel.step k ls

/-- An observation of a run from boot is an observation of a reachable state. -/
theorem exists_reachable_of_bootRun {β : Type*} {m : Kmem} (hm : FreeListOk m)
    (ls : List (Fin NPROC × Syscall)) {f : Kernel → β} {b : β}
    (h : (bootRun m ls).map f = some b) : ∃ k, Kernel.Reachable k ∧ f k = b := by
  unfold bootRun at h
  cases hk : userinit m with
  | error e => rw [hk] at h; cases h
  | ok k =>
    rw [hk] at h
    exact Run.exists_reachable_of_exec_map ls ⟨m, hm, hk⟩ h

/-- A free list in the order `kinit2` leaves its top pages: the highest page first. -/
def bootMem : Kmem :=
  ⟨(List.range 200).map fun i => P2V PHYSTOP - (i + 1) * PGSIZE, 0x80400000, []⟩

theorem bootMem_ok : FreeListOk bootMem := by
  refine ⟨?_, by decide, rfl, ?_⟩
  · refine List.Nodup.map_on (fun i hi j hj hij => ?_) List.nodup_range
    simp only [List.mem_range] at hi hj
    simp only [P2V, wrap, UINT, KERNBASE, PHYSTOP, PGSIZE] at hij
    omega
  · intro v hv
    simp only [bootMem, List.mem_map, List.mem_range] at hv
    obtain ⟨i, hi, rfl⟩ := hv
    simp only [bootMem, P2V, V2P, wrap, UINT, KERNBASE, PHYSTOP, PGSIZE]
    omega

end Xv6Lab
