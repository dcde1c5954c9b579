import Xv6Lab.Kernel.Proc
import Xv6Lab.Kernel.VmSpec
import Xv6Lab.Pipe.Pipe
import Xv6Lab.Fs.Layout
import Xv6Lab.Lib.Tally

/-!
# Open files, descriptors and pipe pages (`file.c`, `sysfile.c`, `pipe.c`, `proc.c`)

A `struct file` is shared: `ftable.file[NFILE]` holds them, each process's `ofile[NOFILE]`
points into it, and `ref` is meant to count those pointers.  `filealloc` takes a slot whose `ref`
is `0`, `filedup` and `fileclose` move `ref` by one and panic when it is below `1`, and the last
`fileclose` resets the slot and closes what the file held: for a pipe, its end, by `pipeclose`,
which gives the pipe's page back to `kfree` once both ends are closed.

`FileTable` is what `file.c` and `pipe.c` act on: the file table, the `struct pipe` at the start
of each page, and the page allocator the pipes take their pages from (the pages the rest of the
kernel takes and gives back are not part of this model).  `FileSys` adds each process slot's
descriptors, state and parent, and `initproc`.  Each call is atomic: `ftable.lock` covers the
table, and a file a call has taken but not yet installed, or a descriptor it is filling, is
reachable from no other process.

* `sys_open` — over the inode `namei` or `create` resolved the path to, an input of the call;
* `sys_dup`, `sys_close`, and `sys_pipe` with `pipealloc`;
* `fork` — the first `UNUSED` slot gets a `filedup` of each open descriptor (whether its kernel
  stack and `copyuvm` succeed is an input); `exit` — `fileclose` of each open descriptor, then
  `ZOMBIE`; `wait` — reaps the first zombie child.
-/

namespace Xv6Lab

open Function Scan Tally Run

/-! ### Parameters and `struct file` -/

/-- `NOFILE`: open files per process. -/
abbrev NOFILE : ℕ := 16

/-- `NFILE`: open files per system. -/
abbrev NFILE : ℕ := 100

instance : NeZero NOFILE := ⟨by decide⟩

instance : NeZero NFILE := ⟨by decide⟩

/-- The open modes of `fcntl.h`. -/
def O_RDONLY : ℕ := 0x000
def O_WRONLY : ℕ := 0x001
def O_RDWR : ℕ := 0x002
def O_CREATE : ℕ := 0x200

/-- `enum { FD_NONE, FD_PIPE, FD_INODE }`. -/
inductive FdType where
  | none
  | pipe
  | inode
  deriving DecidableEq, Repr

/-- `struct file`: `pipe` is the address of the pipe's page and `ip` names the in-memory inode
(the inode cache is not modelled); `0` is a null pointer. -/
structure File where
  type : FdType
  ref : ℕ
  readable : Bool
  writable : Bool
  pipe : ℕ
  ip : ℕ
  off : ℕ
  deriving DecidableEq, Repr

/-- A slot of the zero-initialised `ftable`. -/
def File.zero : File := ⟨.none, 0, false, false, 0, 0, 0⟩

/-- The flag of one end of a pipe: `writeopen` for the write end, `readopen` for the read end. -/
def Pipe.isOpen (p : Pipe) (writable : Bool) : Bool := if writable then p.writeopen else p.readopen

/-- What `file.c` and `pipe.c` act on. -/
structure FileTable where
  /-- `ftable.file`. -/
  file : Fin NFILE → File
  /-- The `struct pipe` at the start of each page. -/
  pipes : ℕ → Pipe
  /-- `kmem`, as far as pipes use it. -/
  kmem : Kmem

/-- The state the descriptor calls act on. -/
structure FileSys where
  ftable : FileTable
  /-- `proc[p].ofile`, a null pointer as `none`. -/
  ofile : Fin NPROC → Fin NOFILE → Option (Fin NFILE)
  /-- `proc[p].state`. -/
  state : Fin NPROC → ProcState
  /-- `proc[p].parent`. -/
  parent : Fin NPROC → Option (Fin NPROC)
  initproc : Fin NPROC

namespace FileTable

/-- Replace file `f`. -/
def setFile (t : FileTable) (f : Fin NFILE) (x : File) : FileTable :=
  { t with file := update t.file f x }

@[simp] theorem setFile_file (t : FileTable) (f : Fin NFILE) (x : File) :
    (t.setFile f x).file = update t.file f x := rfl

@[simp] theorem setFile_pipes (t : FileTable) (f : Fin NFILE) (x : File) :
    (t.setFile f x).pipes = t.pipes := rfl

@[simp] theorem setFile_kmem (t : FileTable) (f : Fin NFILE) (x : File) :
    (t.setFile f x).kmem = t.kmem := rfl

/-! ### `file.c` and `pipe.c` -/

/-- `filealloc()`: the first slot with `ref == 0` gets `ref = 1`; `none` is the null pointer
returned when every slot is taken. -/
def filealloc (t : FileTable) : FileTable × Option (Fin NFILE) :=
  match firstIdx NFILE fun f => (t.file f).ref == 0 with
  | none => (t, none)
  | some f => (t.setFile f { t.file f with ref := 1 }, some f)

/-- `filedup(f)`. -/
def filedup (t : FileTable) (f : Fin NFILE) : Except Crash FileTable :=
  if (t.file f).ref < 1 then .error (.panic "filedup")
  else .ok (t.setFile f { t.file f with ref := (t.file f).ref + 1 })

/-- `pipeclose(p, writable)` for the pipe in page `pg`: close one end; with both closed the
page goes back to `kfree`. -/
def pipeclose (t : FileTable) (pg : ℕ) (writable : Bool) : Except Crash FileTable :=
  let p := (t.pipes pg).pipeclose writable
  let t := { t with pipes := update t.pipes pg p }
  if p.freed then do
    let m ← kfree pg t.kmem
    .ok { t with kmem := m }
  else .ok t

/-- `fileclose(f)`: drop one reference; the last one resets the slot to `FD_NONE` and closes
what the file held. -/
def fileclose (t : FileTable) (f : Fin NFILE) : Except Crash FileTable :=
  let ff := t.file f
  if ff.ref < 1 then .error (.panic "fileclose")
  else if 0 < ff.ref - 1 then .ok (t.setFile f { ff with ref := ff.ref - 1 })
  else
    let t := t.setFile f { ff with ref := 0, type := .none }
    if ff.type = .pipe then t.pipeclose ff.pipe ff.writable
    -- `FD_INODE`: `iput(ff.ip)` in a transaction, on the inode cache this model leaves out
    else .ok t

/-- `pipealloc(&f0, &f1)`: two files and a page; the read end `f0` and the write end `f1`, or
`none` (`-1`) after giving back what was taken.  (`bad:` frees no page: `kalloc` is the last
step that can fail, so `p` is null there.) -/
def pipealloc (t : FileTable) : Except Crash (FileTable × Option (Fin NFILE × Fin NFILE)) :=
  match filealloc t with
  | (t, none) => .ok (t, none)
  | (t, some f0) =>
    match filealloc t with
    | (t, none) => do
      let t ← t.fileclose f0
      .ok (t, none)
    | (t, some f1) =>
      let (m, pg) := kalloc t.kmem
      let t := { t with kmem := m }
      if pg = 0 then do
        let t ← t.fileclose f0
        let t ← t.fileclose f1
        .ok (t, none)
      else
        let t := { t with pipes := update t.pipes pg (Pipe.alloc (t.pipes pg).data) }
        let t := t.setFile f0
          { t.file f0 with type := .pipe, readable := true, writable := false, pipe := pg }
        let t := t.setFile f1
          { t.file f1 with type := .pipe, readable := false, writable := true, pipe := pg }
        .ok (t, some (f0, f1))

end FileTable

namespace FileSys

open FileTable

/-- Set descriptor `fd` of slot `p`. -/
def setOfile (s : FileSys) (p : Fin NPROC) (fd : Fin NOFILE) (x : Option (Fin NFILE)) :
    FileSys :=
  { s with ofile := update s.ofile p (update (s.ofile p) fd x) }

@[simp] theorem setOfile_ftable (s : FileSys) (p : Fin NPROC) (fd : Fin NOFILE)
    (x : Option (Fin NFILE)) : (s.setOfile p fd x).ftable = s.ftable := rfl

@[simp] theorem setOfile_state (s : FileSys) (p : Fin NPROC) (fd : Fin NOFILE)
    (x : Option (Fin NFILE)) : (s.setOfile p fd x).state = s.state := rfl

@[simp] theorem setOfile_parent (s : FileSys) (p : Fin NPROC) (fd : Fin NOFILE)
    (x : Option (Fin NFILE)) : (s.setOfile p fd x).parent = s.parent := rfl

@[simp] theorem setOfile_initproc (s : FileSys) (p : Fin NPROC) (fd : Fin NOFILE)
    (x : Option (Fin NFILE)) : (s.setOfile p fd x).initproc = s.initproc := rfl

theorem setOfile_ofile (s : FileSys) (p : Fin NPROC) (fd : Fin NOFILE) (x : Option (Fin NFILE))
    (q : Fin NPROC) (j : Fin NOFILE) :
    (s.setOfile p fd x).ofile q j = if q = p ∧ j = fd then x else s.ofile q j := by
  by_cases hq : q = p
  · subst hq
    by_cases hj : j = fd
    · subst hj
      simp [setOfile]
    · simp [setOfile, hj]
  · simp [setOfile, hq]

/-! ### `sysfile.c` -/

/-- `fdalloc(f)` for slot `p`: the lowest free descriptor gets `f`; `none` is `-1`. -/
def fdalloc (s : FileSys) (p : Fin NPROC) (f : Fin NFILE) : FileSys × Option (Fin NOFILE) :=
  match firstIdx NOFILE fun fd => (s.ofile p fd).isNone with
  | none => (s, none)
  | some fd => (s.setOfile p fd (some f), some fd)

/-- `argfd` for the descriptor argument `fd` of slot `p`: the descriptor and its file, or
`none` for `-1`. -/
def argfd (s : FileSys) (p : Fin NPROC) (fd : ℤ) : Option (Fin NOFILE × Fin NFILE) :=
  if fd < 0 ∨ NOFILE ≤ fd then none
  else
    let i := Fin.ofNat NOFILE fd.toNat
    (s.ofile p i).map fun f => (i, f)

/-- `sys_dup` by slot `p`. -/
def sys_dup (s : FileSys) (p : Fin NPROC) (fd : ℤ) : Except Crash (FileSys × ℤ) :=
  match argfd s p fd with
  | none => .ok (s, -1)
  | some (_, f) =>
    match fdalloc s p f with
    | (_, none) => .ok (s, -1)
    | (s, some fd) => do
      let t ← s.ftable.filedup f
      .ok ({ s with ftable := t }, fd.val)

/-- `sys_close` by slot `p`. -/
def sys_close (s : FileSys) (p : Fin NPROC) (fd : ℤ) : Except Crash (FileSys × ℤ) :=
  match argfd s p fd with
  | none => .ok (s, -1)
  | some (i, f) => do
    let s := s.setOfile p i none
    let t ← s.ftable.fileclose f
    .ok ({ s with ftable := t }, 0)

/-- `sys_open` by slot `p` with the bits `omode` of its mode argument, once the path has
resolved — by `create` under `O_CREATE`, by `namei` otherwise — to the inode `ip` of type `type`
(`ip = 0` when it did not). -/
def sys_open (s : FileSys) (p : Fin NPROC) (ip type omode : ℕ) : Except Crash (FileSys × ℤ) :=
  if ip = 0 then .ok (s, -1)
  else if omode &&& O_CREATE = 0 ∧ type = T_DIR ∧ omode ≠ O_RDONLY then .ok (s, -1)
  else
    match s.ftable.filealloc with
    | (_, none) => .ok (s, -1)
    | (t, some f) =>
      match fdalloc { s with ftable := t } p f with
      | (s, none) => do
        let t ← s.ftable.fileclose f
        .ok ({ s with ftable := t }, -1)
      | (s, some fd) =>
        let t := s.ftable.setFile f { s.ftable.file f with
          type := .inode, ip := ip, off := 0, readable := omode &&& O_WRONLY == 0,
          writable := omode &&& O_WRONLY != 0 || omode &&& O_RDWR != 0 }
        .ok ({ s with ftable := t }, fd.val)

/-- `sys_pipe` by slot `p` (the two descriptors it stores for the caller are not modelled). -/
def sys_pipe (s : FileSys) (p : Fin NPROC) : Except Crash (FileSys × ℤ) := do
  let (t, r) ← s.ftable.pipealloc
  let s := { s with ftable := t }
  match r with
  | none => .ok (s, -1)
  | some (rf, wf) =>
    match fdalloc s p rf with
    | (s, none) => do
      let t ← s.ftable.fileclose rf
      let t ← t.fileclose wf
      .ok ({ s with ftable := t }, -1)
    | (s, some fd0) =>
      match fdalloc s p wf with
      | (s, none) => do
        let s := s.setOfile p fd0 none
        let t ← s.ftable.fileclose rf
        let t ← t.fileclose wf
        .ok ({ s with ftable := t }, -1)
      | (s, some _) => .ok (s, 0)

/-! ### `fork`, `exit`, `wait` -/

/-- `fork`'s descriptor loop over the descriptors `fds`: the child `np` gets a `filedup` of each
open descriptor of `cur`; its other descriptors are left as they are. -/
def forkFiles (cur np : Fin NPROC) (s : FileSys) : List (Fin NOFILE) → Except Crash FileSys
  | [] => .ok s
  | i :: is =>
    match s.ofile cur i with
    | none => forkFiles cur np s is
    | some f => do
      let t ← s.ftable.filedup f
      forkFiles cur np ({ s with ftable := t }.setOfile np i (some f)) is

/-- `fork()` by slot `cur`, as far as descriptors go: `allocproc` takes the first `UNUSED` slot,
and `ok` says whether its kernel stack and `copyuvm` were allocated. -/
def fork (s : FileSys) (cur : Fin NPROC) (ok : Bool) : Except Crash FileSys :=
  match firstIdx NPROC fun p => s.state p == .unused with
  | none => .ok s
  | some np =>
    if !ok then .ok s
    else do
      let s ← forkFiles cur np s (List.finRange NOFILE)
      .ok { s with state := update s.state np .runnable, parent := update s.parent np (some cur) }

/-- `exit`'s descriptor loop over the descriptors `fds`: `fileclose` each open one and clear
it. -/
def exitFiles (cur : Fin NPROC) (s : FileSys) : List (Fin NOFILE) → Except Crash FileSys
  | [] => .ok s
  | fd :: fds =>
    match s.ofile cur fd with
    | none => exitFiles cur s fds
    | some f => do
      let t ← s.ftable.fileclose f
      exitFiles cur ({ s with ftable := t }.setOfile cur fd none) fds

/-- `exit()` by slot `cur`: its children go to `initproc`, and it becomes a zombie. -/
def exit (s : FileSys) (cur : Fin NPROC) : Except Crash FileSys :=
  if cur = s.initproc then .error (.panic "init exiting")
  else do
    let s ← exitFiles cur s (List.finRange NOFILE)
    .ok { s with
      parent := fun p => if s.parent p = some cur then some s.initproc else s.parent p
      state := update s.state cur .zombie }

/-- `wait()` by slot `cur`: the first zombie child becomes `UNUSED`; without one the call returns
`-1` or sleeps, and neither changes this state. -/
def wait (s : FileSys) (cur : Fin NPROC) : FileSys :=
  match firstIdx NPROC fun p => s.parent p == some cur && s.state p == .zombie with
  | some p => { s with state := update s.state p .unused, parent := update s.parent p none }
  | none => s

/-! ### Runs -/

/-- The calls of the model, with what each takes from outside it. -/
inductive FileCall where
  | openInode (ip type omode : ℕ)
  | dup (fd : ℤ)
  | close (fd : ℤ)
  | pipe
  | fork (ok : Bool)
  | exit
  | wait
  deriving DecidableEq, Repr

/-- Slot `p` holds a process that can run. -/
def live (s : FileSys) (p : Fin NPROC) : Bool :=
  s.state p == .runnable || s.state p == .running

/-- One call by slot `p`. -/
def sysStep (s : FileSys) (p : Fin NPROC) : FileCall → Except Crash FileSys
  | .openInode ip type omode => (sys_open s p ip type omode).map Prod.fst
  | .dup fd => (sys_dup s p fd).map Prod.fst
  | .close fd => (sys_close s p fd).map Prod.fst
  | .pipe => (sys_pipe s p).map Prod.fst
  | .fork ok => fork s p ok
  | .exit => exit s p
  | .wait => .ok (wait s p)

/-- The step function of runs: only a live slot calls, and a crash ends the run. -/
def step (s : FileSys) (l : Fin NPROC × FileCall) : Option FileSys :=
  if s.live l.1 then
    match sysStep s l.1 l.2 with
    | .ok s' => some s'
    | .error _ => none
  else none

/-- The state after `userinit`: no file taken, no descriptor open, the first process in slot
`0` (the first `UNUSED` slot), and a free list `kalloc` can hand pages from. -/
structure Boot (s : FileSys) : Prop where
  file : ∀ f, s.ftable.file f = File.zero
  ofile : ∀ p fd, s.ofile p fd = none
  state : ∀ p, s.state p = if p = 0 then .runnable else .unused
  parent : ∀ p, s.parent p = none
  initproc : s.initproc = 0
  kmem : s.ftable.kmem.Sound

/-- A reachable state. -/
def Reachable : FileSys → Prop := Run.Reachable step Boot

end FileSys

end Xv6Lab
