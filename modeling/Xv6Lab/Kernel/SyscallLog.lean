import Xv6Lab.Kernel.ProcSpec

/-!
# The system-call log (`syscall.c`, `proc.c`)

After a system call's handler returns, `syscall()` logs it: a node for the global list
`first_proc`/`last_proc`, and a node for each of the two lists of the caller's
`syscalls[num-1]` (`datelist`, `arglist`), each a fresh `kalloc` page written through at once;
then `count++`.  `allocproc` zeroes a taken slot's counts and nothing ever frees a log page.
Nodes are page addresses (`0` is null); `SysLog.next` is the `next` field of the node in each
page and `SysLog.entry` what a global node records.

* `syscallLog_ok_freelist` — a logged call takes exactly three pages off the free list;
  `syscallLog_error` — the only way logging fails is a store through a null pointer;
* `LoggedKernel` — the kernel machine with `syscall()`'s logging after every call that returns;
* `syscall_log_runs_dry` — from every reachable state, a live process that keeps calling
  `sbrk(0)` reaches a call whose logging stores through the `0` that `kalloc` returned;
* `get_syscall_count_out_of_range` — `get_syscall_count` indexes `syscalls[sysnum-1]` without a
  check: for a `sysnum` outside `1..41` and a pid some slot has, it reads outside the array.
-/

namespace Xv6Lab

open Scan Run

/-- `SYS_CALL_COUNT`: the entries of `syscalls[]`. -/
abbrev SYS_CALL_COUNT : ℕ := 41

/-- `struct systemcall` as `syscall()` keeps it: the count, and the heads and ends of the two
lists. -/
structure SysStat where
  count : ℕ
  datelist : ℕ
  datelistEnd : ℕ
  arglist : ℕ
  arglistEnd : ℕ
  deriving DecidableEq, Repr

/-- The log: `first_proc`, `last_proc`, the `next` field and the record of the node in each page,
and every slot's `syscalls[]`. -/
structure SysLog where
  firstProc : ℕ
  lastProc : ℕ
  next : ℕ → ℕ
  /-- A global node's call number and pid. -/
  entry : ℕ → ℕ × ℤ
  syscalls : Fin NPROC → Fin SYS_CALL_COUNT → SysStat

/-- The zero-initialised globals and process table. -/
def SysLog.empty : SysLog := ⟨0, 0, fun _ => 0, fun _ => (0, 0), fun _ _ => ⟨0, 0, 0, 0, 0⟩⟩

namespace SysLog

/-- `x->next = v`: a store through `x`. -/
def setNext (l : SysLog) (what : String) (x v : ℕ) : Except Crash SysLog :=
  if x = 0 then .error (.nullDeref what) else .ok { l with next := Function.update l.next x v }

/-- The stores of a global node's name, date and pid through `x`. -/
def setEntry (l : SysLog) (what : String) (x : ℕ) (e : ℕ × ℤ) : Except Crash SysLog :=
  if x = 0 then .error (.nullDeref what) else .ok { l with entry := Function.update l.entry x e }

/-- Replace `syscalls[i]` of slot `p`. -/
def setStat (l : SysLog) (p : Fin NPROC) (i : Fin SYS_CALL_COUNT) (st : SysStat) : SysLog :=
  { l with syscalls := Function.update l.syscalls p (Function.update (l.syscalls p) i st) }

end SysLog

/-- The global list's half of the logging: a node for call `num` by `pid`, appended after
`last_proc` (or as `first_proc`). -/
def logNode (l : SysLog) (m : Kmem) (num : ℕ) (pid : ℤ) : Except Crash (SysLog × Kmem) := do
  let (m, pg) := kalloc m
  if l.firstProc = 0 then
    let l ← l.setEntry "first_proc" pg (num, pid)
    let l ← l.setNext "first_proc" pg 0
    .ok ({ l with firstProc := pg, lastProc := pg }, m)
  else
    let l ← l.setNext "last_proc" l.lastProc pg
    let l ← l.setEntry "last_proc->next" pg (num, pid)
    let l ← l.setNext "last_proc->next" pg 0
    .ok ({ l with lastProc := pg }, m)

/-- The caller's half: fresh heads for the first call since `allocproc`, else nodes appended
after `datelist_end` and `arglist_end`; then `count++` (a `uint`). -/
def logStat (l : SysLog) (m : Kmem) (p : Fin NPROC) (i : Fin SYS_CALL_COUNT) :
    Except Crash (SysLog × Kmem) := do
  let st := l.syscalls p i
  if st.count = 0 then
    let (m, d) := kalloc m
    let l ← l.setNext "datelist" d 0
    let (m, a) := kalloc m
    let l ← l.setNext "arglist" a 0
    .ok (l.setStat p i ⟨(st.count + 1) % UINT, d, d, a, a⟩, m)
  else
    let (m, d) := kalloc m
    let l ← l.setNext "datelist_end" st.datelistEnd d
    let l ← l.setNext "datelist_end->next" d 0
    let (m, a) := kalloc m
    let l ← l.setNext "arglist_end" st.arglistEnd a
    let l ← l.setNext "arglist_end->next" a 0
    .ok (l.setStat p i ⟨(st.count + 1) % UINT, st.datelist, d, st.arglist, a⟩, m)

/-- The logging `syscall()` does after `syscalls[num]()` returned, for `num = i + 1` by the
process in slot `p` with pid `pid`.  (`cmostime` and `fill_arglist` then write through the new
end nodes.) -/
def syscallLog (l : SysLog) (m : Kmem) (p : Fin NPROC) (pid : ℤ) (i : Fin SYS_CALL_COUNT) :
    Except Crash (SysLog × Kmem) := do
  let (l, m) ← logNode l m (i.val + 1) pid
  logStat l m p i

/-! ### Pages taken, and how logging fails -/

theorem kalloc_of_ne_zero {m m' : Kmem} {pg : ℕ} (hk : kalloc m = (m', pg)) (h : pg ≠ 0) :
    m.freelist = pg :: m'.freelist := by
  unfold kalloc at hk
  split at hk
  · cases hk
    exact absurd rfl h
  · rename_i r rs hm
    cases hk
    exact hm

theorem setNext_ok {l l' : SysLog} {what : String} {x v : ℕ} (h : l.setNext what x v = .ok l') :
    x ≠ 0 := by
  unfold SysLog.setNext at h
  split at h
  · cases h
  · assumption

theorem setEntry_ok {l l' : SysLog} {what : String} {x : ℕ} {e : ℕ × ℤ}
    (h : l.setEntry what x e = .ok l') : x ≠ 0 := by
  unfold SysLog.setEntry at h
  split at h
  · cases h
  · assumption

theorem setNext_error {l : SysLog} {what : String} {x v : ℕ} {e : Crash}
    (h : l.setNext what x v = .error e) : e = .nullDeref what := by
  unfold SysLog.setNext at h
  split at h
  · cases h
    rfl
  · cases h

theorem setEntry_error {l : SysLog} {what : String} {x : ℕ} {e' : ℕ × ℤ} {e : Crash}
    (h : l.setEntry what x e' = .error e) : e = .nullDeref what := by
  unfold SysLog.setEntry at h
  split at h
  · cases h
    rfl
  · cases h

/-- `logNode` takes one page, the node it writes. -/
theorem logNode_ok_freelist {l l' : SysLog} {m m' : Kmem} {num : ℕ} {pid : ℤ}
    (h : logNode l m num pid = .ok (l', m')) : ∃ a, a ≠ 0 ∧ m.freelist = a :: m'.freelist := by
  unfold logNode at h
  cases hk : kalloc m with
  | mk m₁ pg =>
    simp only [hk] at h
    split at h
    · obtain ⟨l₁, h₁, h⟩ := except_bind_eq_ok.mp h
      obtain ⟨l₂, -, h⟩ := except_bind_eq_ok.mp h
      cases h
      have ha := setEntry_ok h₁
      exact ⟨pg, ha, kalloc_of_ne_zero hk ha⟩
    · obtain ⟨l₁, -, h⟩ := except_bind_eq_ok.mp h
      obtain ⟨l₂, h₂, h⟩ := except_bind_eq_ok.mp h
      obtain ⟨l₃, -, h⟩ := except_bind_eq_ok.mp h
      cases h
      have ha := setEntry_ok h₂
      exact ⟨pg, ha, kalloc_of_ne_zero hk ha⟩

/-- `logStat` takes two pages, the date node and the argument node. -/
theorem logStat_ok_freelist {l l' : SysLog} {m m' : Kmem} {p : Fin NPROC} {i : Fin SYS_CALL_COUNT}
    (h : logStat l m p i = .ok (l', m')) :
    ∃ d a, d ≠ 0 ∧ a ≠ 0 ∧ m.freelist = d :: a :: m'.freelist := by
  unfold logStat at h
  cases hk : kalloc m with
  | mk m₁ d =>
    simp only [hk] at h
    split at h
    · obtain ⟨l₁, h₁, h⟩ := except_bind_eq_ok.mp h
      cases hk₂ : kalloc m₁ with
      | mk m₂ a =>
        simp only [hk₂] at h
        obtain ⟨l₂, h₂, h⟩ := except_bind_eq_ok.mp h
        cases h
        have hd := setNext_ok h₁
        have ha := setNext_ok h₂
        exact ⟨d, a, hd, ha, by rw [kalloc_of_ne_zero hk hd, kalloc_of_ne_zero hk₂ ha]⟩
    · obtain ⟨l₁, -, h⟩ := except_bind_eq_ok.mp h
      obtain ⟨l₂, h₂, h⟩ := except_bind_eq_ok.mp h
      cases hk₂ : kalloc m₁ with
      | mk m₂ a =>
        simp only [hk₂] at h
        obtain ⟨l₃, -, h⟩ := except_bind_eq_ok.mp h
        obtain ⟨l₄, h₄, h⟩ := except_bind_eq_ok.mp h
        cases h
        have hd := setNext_ok h₂
        have ha := setNext_ok h₄
        exact ⟨d, a, hd, ha, by rw [kalloc_of_ne_zero hk hd, kalloc_of_ne_zero hk₂ ha]⟩

/-- **A logged call takes three pages off the free list**, and none of them is null. -/
theorem syscallLog_ok_freelist {l l' : SysLog} {m m' : Kmem} {p : Fin NPROC} {pid : ℤ}
    {i : Fin SYS_CALL_COUNT} (h : syscallLog l m p pid i = .ok (l', m')) :
    m.freelist.length = m'.freelist.length + 3 := by
  obtain ⟨⟨l₁, m₁⟩, h₁, h₂⟩ := except_bind_eq_ok.mp h
  obtain ⟨g, -, hg⟩ := logNode_ok_freelist h₁
  obtain ⟨d, a, -, -, hda⟩ := logStat_ok_freelist h₂
  rw [hg, hda]
  rfl

theorem logNode_error {l : SysLog} {m : Kmem} {num : ℕ} {pid : ℤ} {e : Crash}
    (h : logNode l m num pid = .error e) : ∃ w, e = .nullDeref w := by
  unfold logNode at h
  cases hk : kalloc m with
  | mk m₁ pg =>
    simp only [hk] at h
    split at h
    · rcases except_bind_eq_error.mp h with h₁ | ⟨l₁, -, h⟩
      · exact ⟨_, setEntry_error h₁⟩
      rcases except_bind_eq_error.mp h with h₂ | ⟨l₂, -, h⟩
      · exact ⟨_, setNext_error h₂⟩
      · cases h
    · rcases except_bind_eq_error.mp h with h₁ | ⟨l₁, -, h⟩
      · exact ⟨_, setNext_error h₁⟩
      rcases except_bind_eq_error.mp h with h₂ | ⟨l₂, -, h⟩
      · exact ⟨_, setEntry_error h₂⟩
      rcases except_bind_eq_error.mp h with h₃ | ⟨l₃, -, h⟩
      · exact ⟨_, setNext_error h₃⟩
      · cases h

theorem logStat_error {l : SysLog} {m : Kmem} {p : Fin NPROC} {i : Fin SYS_CALL_COUNT} {e : Crash}
    (h : logStat l m p i = .error e) : ∃ w, e = .nullDeref w := by
  unfold logStat at h
  cases hk : kalloc m with
  | mk m₁ d =>
    simp only [hk] at h
    split at h
    · rcases except_bind_eq_error.mp h with h₁ | ⟨l₁, -, h⟩
      · exact ⟨_, setNext_error h₁⟩
      cases hk₂ : kalloc m₁ with
      | mk m₂ a =>
        simp only [hk₂] at h
        rcases except_bind_eq_error.mp h with h₂ | ⟨l₂, -, h⟩
        · exact ⟨_, setNext_error h₂⟩
        · cases h
    · rcases except_bind_eq_error.mp h with h₁ | ⟨l₁, -, h⟩
      · exact ⟨_, setNext_error h₁⟩
      rcases except_bind_eq_error.mp h with h₂ | ⟨l₂, -, h⟩
      · exact ⟨_, setNext_error h₂⟩
      cases hk₂ : kalloc m₁ with
      | mk m₂ a =>
        simp only [hk₂] at h
        rcases except_bind_eq_error.mp h with h₃ | ⟨l₃, -, h⟩
        · exact ⟨_, setNext_error h₃⟩
        rcases except_bind_eq_error.mp h with h₄ | ⟨l₄, -, h⟩
        · exact ⟨_, setNext_error h₄⟩
        · cases h

/-- **Logging fails only by a store through a null pointer.** -/
theorem syscallLog_error {l : SysLog} {m : Kmem} {p : Fin NPROC} {pid : ℤ}
    {i : Fin SYS_CALL_COUNT} {e : Crash} (h : syscallLog l m p pid i = .error e) :
    ∃ w, e = .nullDeref w := by
  rcases except_bind_eq_error.mp h with h₁ | ⟨⟨l₁, m₁⟩, -, h₂⟩
  · exact logNode_error h₁
  · exact logStat_error h₂

/-- With fewer than three free pages, logging stores through a null pointer. -/
theorem syscallLog_of_short {l : SysLog} {m : Kmem} {p : Fin NPROC} {pid : ℤ}
    {i : Fin SYS_CALL_COUNT} (hm : m.freelist.length < 3) :
    ∃ w, syscallLog l m p pid i = .error (.nullDeref w) := by
  cases h : syscallLog l m p pid i with
  | error e =>
    obtain ⟨w, rfl⟩ := syscallLog_error h
    exact ⟨w, rfl⟩
  | ok r =>
    have := syscallLog_ok_freelist h
    omega

/-! ### The kernel with its log -/

/-- The number `syscall()` dispatches on, less one: the index of the call's `syscalls[]` entry. -/
def Syscall.index : Syscall → Fin SYS_CALL_COUNT
  | .fork => 0
  | .exit => 1
  | .wait => 2
  | .kill _ => 5
  | .sbrk _ => 11
  | .shmInit => 37
  | .shmOpen _ _ _ => 38
  | .shmAttach _ => 39
  | .shmClose _ => 40

/-- `allocproc`'s `for (i = 0; i < 41; ++i) p->syscalls[i].count = 0;` in the slot it takes; the
lists' pointers stay as they were. -/
def SysLog.allocReset (l : SysLog) (k : Kernel) : SysLog :=
  match firstIdx NPROC fun q => (k.proc q).state == .unused with
  | none => l
  | some q =>
    { l with syscalls := Function.update l.syscalls q fun i => { l.syscalls q i with count := 0 } }

/-- The kernel and the log. -/
structure LoggedKernel where
  k : Kernel
  log : SysLog

namespace LoggedKernel

/-- One system call by slot `p` through `syscall()`: the handler, then the logging, which `exit`
never returns to. -/
def call (s : LoggedKernel) (p : Fin NPROC) (c : Syscall) : Option (Except Crash LoggedKernel) :=
  let log := if c = .fork then s.log.allocReset s.k else s.log
  (s.k.sysStep p c).map fun r => do
    let k ← r
    if c = .exit then .ok ⟨k, log⟩
    else
      let (log, m) ← syscallLog log k.kmem p (k.proc p).pid c.index
      .ok ⟨{ k with kmem := m }, log⟩

/-- The step function of runs: a call that crashes ends the run. -/
def step (s : LoggedKernel) (l : Fin NPROC × Syscall) : Option LoggedKernel :=
  (s.call l.1 l.2).bind fun r => match r with
    | .ok s' => some s'
    | .error _ => none

/-- Booted, with the log's zero-initialised globals. -/
def init (s : LoggedKernel) : Prop := Boot s.k ∧ s.log = SysLog.empty

/-- A reachable state of the kernel with its log. -/
def Reachable : LoggedKernel → Prop := Run.Reachable step init

/-- `sbrk(0)` by a live process changes nothing but the log and the pages it takes. -/
theorem call_sbrk_zero {s : LoggedKernel} {p : Fin NPROC} (hp : s.k.live p = true) :
    s.call p (.sbrk 0) = some ((syscallLog s.log s.k.kmem p (s.k.proc p).pid 11).map
      fun r => ⟨{ s.k with kmem := r.2 }, r.1⟩) := by
  have hg : growproc s.k p 0 = .ok (s.k, 0) := by simp [growproc]
  simp only [call, reduceCtorEq, if_false, Kernel.sysStep, hp, if_true, hg, Except.map,
    Option.map_some, except_ok_bind, Syscall.index]
  cases syscallLog s.log s.k.kmem p (s.k.proc p).pid 11 <;> rfl

/-- **Logging runs dry**: a live process that keeps calling `sbrk(0)` reaches a call whose
logging stores through a null pointer, within a third of the free pages' count of calls. -/
theorem runs_dry (p : Fin NPROC) :
    ∀ n (s : LoggedKernel), s.k.kmem.freelist.length ≤ n → s.k.live p = true →
      ∃ j t w, j ≤ n / 3 ∧ Run.exec step s (List.replicate j (p, .sbrk 0)) = some t ∧
        t.call p (.sbrk 0) = some (.error (.nullDeref w)) := by
  intro n
  induction n using Nat.strong_induction_on with
  | _ n ih =>
    intro s hn hp
    cases hlog : syscallLog s.log s.k.kmem p (s.k.proc p).pid 11 with
    | error e =>
      -- this call already stores through null
      obtain ⟨w, rfl⟩ := syscallLog_error hlog
      refine ⟨0, s, w, Nat.zero_le _, rfl, ?_⟩
      rw [call_sbrk_zero hp, hlog]
      rfl
    | ok r =>
      obtain ⟨l, m⟩ := r
      have hlen := syscallLog_ok_freelist hlog
      let t : LoggedKernel := ⟨{ s.k with kmem := m }, l⟩
      have hstep : step s (p, .sbrk 0) = some t := by
        simp only [step, call_sbrk_zero hp, hlog]
        rfl
      obtain ⟨j, u, w, hj, hrun, hcall⟩ := ih (n - 3) (by omega) t (by simp [t]; omega) hp
      refine ⟨j + 1, u, w, by omega, ?_, hcall⟩
      rw [List.replicate_succ, exec_cons, hstep, Option.bind_some]
      exact hrun

end LoggedKernel

/-- From every reachable state, a live process that keeps calling `sbrk(0)` reaches, through
reachable states, a call whose logging stores through the `0` that `kalloc` returned. -/
theorem syscall_log_runs_dry {s : LoggedKernel} (hs : s.Reachable) {p : Fin NPROC}
    (hp : s.k.live p = true) :
    ∃ j t w, Run.exec LoggedKernel.step s (List.replicate j (p, .sbrk 0)) = some t ∧
      t.Reachable ∧ t.call p (.sbrk 0) = some (.error (.nullDeref w)) := by
  obtain ⟨j, t, w, -, hrun, hcall⟩ :=
    LoggedKernel.runs_dry p s.k.kmem.freelist.length s le_rfl hp
  exact ⟨j, t, w, hrun, Reachable.exec _ hs hrun, hcall⟩

/-- An observation of the state `userinit` boots into on `bootMem`. -/
theorem exists_boot_map {β : Type*} {f : Kernel → β} {b : β}
    (h : (userinit bootMem).toOption.map f = some b) : ∃ k, Boot k ∧ f k = b := by
  cases hk : userinit bootMem with
  | error e =>
    rw [hk] at h
    cases h
  | ok k =>
    rw [hk] at h
    exact ⟨k, ⟨bootMem, bootMem_ok, hk⟩, Option.some.inj h⟩

/-- Booted, the first process's `sbrk(0)` calls run the free list dry. -/
theorem syscall_log_runs_dry_boot :
    ∃ s : LoggedKernel, s.Reachable ∧ s.k.live 0 = true ∧
      ∃ j t w, Run.exec LoggedKernel.step s (List.replicate j (0, .sbrk 0)) = some t ∧
        t.Reachable ∧ t.call 0 (.sbrk 0) = some (.error (.nullDeref w)) := by
  obtain ⟨k, hk, hlive⟩ := exists_boot_map (f := fun k => k.live 0) (b := true) (by decide)
  have hs : LoggedKernel.Reachable ⟨k, SysLog.empty⟩ := Reachable.init ⟨hk, rfl⟩
  exact ⟨_, hs, hlive, syscall_log_runs_dry hs hlive⟩

/-! ### `get_syscall_count` -/

/-- `p->syscalls[sysnum-1].count`, an unchecked index. -/
def getCount (stats : Fin SYS_CALL_COUNT → SysStat) (j : ℤ) : Except Crash ℕ :=
  if h : 0 ≤ j ∧ j < SYS_CALL_COUNT then .ok (stats ⟨j.toNat, by omega⟩).count
  else .error (.outOfBounds "syscalls" j)

/-- A `uint` returned as an `int`. -/
def uintToInt (x : ℕ) : ℤ := if x < 2 ^ 31 then x else (x : ℤ) - UINT

/-- `get_syscall_count(pid, sysnum)`: every slot with the pid reads its count (the last one
read is returned); `-1` when no slot has the pid. -/
def get_syscall_count (k : Kernel) (l : SysLog) (pid sysnum : ℤ) : Except Crash ℤ := do
  let (count, status) ← (List.finRange NPROC).foldlM (fun (acc : ℕ × ℤ) p =>
    if (k.proc p).pid = pid then do
      let c ← getCount (l.syscalls p) (sysnum - 1)
      .ok (c, 0)
    else .ok acc) (0, -1)
  if status = -1 then .ok (-1) else .ok (uintToInt count)

theorem getCount_out_of_range (stats : Fin SYS_CALL_COUNT → SysStat) {j : ℤ}
    (hj : ¬ (0 ≤ j ∧ j < SYS_CALL_COUNT)) :
    getCount stats j = .error (.outOfBounds "syscalls" j) := by
  unfold getCount
  rw [dif_neg hj]

/-- The loop of `get_syscall_count` crashes at the first slot with the pid when the index is
outside `syscalls[]`. -/
theorem countLoop_out_of_range {k : Kernel} {l : SysLog} {pid j : ℤ}
    (hj : ¬ (0 ≤ j ∧ j < SYS_CALL_COUNT)) :
    ∀ (ps : List (Fin NPROC)) (acc : ℕ × ℤ), (∃ q ∈ ps, (k.proc q).pid = pid) →
      ps.foldlM (fun (acc : ℕ × ℤ) p =>
        if (k.proc p).pid = pid then do
          let c ← getCount (l.syscalls p) j
          .ok (c, 0)
        else .ok acc) acc = .error (.outOfBounds "syscalls" j) := by
  intro ps
  induction ps with
  | nil =>
    rintro acc ⟨q, hq, -⟩
    cases hq
  | cons p ps ih =>
    rintro acc ⟨q, hq, hpid⟩
    by_cases hp : (k.proc p).pid = pid
    · simp only [List.foldlM_cons, hp, if_true, getCount_out_of_range _ hj, except_error_bind]
    · have hq' : q ∈ ps := by
        rcases List.mem_cons.mp hq with rfl | hq
        · exact absurd hpid hp
        · exact hq
      simp only [List.foldlM_cons, hp, if_false, except_ok_bind]
      exact ih acc ⟨q, hq', hpid⟩

/-- **`get_syscall_count` does not check `sysnum`**: for a `sysnum` outside `1..41` and a pid that
some slot has, it reads `syscalls[sysnum-1]` outside the array instead of returning `-1`. -/
theorem get_syscall_count_out_of_range (k : Kernel) (l : SysLog) {pid sysnum : ℤ}
    (hpid : ∃ q, (k.proc q).pid = pid) (hnum : sysnum < 1 ∨ (SYS_CALL_COUNT : ℤ) < sysnum) :
    get_syscall_count k l pid sysnum = .error (.outOfBounds "syscalls" (sysnum - 1)) := by
  have hj : ¬ (0 ≤ sysnum - 1 ∧ sysnum - 1 < SYS_CALL_COUNT) := by omega
  obtain ⟨q, hq⟩ := hpid
  unfold get_syscall_count
  rw [countLoop_out_of_range hj _ _ ⟨q, List.mem_finRange q, hq⟩]
  rfl

/-- Booted, `get_syscall_count(1, 0)` for the first process reads `syscalls[-1]`. -/
theorem get_syscall_count_zero_boot :
    ∃ s : LoggedKernel, s.Reachable ∧ (∃ q, (s.k.proc q).pid = 1) ∧
      get_syscall_count s.k s.log 1 0 = .error (.outOfBounds "syscalls" (-1)) := by
  obtain ⟨k, hk, hpid⟩ := exists_boot_map (f := fun k => (k.proc 0).pid) (b := 1) (by decide)
  exact ⟨⟨k, SysLog.empty⟩, Reachable.init ⟨hk, rfl⟩, ⟨0, hpid⟩,
    get_syscall_count_out_of_range k SysLog.empty ⟨0, hpid⟩ (.inl (by decide))⟩

end Xv6Lab
