import Xv6Lab.Kernel.ProcTable

/-!
# Process ids and the table's well-formedness

`allocproc()` hands out `nextpid++`, an `int`; `wait()` clears the pid of the slot it reaps, and
nothing else writes a pid.  This file proves what the pids satisfy while `nextpid` has not
wrapped, and puts it together with the process-table invariant `ProcInv`:

* `PidInv` — `nextpid` is positive, and the slots in use have distinct pids below it.  Every
  step that leaves `nextpid` positive keeps it (`PidInv.step`), so it holds along every run
  that does not wrap (`reachableNoWrap_inv`);
* `WellFormed` / `procs_well_formed` — in every such state a process is `RUNNING` exactly when
  one CPU runs it, a process past `EMBRYO` other than init has a live parent, the pids in use
  are distinct, a scheduler switches only to a `RUNNABLE` process, and a `wait` that returns a
  pid has reaped a `ZOMBIE` child with that pid, which no process in use keeps;
* `procs_wrong` — over every reachable state two of these fail: a `fork` between `allocproc`
  and `np->parent = curproc` holds an `EMBRYO` without a parent, and `2^32 - 1` pids after
  boot (here spent by `fork`s whose `copyuvm` fails) `allocproc` hands out init's pid `1`.
-/

namespace Xv6Lab.Procs

open Function Scan Run PTable

/-! ### The pids a step keeps -/

/-- `e'` keeps the pid of `e` if it is in use: a slot in use after a step was in use before it,
with the same pid. -/
def Slot.PidKept (e e' : Slot) : Prop :=
  e'.state ≠ .unused → e.state ≠ .unused ∧ e'.pid = e.pid

theorem Slot.PidKept.refl (e : Slot) : e.PidKept e := fun h => ⟨h, rfl⟩

theorem Slot.PidKept.of_state {e e' : Slot} (hs : e'.state = e.state) (hp : e'.pid = e.pid) :
    e.PidKept e' := fun h => ⟨hs ▸ h, hp⟩

theorem Slot.PidKept.of_used {e e' : Slot} (hs : e.state ≠ .unused) (hp : e'.pid = e.pid) :
    e.PidKept e' := fun _ => ⟨hs, hp⟩

theorem Slot.PidKept.of_unused {e e' : Slot} (hs : e'.state = .unused) : e.PidKept e' :=
  fun h => absurd hs h

/-- A wakeup leaves a slot in use, and its pid. -/
theorem Slot.Woken.ne_unused {e e' : Slot} (h : e.Woken e') (hu : e.state ≠ .unused) :
    e'.state ≠ .unused := by
  rcases h.2.2 with hs | ⟨-, hs⟩
  · rwa [hs]
  · rw [hs]
    nofun

theorem Slot.Woken.pidKept {e e' : Slot} (h : e.Woken e') : e.PidKept e' := by
  intro hu
  refine ⟨?_, h.1⟩
  rcases h.2.2 with hs | ⟨hs, -⟩
  · rwa [← hs]
  · rw [hs]
    nofun

/-! ### The pid invariant -/

/-- What the pids of a table reached without wrapping `nextpid` satisfy. -/
structure PidInv (t : PTable) : Prop where
  /-- `nextpid` has not wrapped, -/
  next_pos : 0 < t.nextpid
  next_lt : t.nextpid < 2 ^ 31
  /-- a slot in use holds a pid handed out before, -/
  pid_lt : ∀ p, (t.proc p).state ≠ .unused → 0 < (t.proc p).pid ∧ (t.proc p).pid < t.nextpid
  /-- and no two slots in use share one. -/
  pid_inj : ∀ p q, (t.proc p).state ≠ .unused → (t.proc q).state ≠ .unused →
    (t.proc p).pid = (t.proc q).pid → p = q

namespace PidInv

variable {t t' : PTable}

/-- A step that keeps `nextpid` and the pid of every slot it leaves in use keeps the invariant. -/
theorem of_kept (h : PidInv t) (hn : t'.nextpid = t.nextpid)
    (hk : ∀ p, (t.proc p).PidKept (t'.proc p)) : PidInv t' where
  next_pos := hn ▸ h.next_pos
  next_lt := hn ▸ h.next_lt
  pid_lt p hp := by
    obtain ⟨hu, hpid⟩ := hk p hp
    rw [hpid, hn]
    exact h.pid_lt p hu
  pid_inj p q hp hq hpq := by
    obtain ⟨hu, hpid⟩ := hk p hp
    obtain ⟨hu', hpid'⟩ := hk q hq
    rw [hpid, hpid'] at hpq
    exact h.pid_inj p q hu hu' hpq

theorem setProc (h : PidInv t) {r : Fin NPROC} {e : Slot} (he : (t.proc r).PidKept e) :
    PidInv (t.setProc r e) :=
  h.of_kept rfl fun p => by
    by_cases hp : p = r
    · rw [hp, setProc_self]
      exact he
    · rw [setProc_ne _ _ hp]
      exact .refl _

theorem setCpu (h : PidInv t) (c : Fin NCPU) (u : Cpu) : PidInv (t.setCpu c u) :=
  h.of_kept rfl fun _ => .refl _

theorem of_woken (h : PidInv t) (hn : t'.nextpid = t.nextpid)
    (hw : ∀ p, (t.proc p).Woken (t'.proc p)) : PidInv t' :=
  h.of_kept hn fun p => (hw p).pidKept

/-- Handing out `nextpid` to a slot `q` and moving `nextpid` up by one keeps the invariant, when
`nextpid + 1` does not wrap: the new pid is above every pid in use. -/
theorem of_alloc (h : PidInv t) {q : Fin NPROC} (hq : (t'.proc q).pid = t.nextpid)
    (hother : ∀ p, p ≠ q → t'.proc p = t.proc p) (hn : t'.nextpid = t.nextpid + 1)
    (hlt : t.nextpid + 1 < 2 ^ 31) : PidInv t' := by
  have hpos := h.next_pos
  -- a slot other than `q` in use holds a pid below the old `nextpid`
  have hold : ∀ p, p ≠ q → (t'.proc p).state ≠ .unused →
      0 < (t'.proc p).pid ∧ (t'.proc p).pid < t.nextpid := fun p hp hu => by
    rw [hother p hp] at hu ⊢
    exact h.pid_lt p hu
  refine ⟨by omega, by omega, fun p hp => ?_, fun p p' hp hp' hpp' => ?_⟩
  · rw [hn]
    by_cases hpq : p = q
    · rw [hpq, hq]
      omega
    · have := hold p hpq hp
      omega
  · by_cases hpq : p = q <;> by_cases hpq' : p' = q
    · rw [hpq, hpq']
    · have := hold p' hpq' hp'
      rw [hpq, hq] at hpp'
      omega
    · have := hold p hpq hp
      rw [hpq', hq] at hpp'
      omega
    · rw [hother p hpq] at hp hpp'
      rw [hother p' hpq'] at hp' hpp'
      exact h.pid_inj p p' hp hp' hpp'

/-- `allocproc` keeps the invariant when `nextpid++` does not wrap. -/
theorem allocproc (h : PidInv t) (hpos : 0 < t.allocproc.1.nextpid) : PidInv t.allocproc.1 := by
  rcases hal : t.allocproc with ⟨t₁, _ | q⟩
  · rw [allocproc_eq_none hal]
    exact h
  · obtain ⟨-, rfl⟩ := allocproc_eq_some hal
    rw [hal] at hpos
    replace hpos : 0 < iwrap (t.nextpid + 1) := hpos
    -- `nextpid + 1` wraps to a negative pid exactly when it reaches `2^31`
    have hlt : t.nextpid + 1 < 2 ^ 31 := by
      have h₁ := h.next_pos
      have h₂ := h.next_lt
      unfold iwrap at hpos
      omega
    refine h.of_alloc (q := q) (by simp) (fun p hp => setProc_ne _ _ hp) ?_ hlt
    show iwrap (t.nextpid + 1) = t.nextpid + 1
    exact iwrap_of_mem (by have := h.next_pos; omega) hlt

theorem forkAlloc (h : PidInv t) {cur : Fin NPROC} (hpos : 0 < (t.forkAlloc cur).nextpid) :
    PidInv (t.forkAlloc cur) := by
  unfold PTable.forkAlloc at hpos ⊢
  rcases hal : t.allocproc with ⟨t₁, _ | q⟩ <;> rw [hal] at hpos
  · rw [allocproc_eq_none hal]
    exact h
  · have h₁ : PidInv t.allocproc.1 := h.allocproc (by rw [hal]; exact hpos)
    rw [hal] at h₁
    exact h₁.setProc (.of_state rfl rfl)

/-- A scheduler's step keeps the invariant. -/
theorem dispatch (h : PidInv t) {c : Fin NCPU} (hd : Dispatch t c t') : PidInv t' := by
  obtain ⟨t₁, hp, hn, -, -, rfl | ⟨p, hrun, rfl⟩⟩ := hd
  · exact h.of_kept hn fun p => by rw [hp]; exact .refl _
  · have h₁ : PidInv t₁ := h.of_kept hn fun p => by rw [hp]; exact .refl _
    have hused : (t₁.proc p).state ≠ .unused := by
      rw [hp, hrun]
      nofun
    refine (h₁.setProc ?_).setCpu _ _
    exact .of_used hused rfl

theorem exit (h : PidInv t) {c : Fin NCPU} {cur : Fin NPROC}
    (hused : (t.proc cur).state ≠ .unused) (hx : t.exit c cur = .ok t') : PidInv t' := by
  unfold PTable.exit at hx
  split_ifs at hx with hci
  obtain rfl := (Except.ok.inj hx).symm
  -- the wakeup of the parent and the loop over the table only wake slots
  obtain ⟨-, -, hn₂, hs₂⟩ := passChildren_spec (List.finRange NPROC)
    (t.wakeup1 ((t.proc cur).parent.map .proc)) (by simpa using Ne.symm hci)
  have hw : ∀ p, (t.proc p).Woken
      ((passChildren cur (t.wakeup1 ((t.proc cur).parent.map .proc)) (List.finRange NPROC)).proc p) :=
    fun p => (wakeup1_woken t _ p).1.trans (hs₂ p).2
  have h₂ := h.of_woken hn₂ hw
  refine (h₂.setProc ?_).setCpu _ _
  exact .of_used ((hw cur).ne_unused hused) rfl

theorem wait (h : PidInv t) {c : Fin NCPU} {cur : Fin NPROC}
    (hused : (t.proc cur).state ≠ .unused) : PidInv (t.wait c cur).1 := by
  rcases wait_cases t c cur with ⟨p, -, -, hw⟩ | ⟨-, hw | hw⟩ <;> rw [hw]
  · refine (h.setProc ?_).setProc ?_
    · exact .of_unused rfl
    · exact .of_state rfl rfl
  · refine h.setProc ?_
    exact .of_state rfl rfl
  · refine (h.setProc ?_).setCpu _ _
    exact .of_used hused rfl

/-- **A step that leaves `nextpid` positive keeps the pid invariant.** -/
theorem step (h : PidInv t) (hi : ProcInv t) {c : Fin NCPU} (hm : Moves t c t')
    (hpos : 0 < t'.nextpid) : PidInv t' := by
  -- the process a CPU runs is in use
  have hused : ∀ {cur : Fin NPROC}, (t.cpus c).proc = some cur → (t.proc cur).state ≠ .unused :=
    fun hc => by
      rw [(hi.running _).mpr ⟨c, hc⟩]
      nofun
  cases hm with
  | scheduler _ => exact h.dispatch (scheduler_dispatch t c)
  | mfqScheduler _ => exact h.dispatch (MFQscheduler_dispatch t c)
  | wakeup chan => exact h.of_woken rfl fun p => (wakeup1_woken t chan p).1
  | tick => exact h.of_woken rfl fun p => (wakeup1_woken _ _ p).1
  | fork _ _ => exact h.forkAlloc hpos
  | forkCopy _ _ ok =>
    cases ok
    · refine (h.setProc ?_).setProc ?_
      · exact .of_unused rfl
      · exact .of_state rfl rfl
    · refine (h.setProc ?_).setProc ?_
      · exact .of_state rfl rfl
      · exact .of_state rfl rfl
  | forkDone hc hpc =>
    have hq : (t.proc _).state = .embryo := hi.fork_child _ _ (by rw [hpc]; rfl)
    refine (h.setProc ?_).setProc ?_
    · exact .of_used (by rw [hq]; nofun) rfl
    · exact .of_state rfl rfl
  | exit hc _ hx => exact h.exit (hused hc) hx
  | wait hc _ => exact h.wait (hused hc)
  | kill _ pid =>
    have hk := kill_slots t pid
    exact h.of_woken hk.2.2.1 fun p => (hk.2.2.2 p).1
  | sleep hc _ =>
    refine (h.setProc ?_).setCpu _ _
    exact .of_used (hused hc) rfl
  | yield hc =>
    refine (h.setProc ?_).setCpu _ _
    exact .of_used (hused hc) rfl

end PidInv

theorem pidInv_boot : PidInv boot := by
  -- only init's slot 0 is in use at boot
  have hused : ∀ p, (boot.proc p).state ≠ .unused → p = 0 := fun p hp => by
    rcases (boot_slot p).2.2 with ⟨-, h0⟩ | ⟨hs, -⟩
    · exact h0
    · exact absurd hs hp
  have hpid : (boot.proc 0).pid = 1 := rfl
  have hnext : boot.nextpid = 2 := rfl
  refine ⟨by rw [hnext]; decide, by rw [hnext]; decide, fun p hp => ?_, fun p q hp hq _ => ?_⟩
  · rw [hused p hp, hpid, hnext]
    decide
  · rw [hused p hp, hused q hq]

/-- **Both invariants hold along every run that does not wrap `nextpid`.** -/
theorem reachableNoWrap_inv {t : PTable} (ht : ReachableNoWrap t) : ProcInv t ∧ PidInv t := by
  refine Run.Reachable.induction (fun t => ProcInv t ∧ PidInv t) ?_ ?_ ht
  · intro s hs
    rw [hs]
    exact ⟨procInv_boot, pidInv_boot⟩
  · intro s a s' hinv ha
    obtain ⟨c, a⟩ := a
    obtain ⟨hs, hpos⟩ := step_of_stepNoWrap ha
    exact ⟨hinv.1.step hs, hinv.2.step hinv.1 (moves_of_step hs) hpos⟩

theorem reachable_of_noWrap {t : PTable} (ht : ReachableNoWrap t) : Reachable t :=
  Run.Reachable.map id id (fun _ h => h) (fun _ _ _ h => (step_of_stepNoWrap h).1) ht

/-! ### Well-formedness -/

/-- What `wait()` by a caller that is not a `ZOMBIE` returning `r ≠ -1` has done: reaped a
`ZOMBIE` child with pid `r`, and left every slot other than the child's and the caller's as it
was. -/
theorem wait_reaps (t : PTable) (c : Fin NCPU) {cur : Fin NPROC}
    (hcur : (t.proc cur).state ≠ .zombie) {r : ℤ} (hr : (t.wait c cur).2 = some r) (hr₁ : r ≠ -1) :
    ∃ p, (t.proc p).parent = some cur ∧ (t.proc p).state = .zombie ∧ (t.proc p).pid = r ∧
      p ≠ cur ∧ (t.wait c cur).1.proc p = (t.proc p).reaped ∧
      (t.wait c cur).1.proc cur = { t.proc cur with pc := .user } ∧
      ∀ q, q ≠ p → q ≠ cur → (t.wait c cur).1.proc q = t.proc q := by
  rcases wait_cases t c cur with ⟨p, hpar, hz, hw⟩ | ⟨-, hw | hw⟩ <;> rw [hw] at hr ⊢
  · -- the reaped child is a `ZOMBIE`, and the caller is not
    have hpc : p ≠ cur := by
      rintro rfl
      exact hcur hz
    refine ⟨p, hpar, hz, (Option.some.inj hr), hpc, by simp [hpc], by simp [hpc.symm], ?_⟩
    intro q hqp hqc
    simp [hqp, hqc]
  · exact absurd (Option.some.inj hr).symm hr₁
  · cases hr

/-- The well-formedness of a process table. -/
structure WellFormed (t : PTable) : Prop where
  /-- A process is `RUNNING` exactly when one CPU runs it. -/
  running_cpu : ∀ p, (t.proc p).state = .running ↔ ∃! c, (t.cpus c).proc = some p
  /-- A process past `EMBRYO` other than init has a parent that is not `UNUSED` (nor `ZOMBIE`). -/
  parent_live : ∀ p, (t.proc p).state ≠ .unused → (t.proc p).state ≠ .embryo →
    p ≠ t.initproc → ∃ q, (t.proc p).parent = some q ∧ (t.proc q).Live
  /-- The pids of the processes in use are distinct. -/
  pid_inj : ∀ p q, (t.proc p).state ≠ .unused → (t.proc q).state ≠ .unused →
    (t.proc p).pid = (t.proc q).pid → p = q
  /-- A pass of `scheduler()` or `MFQscheduler()` on an idle CPU switches only to a `RUNNABLE`
  process. -/
  dispatch_runnable : ∀ c p, (t.cpus c).proc = none →
    ((t.scheduler c).cpus c).proc = some p ∨ ((t.MFQscheduler c).cpus c).proc = some p →
      (t.proc p).state = .runnable
  /-- A `wait()` by a running process that returns `r ≠ -1` has reaped a `ZOMBIE` child with pid
  `r` and left its slot `UNUSED`, and no process in use keeps the pid `r`. -/
  wait_reaps : ∀ c cur r, (t.cpus c).proc = some cur → (t.wait c cur).2 = some r → r ≠ -1 →
    ∃ p, (t.proc p).parent = some cur ∧ (t.proc p).state = .zombie ∧ (t.proc p).pid = r ∧
      ((t.wait c cur).1.proc p).state = .unused ∧
      ∀ q, ((t.wait c cur).1.proc q).state ≠ .unused → ((t.wait c cur).1.proc q).pid ≠ r

theorem wellFormed_of_inv {t : PTable} (hi : ProcInv t) (h : PidInv t) : WellFormed t where
  running_cpu p := by
    rw [hi.running p]
    constructor
    · rintro ⟨c, hc⟩
      exact ⟨c, hc, fun d hd => hi.cpu_inj d c p hd hc⟩
    · rintro ⟨c, hc, -⟩
      exact ⟨c, hc⟩
  parent_live p hu he hi' := by
    obtain ⟨q, hq⟩ := Option.ne_none_iff_exists'.mp (hi.has_parent p hu he hi')
    exact ⟨q, hq, hi.parent_live q p hu hq⟩
  pid_inj := h.pid_inj
  dispatch_runnable c p hc hp := by
    rcases hp with hp | hp
    · exact (scheduler_dispatch t c).runnable hc hp
    · exact (MFQscheduler_dispatch t c).runnable hc hp
  wait_reaps c cur r hc hr hr₁ := by
    have hcur : (t.proc cur).state ≠ .zombie := by
      rw [(hi.running cur).mpr ⟨c, hc⟩]
      nofun
    obtain ⟨p, hpar, hz, hpid, -, hwp, hwc, hother⟩ := wait_reaps t c hcur hr hr₁
    have hpu : (t.proc p).state ≠ .unused := by
      rw [hz]
      nofun
    refine ⟨p, hpar, hz, hpid, by rw [hwp]; rfl, fun q hq hqr => ?_⟩
    -- the caller and every other slot in use kept a pid other than the child's
    by_cases hqp : q = p
    · rw [hqp, hwp] at hq
      exact hq rfl
    · have hq' : (t.proc q).state ≠ .unused ∧ ((t.wait c cur).1.proc q).pid = (t.proc q).pid := by
        by_cases hqc : q = cur
        · rw [hqc, hwc] at hq ⊢
          exact ⟨hq, rfl⟩
        · rw [hother q hqp hqc] at hq ⊢
          exact ⟨hq, rfl⟩
      rw [hq'.2, ← hpid] at hqr
      exact hqp (h.pid_inj q p hq'.1 hpu hqr)

/-- **The process table is well formed in every state reached without wrapping `nextpid`.** -/
theorem procs_well_formed {t : PTable} (ht : ReachableNoWrap t) : WellFormed t :=
  wellFormed_of_inv (reachableNoWrap_inv ht).1 (reachableNoWrap_inv ht).2

theorem procs_well_formed_boot : ReachableNoWrap boot ∧ WellFormed boot :=
  ⟨Run.Reachable.init rfl, procs_well_formed (Run.Reachable.init rfl)⟩

/-! ### Runs along which the table is not well formed -/

/-- Init as `userinit()` and the first pass of `scheduler()` on CPU 0 leave it. -/
def initRunning : Slot :=
  { Slot.zero with
    state := .running, pid := 1, priority := 10, MFQpriority := 1, tickets := 100 }

/-- Init running alone on CPU 0, slot 1 left as `e`, and `nextpid` at `j`. -/
def forkRound (j : ℤ) (e : Slot) : PTable :=
  ⟨update (update (fun _ => Slot.zero) 0 initRunning) 1 e,
    fun c => if c = 0 then ⟨some 0, 1, 1⟩ else ⟨none, 0, 1⟩, j, 0, 0, Rng.init⟩

/-- Slot 1 after a `fork` that got the pid `j` and failed in `copyuvm`. -/
def failedChild (e : Slot) (j : ℤ) : Slot :=
  { e with
    state := .unused, pid := j, ctime := uintToInt 0, priority := 10, MFQpriority := 1,
    tickets := 100 }

/-- `n` `fork`s by init whose `copyuvm` fails. -/
def failedForks (n : ℕ) : List (Fin NCPU × PAct) :=
  (List.replicate n [(0, .fork), (0, .forkCopy false)]).flatten

theorem boot_eq : boot = ⟨update (fun _ => Slot.zero) 0 { initRunning with state := .runnable },
    fun _ => ⟨none, 0, 1⟩, 2, 0, 0, Rng.init⟩ := by
  unfold boot
  dsimp only
  rw [allocproc_of_scan (p := 0) (by decide)]
  simp only [PTable.setProc]
  congr 1
  funext p
  by_cases hp : p = 0
  · subst hp
    simp [initRunning, Slot.zero, uintToInt]
  · simp [hp]

/-- The first pass of `scheduler()` on CPU 0 runs init. -/
theorem boot_scheduled :
    Run.exec PTable.step boot [(0, .scheduler)] = some (forkRound 2 Slot.zero) := by
  -- the scan from slot 0 stops at init
  have hscan : ∀ f : Fin NPROC → Bool, f 0 = true → firstIdx NPROC f = some 0 :=
    fun f hf => (firstIdx_eq_some_iff f 0).mpr ⟨hf, fun j hj => absurd hj (Fin.not_lt_zero j)⟩
  rw [boot_eq]
  simp only [Run.exec_cons, Run.exec_nil, PTable.step, sysStep, PTable.scheduler]
  rw [hscan]
  · simp only [PTable.switchTo, PTable.setProc, PTable.setCpu, forkRound]
    simp
    refine ⟨funext fun p => ?_, funext fun c => ?_⟩
    · by_cases h0 : p = 0
      · subst h0
        simp [initRunning, Slot.zero]
      · by_cases h1 : p = 1
        · subst h1
          simp
        · simp [h0, h1]
    · by_cases h0 : c = 0
      · subst h0
        simp
      · simp [h0]
  · simp

/-- `nextpid++` on a wrapped counter is the wrap of the count. -/
theorem iwrap_iwrap_add_one (x : ℤ) : iwrap (iwrap x + 1) = iwrap (x + 1) := by
  unfold iwrap
  omega

theorem forkRound_scan (j : ℤ) {e : Slot} (he : e.state = .unused) :
    firstIdx NPROC (fun p => ((forkRound j e).proc p).state == .unused) = some 1 := by
  rw [firstIdx_eq_some_iff]
  refine ⟨by simp [forkRound, he], fun k hk => ?_⟩
  have hk0 : k = 0 := Fin.ext (by simpa [Fin.lt_def] using hk)
  subst hk0
  simp [forkRound, initRunning]

/-- Init's `fork` takes slot 1 and hands it the pid `j`. -/
theorem forkRound_fork (j : ℤ) {e : Slot} (he : e.state = .unused) :
    (forkRound j e).step (0, .fork) = some
      (({ (forkRound j e).setProc 1 { e with
          state := .embryo, pid := j, ctime := uintToInt 0, priority := 10, MFQpriority := 1,
          tickets := 100 } with nextpid := iwrap (j + 1) }).setProc 0
        { initRunning with pc := .forkAlloc 1 }) := by
  simp only [PTable.step, sysStep, procStep, forkAlloc, allocproc_of_scan (forkRound_scan j he)]
  simp [forkRound, initRunning, Slot.zero]

/-- **A round of the run**: a `fork` whose `copyuvm` fails spends the pid `j` and leaves the table
as it found it, slot 1 apart. -/
theorem forkRound_failed (j : ℤ) {e : Slot} (he : e.state = .unused) :
    Run.exec PTable.step (forkRound j e) [(0, .fork), (0, .forkCopy false)] =
      some (forkRound (iwrap (j + 1)) (failedChild e j)) := by
  simp only [Run.exec_cons, Run.exec_nil, forkRound_fork j he, Option.bind_some]
  simp only [PTable.step, sysStep, procStep, PTable.forkCopy]
  simp [forkRound, initRunning, failedChild]
  simp only [PTable.setProc]
  congr 1
  funext p
  by_cases h1 : p = 1
  · subst h1
    simp
  · by_cases h0 : p = 0
    · subst h0
      simp [Slot.zero]
    · simp [h0, h1]

/-- `n` rounds spend `n` pids. -/
theorem failedForks_run (n : ℕ) : ∀ (j : ℤ) (e : Slot), e.state = .unused →
    ∃ e', e'.state = .unused ∧
      Run.exec PTable.step (forkRound (iwrap j) e) (failedForks n) =
        some (forkRound (iwrap (j + n)) e') := by
  induction n with
  | zero =>
    intro j e he
    exact ⟨e, he, by simp [failedForks]⟩
  | succ n ih =>
    intro j e he
    obtain ⟨e', he', hrun⟩ := ih (j + 1) (failedChild e (iwrap j)) rfl
    refine ⟨e', he', ?_⟩
    have hsplit : failedForks (n + 1) = [(0, .fork), (0, .forkCopy false)] ++ failedForks n := by
      simp [failedForks, List.replicate_succ]
    rw [hsplit, Run.exec_append, forkRound_failed _ he, Option.bind_some, iwrap_iwrap_add_one,
      hrun]
    push_cast
    ring_nf

/-- **Two runs break the table's well-formedness.**  Init's `fork` right after boot holds an
`EMBRYO` without a parent (`np->parent` is set only after `copyuvm`); and after `2^32 - 1` failed
`fork`s, `nextpid` is back at `1`, so the next `fork` gives its child init's pid. -/
theorem procs_wrong :
    (∃ t, Reachable t ∧ ∃ p, p ≠ t.initproc ∧ (t.proc p).state = .embryo ∧
      (t.proc p).parent = none) ∧
    (∃ t, Reachable t ∧ ∃ p q, p ≠ q ∧ (t.proc p).state ≠ .unused ∧
      (t.proc q).state ≠ .unused ∧ (t.proc p).pid = (t.proc q).pid) := by
  have h₀ : Reachable (forkRound 2 Slot.zero) := Run.reachable_of_exec _ rfl boot_scheduled
  refine ⟨⟨_, Run.Reachable.next h₀ (forkRound_fork 2 rfl), 1, ?_, ?_, ?_⟩, ?_⟩
  · simp [forkRound]
  · simp
  · simp [Slot.zero]
  -- the wrap: `2^32 - 1` rounds from `nextpid = 2` end at `nextpid = 1`
  obtain ⟨e', he', hrun⟩ := failedForks_run (2 ^ 32 - 1) 2 Slot.zero rfl
  have h2 : iwrap 2 = 2 := by decide
  have h1 : iwrap (2 + ((2 ^ 32 - 1 : ℕ) : ℤ)) = 1 := by decide
  rw [h2, h1] at hrun
  have h₁ : Reachable (forkRound 1 e') := Run.Reachable.exec _ h₀ hrun
  refine ⟨_, Run.Reachable.next h₁ (forkRound_fork 1 he'), 0, 1, by decide, ?_, ?_, ?_⟩
  · simp [initRunning]
  · simp
  · simp [initRunning]

end Xv6Lab.Procs
