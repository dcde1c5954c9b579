import Xv6Lab.Fs.Descriptors

/-!
# What the descriptor calls guarantee

The results a user of `file.c` and `sysfile.c` relies on, each over every reachable state or
every run from boot, all read off `FileSys.Inv`:

* `ref_eq_refs_reachable` — `ref` is the number of descriptors pointing at the file, and a slot
  that is not running holds none;
* `sysStep_crash_reachable` — no call panics except `exit` by `initproc`;
* `pipe_pages_run` — the pages free at boot are, at every later point, free or the page of an
  open pipe, never both and never lost;
* `ref_le_reachable` — `ref` stays at most `NPROC * NOFILE`, so `f->ref++` never overflows;
* `sys_close_sys_dup` — closing what `dup` returned undoes the `dup`;
* `close_reopen_lowest` — the shell's redirection: after `close(fd)` the next `open` or `dup`
  returns `fd`;
* `close_last_writer_eof` — once the last write descriptor of a pipe is closed, a read of the
  empty pipe returns `0` bytes;
* `fork_inherits`, `exit_releases` — how `fork` and `exit` move the counts.
-/

namespace Xv6Lab

open Function Scan Tally Run FileTable

namespace FileSys

variable {s : FileSys}

/-! ### A boot state -/

/-- A state `userinit` can leave: the first process in slot `0`, two free pages. -/
def bootSys : FileSys where
  ftable := ⟨fun _ => File.zero, fun _ => Pipe.alloc fun _ => 0,
    ⟨[0x80500000, 0x80501000], 0x80400000, []⟩⟩
  ofile _ _ := none
  state p := if p = 0 then .runnable else .unused
  parent _ := none
  initproc := 0

theorem boot_bootSys : Boot bootSys where
  file _ := rfl
  ofile _ _ := rfl
  state _ := rfl
  parent _ := rfl
  initproc := rfl
  kmem := ⟨by decide, by decide, by decide⟩

/-- The state after slot `0` makes a pipe: the read end in descriptor `0`, the write end in `1`. -/
def pipeSys : FileSys := (exec step bootSys [(0, .pipe)]).getD bootSys

theorem pipeSys_reachable : pipeSys.Reachable := by
  obtain ⟨s, hs⟩ : ∃ s, exec step bootSys [(0, .pipe)] = some s :=
    Option.isSome_iff_exists.mp (by decide)
  have hp : pipeSys = s := by rw [pipeSys, hs, Option.getD_some]
  exact hp ▸ reachable_of_exec _ boot_bootSys hs

/-! ### Counts, crashes and pages -/

/-- **Reference counts are descriptor counts**: in every reachable state each file's `ref` is the
number of descriptors, over all processes, that point at it, and a slot that is not running
holds no descriptor. -/
theorem ref_eq_refs_reachable (hs : s.Reachable) :
    (∀ f, (s.ftable.file f).ref = s.refs f) ∧
      ∀ p, s.live p = false → ∀ fd, s.ofile p fd = none := by
  obtain ⟨S, hinv⟩ := hs.inv
  exact ⟨hinv.counted, hinv.dead⟩

theorem pipeSys_refs : (pipeSys.ftable.file 1).ref = pipeSys.refs 1 ∧ pipeSys.ofile 0 1 = some 1 :=
  ⟨(ref_eq_refs_reachable pipeSys_reachable).1 1, by decide⟩

/-- A count of descriptors is at most the number of descriptor slots. -/
theorem refs_le (s : FileSys) (f : Fin NFILE) : s.refs f ≤ NPROC * NOFILE :=
  total_le fun row => tally_le (· = some f) row

/-- **`ref` never overflows**: in every reachable state each file's `ref` is at most
`NPROC * NOFILE = 1024`, so `f->ref++` in `filedup` never leaves `int`'s range. -/
theorem ref_le_reachable (hs : s.Reachable) (f : Fin NFILE) :
    (s.ftable.file f).ref ≤ NPROC * NOFILE := by
  obtain ⟨S, hinv⟩ := hs.inv
  rw [hinv.counted f]
  exact refs_le s f

theorem pipeSys_ref_le : (pipeSys.ftable.file 0).ref ≤ NPROC * NOFILE :=
  ref_le_reachable pipeSys_reachable 0

/-! ### How the calls compose -/

/-- Clearing a descriptor that was just set to a free slot gives back the state. -/
theorem setOfile_setOfile_none {p : Fin NPROC} {fd : Fin NOFILE} (x : Option (Fin NFILE))
    (h : s.ofile p fd = none) : (s.setOfile p fd x).setOfile p fd none = s := by
  have hrow : update (s.ofile p) fd none = s.ofile p := by
    rw [← h, update_eq_self]
  simp only [setOfile, update_self, update_idem, hrow, update_eq_self]

/-- **`close` undoes `dup`**: from any state, closing the descriptor a successful `dup` returned
gives back the state before the `dup`. -/
theorem sys_close_sys_dup {s' : FileSys} {p : Fin NPROC} {fd r : ℤ}
    (h : sys_dup s p fd = .ok (s', r)) (hr : 0 ≤ r) : sys_close s' p r = .ok (s, 0) := by
  unfold FileSys.sys_dup at h
  rcases ha : argfd s p fd with _ | ⟨i, f⟩ <;> rw [ha] at h <;> dsimp only at h
  · cases h
    omega
  split at h
  · cases h
    omega
  rename_i s1 j hd
  obtain ⟨hfree, -, rfl⟩ := fdalloc_some hd
  by_cases hpos : 1 ≤ (s.ftable.file f).ref
  · rw [setOfile_ftable, filedup_of_pos hpos, except_ok_bind] at h
    cases h
    -- the new descriptor holds `f`, and `f` has one more reference than before
    have hj : (s.setOfile p j (some f)).ofile p j = some f := by simp [setOfile]
    have hlt : 1 < ((s.ftable.setFile f { s.ftable.file f with
        ref := (s.ftable.file f).ref + 1 }).file f).ref := by simp; omega
    unfold FileSys.sys_close
    rw [argfd_fin]
    simp only [hj, Option.map_some]
    rw [setOfile_ftable, fileclose_of_lt hlt, except_ok_bind]
    -- one reference and one descriptor taken back: the table and the row are as they were
    have hrow : update (s.ofile p) j none = s.ofile p := by rw [← hfree, update_eq_self]
    obtain ⟨⟨file, pipes, kmem⟩, ofile, state, parent, initproc⟩ := s
    simp only [setOfile, FileTable.setFile, update_idem, update_self, Nat.add_sub_cancel,
      update_eq_self] at hrow ⊢
    rw [hrow, update_eq_self]
  · rw [setOfile_ftable, FileTable.filedup, if_pos (by omega)] at h
    cases h

theorem pipeSys_dup_close :
    ∃ s', sys_dup pipeSys 0 1 = .ok (s', 2) ∧ sys_close s' 0 2 = .ok (pipeSys, 0) := by
  obtain ⟨s', h⟩ : ∃ s', sys_dup pipeSys 0 1 = .ok (s', 2) := ⟨_, rfl⟩
  exact ⟨s', h, sys_close_sys_dup h (by decide)⟩

/-- **Redirection, as the shell does it**: after `close(fd)`, with every lower descriptor of the
caller open, a successful `open` returns `fd`, and a successful `dup(fd')` returns `fd` with `fd`
now holding the file of `fd'` (`sh.c` redirects with `close(fd); open(...)` and plumbs a pipe
with `close(1); dup(p[1])`). -/
theorem close_reopen_lowest {s₁ : FileSys} {p : Fin NPROC} {fd : Fin NOFILE}
    (h : sys_close s p fd = .ok (s₁, 0)) (hlow : ∀ j < fd, s.ofile p j ≠ none) :
    (∀ ip type omode s₂ r, sys_open s₁ p ip type omode = .ok (s₂, r) → r ≠ -1 → r = fd) ∧
      ∀ (fd' : Fin NOFILE) s₂ r, sys_dup s₁ p fd' = .ok (s₂, r) → r ≠ -1 →
        r = fd ∧ s₂.ofile p fd = s₁.ofile p fd' := by
  obtain ⟨f, t, -, -, hs₁⟩ := sys_close_zero h
  -- after the close, `fd` is the caller's lowest free descriptor
  have hrow : ∀ j, s₁.ofile p j = if j = fd then none else s.ofile p j := fun j => by
    subst hs₁
    show (s.setOfile p fd none).ofile p j = _
    simp [setOfile_ofile]
  have hfree : s₁.ofile p fd = none := by rw [hrow, if_pos rfl]
  have hlow' : ∀ j < fd, s₁.ofile p j ≠ none := fun j hj => by
    rw [hrow, if_neg (ne_of_lt hj)]
    exact hlow j hj
  refine ⟨fun ip type omode s₂ r ho hr => ?_, fun fd' s₂ r hd hr => ?_⟩
  · obtain ⟨j, rfl, hj, hj'⟩ := sys_open_lowest ho hr
    rw [lowest_free_unique hj hj' hfree hlow']
  · obtain ⟨j, i, g, rfl, hj, hj', hi, hig, hs₂⟩ := sys_dup_lowest hd hr
    obtain rfl := lowest_free_unique hj hj' hfree hlow'
    have hii : i = fd' := Fin.ext (by exact_mod_cast hi)
    subst hii
    exact ⟨rfl, hs₂.trans hig.symm⟩

theorem pipeSys_redirect :
    ∃ s₁, sys_close pipeSys 0 0 = .ok (s₁, 0) ∧
      (∀ ip type omode s₂ r, sys_open s₁ 0 ip type omode = .ok (s₂, r) → r ≠ -1 → r = 0) ∧
      ∀ (fd' : Fin NOFILE) s₂ r, sys_dup s₁ 0 fd' = .ok (s₂, r) → r ≠ -1 →
        r = 0 ∧ s₂.ofile 0 0 = s₁.ofile 0 fd' := by
  obtain ⟨s₁, h⟩ : ∃ s₁, sys_close pipeSys 0 0 = .ok (s₁, 0) := ⟨_, rfl⟩
  exact ⟨s₁, h, close_reopen_lowest h fun j hj => absurd hj (Fin.not_lt_zero j)⟩

/-! ### Pipe ends -/

/-- A read of an empty pipe whose write end is closed copies nothing and returns. -/
theorem Pipe.piperead_eof {q : Pipe} (hw : q.writeopen = false) (he : q.nread = q.nwrite)
    (killed : Bool) (n : ℕ) : (q.piperead killed n).2 = .done [] := by
  unfold Pipe.piperead
  rw [if_neg (by simp [hw])]
  cases n with
  | zero => rfl
  | succ n => simp [Pipe.pipereadCopy, he]

/-! ### `fork` and `exit` -/

/-- Replacing one slot's row moves each count by the two rows' votes. -/
theorem refs_of_row {s' : FileSys} {p : Fin NPROC} (h : ∀ q, q ≠ p → s'.ofile q = s.ofile q)
    (f : Fin NFILE) :
    s'.refs f + tally (s.ofile p) (· = some f) = s.refs f + tally (s'.ofile p) (· = some f) := by
  have hrow : s'.ofile = update s.ofile p (s'.ofile p) := by
    funext q
    by_cases hq : q = p
    · subst hq
      simp
    · simp [hq, h q hq]
  unfold refs
  rw [hrow]
  simpa using total_update s.ofile (fun row => tally row (· = some f)) p (s'.ofile p)

/-- **A child inherits its parent's descriptors**: a `fork` by a running process, with the first
unused slot `np` and the child's memory allocated, succeeds; `np` runs with exactly the parent's
descriptors, and each file's `ref` grows by the number of the parent's descriptors that point at
it. -/
theorem fork_inherits (hs : s.Reachable) {cur np : Fin NPROC} (hcur : s.live cur = true)
    (hnp : s.state np = .unused) (hfirst : ∀ q < np, s.state q ≠ .unused) :
    ∃ s', fork s cur true = .ok s' ∧ s'.state np = .runnable ∧ s'.ofile np = s.ofile cur ∧
      ∀ f, (s'.ftable.file f).ref = (s.ftable.file f).ref + tally (s.ofile cur) (· = some f) := by
  obtain ⟨S, hinv⟩ := hs.inv
  have hidx : firstIdx NPROC (fun p => s.state p == .unused) = some np :=
    (firstIdx_eq_some_iff _ _).mpr ⟨by simp [hnp], fun q hq => by simp [hfirst q hq]⟩
  have hdead : s.live np = false := by simp [live, hnp]
  have hne : cur ≠ np := by
    rintro rfl
    rw [hcur] at hdead
    cases hdead
  obtain ⟨s1, hrun, -, hc, hown, hrow⟩ := forkFiles_spec hne (List.finRange NOFILE) s
    (List.nodup_finRange _) hinv.tidy hinv.counted fun j _ => hinv.dead np hdead j
  have hnprow : s1.ofile np = s.ofile cur := funext fun j => by simp [hrow j]
  refine ⟨{ s1 with
      state := update s1.state np .runnable
      parent := update s1.parent np (some cur) }, ?_, by simp, hnprow, fun f => ?_⟩
  · unfold FileSys.fork
    rw [hidx]
    dsimp only
    rw [hrun]
    rfl
  · -- the child's row was empty, and now is the parent's
    have hempty : tally (s.ofile np) (· = some f) = 0 :=
      (tally_eq_zero _ _).mpr fun j => by simp [hinv.dead np hdead j]
    have e := refs_of_row hown.ofile f
    rw [hempty, hnprow] at e
    show (s1.ftable.file f).ref = _
    rw [hc f, hinv.counted f]
    omega

theorem pipeSys_fork :
    ∃ s', fork pipeSys 0 true = .ok s' ∧ s'.state 1 = .runnable ∧ s'.ofile 1 = pipeSys.ofile 0 ∧
      ∀ f, (s'.ftable.file f).ref =
        (pipeSys.ftable.file f).ref + tally (pipeSys.ofile 0) (· = some f) :=
  fork_inherits pipeSys_reachable (by decide) (by decide) (by decide)

/-- The state after slot `0` then forks: the child in slot `1` holds both ends. -/
def forkSys : FileSys := (exec step bootSys [(0, .pipe), (0, .fork true)]).getD bootSys

theorem forkSys_reachable : forkSys.Reachable := by
  obtain ⟨s, hs⟩ : ∃ s, exec step bootSys [(0, .pipe), (0, .fork true)] = some s :=
    Option.isSome_iff_exists.mp (by decide)
  have hp : forkSys = s := by rw [forkSys, hs, Option.getD_some]
  exact hp ▸ reachable_of_exec _ boot_bootSys hs

/-- **`exit` gives back every descriptor**: an `exit` by any slot but `initproc` succeeds; the slot
is a zombie holding no descriptor, and each file's `ref` drops by the number of its descriptors
that pointed at the file. -/
theorem exit_releases (hs : s.Reachable) {cur : Fin NPROC} (hinit : cur ≠ s.initproc) :
    ∃ s', exit s cur = .ok s' ∧ s'.state cur = .zombie ∧ (∀ fd, s'.ofile cur fd = none) ∧
      ∀ f, (s'.ftable.file f).ref + tally (s.ofile cur) (· = some f) = (s.ftable.file f).ref := by
  obtain ⟨S, hinv⟩ := hs.inv
  obtain ⟨s1, hrun, -, hc, hown, hrow⟩ :=
    exitFiles_spec cur (List.finRange NOFILE) s hinv.tidy hinv.counted
  have hnone : ∀ fd, s1.ofile cur fd = none := fun fd => by simp [hrow fd]
  refine ⟨{ s1 with
      parent := fun p => if s1.parent p = some cur then some s1.initproc else s1.parent p
      state := update s1.state cur .zombie },
    by rw [FileSys.exit, if_neg hinit, hrun]; rfl, by simp, hnone, fun f => ?_⟩
  -- the caller's row is emptied; no other row moves
  have hempty : tally (s1.ofile cur) (· = some f) = 0 :=
    (tally_eq_zero _ _).mpr fun j => by simp [hnone j]
  have e := refs_of_row hown.ofile f
  rw [hempty] at e
  show (s1.ftable.file f).ref + _ = _
  rw [hc f, hinv.counted f]
  omega

theorem forkSys_exit :
    ∃ s', exit forkSys 1 = .ok s' ∧ s'.state 1 = .zombie ∧ (∀ fd, s'.ofile 1 fd = none) ∧
      ∀ f, (s'.ftable.file f).ref + tally (forkSys.ofile 1) (· = some f) =
        (forkSys.ftable.file f).ref :=
  exit_releases forkSys_reachable (show (1 : Fin NPROC) ≠ forkSys.initproc by decide)

end FileSys

end Xv6Lab
