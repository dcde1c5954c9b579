import Xv6Lab.Fs.FileRefs

/-!
# Descriptors and reference counts over whole runs

`f->ref` is meant to be the number of descriptors, over every process, that point at `f`.  Every
call keeps that, and everything else about the table rests on it: `filedup` and `fileclose` never
see `ref < 1`, `filealloc` never hands out a file someone holds, and the last `fileclose` comes
with the last descriptor.

* `refs s f` — the descriptors pointing at `f`, summed over the slots (`Tally.total` of
  `Tally.tally`); `refs_setOfile` — how setting one descriptor moves it;
* `Inv S` — the table is `Tidy S`, every `ref` is its `refs`, and a slot that is not running
  holds no descriptor (so `fork` gives the child nothing stale);
* `Inv.sys_dup`, `Inv.sys_close`, `Inv.sys_open`, `Inv.sys_pipe` — each call of a running
  process succeeds, keeps the table tidy and the counts right, and touches no other process;
* `forkFiles_spec`, `exitFiles_spec` — the descriptor loops of `fork` and `exit`;
* `Inv.sysStep` — every call of a running process keeps `Inv S`, except `exit` by `initproc`,
  which panics.
-/

namespace Xv6Lab

open Function Scan Tally Run

namespace FileSys

open FileTable

variable {S : Finset ℕ} {s : FileSys}

/-! ### Counting descriptors -/

/-- The descriptors, over every process slot, that point at file `f`. -/
def refs (s : FileSys) (f : Fin NFILE) : ℕ := total s.ofile fun row => tally row (· = some f)

/-- **Setting one descriptor**: the count of `f` loses the old pointer's vote and gains the new
one's. -/
theorem refs_setOfile (s : FileSys) (p : Fin NPROC) (fd : Fin NOFILE) (x : Option (Fin NFILE))
    (f : Fin NFILE) :
    (s.setOfile p fd x).refs f + (if s.ofile p fd = some f then 1 else 0) =
      s.refs f + (if x = some f then 1 else 0) := by
  have h₁ := total_update s.ofile (fun row => tally row (· = some f)) p (update (s.ofile p) fd x)
  have h₂ := tally_update (· = some f) (s.ofile p) fd x
  unfold refs setOfile
  simp only at h₁ h₂ ⊢
  omega

/-- Installing a file in a free descriptor adds one to its count. -/
theorem refs_install {p : Fin NPROC} {fd : Fin NOFILE} (f g : Fin NFILE) (h : s.ofile p fd = none) :
    (s.setOfile p fd (some f)).refs g = s.refs g + if g = f then 1 else 0 := by
  have e := refs_setOfile s p fd (some f) g
  rw [h] at e
  by_cases hg : g = f
  · subst hg
    simpa using e
  · simpa [Ne.symm hg, hg] using e

/-- Clearing a descriptor takes one from its file's count. -/
theorem refs_clear {p : Fin NPROC} {fd : Fin NOFILE} {f : Fin NFILE} (g : Fin NFILE)
    (h : s.ofile p fd = some f) :
    (s.setOfile p fd none).refs g + (if g = f then 1 else 0) = s.refs g := by
  have e := refs_setOfile s p fd none g
  rw [h] at e
  by_cases hg : g = f
  · subst hg
    simpa using e
  · simpa [Ne.symm hg, hg] using e

@[simp] theorem refs_ftable (s : FileSys) (t : FileTable) : { s with ftable := t }.refs = s.refs :=
  rfl

/-- A file some descriptor points at is counted. -/
theorem refs_pos {p : Fin NPROC} {fd : Fin NOFILE} {f : Fin NFILE} (h : s.ofile p fd = some f) :
    0 < s.refs f :=
  lt_of_lt_of_le (tally_pos (· = some f) (f := s.ofile p) h)
    (single_le_total s.ofile (fun row => tally row (· = some f)) p)

/-- `ref` counts the descriptors that point at each file. -/
def Counted (s : FileSys) : Prop := ∀ f, (s.ftable.file f).ref = s.refs f

/-- **One descriptor set, one table change**: when each file's `ref` moves as its descriptor count
does, `Counted` is kept. -/
theorem Counted.setOfile (hc : s.Counted) {p : Fin NPROC} {fd : Fin NOFILE}
    {x : Option (Fin NFILE)} {t : FileTable}
    (ht : ∀ g, (t.file g).ref + (if s.ofile p fd = some g then 1 else 0) =
      (s.ftable.file g).ref + (if x = some g then 1 else 0)) :
    ({ s.setOfile p fd x with ftable := t } : FileSys).Counted := by
  intro g
  have h₁ := refs_setOfile s p fd x g
  have h₂ := hc g
  have h₃ := ht g
  show (t.file g).ref = (s.setOfile p fd x).refs g
  omega

/-- **Counts that move together**: when each `ref` moves as its descriptor count does, `Counted`
is kept. -/
theorem Counted.of_eq (hc : s.Counted) {s' : FileSys}
    (h : ∀ g, (s'.ftable.file g).ref + s.refs g = (s.ftable.file g).ref + s'.refs g) :
    s'.Counted := by
  intro g
  have h₁ := h g
  have h₂ := hc g
  omega

/-- A table change that keeps every `ref` keeps `Counted`. -/
theorem Counted.ftable (hc : s.Counted) {t : FileTable}
    (ht : ∀ g, (t.file g).ref = (s.ftable.file g).ref) : ({ s with ftable := t } : FileSys).Counted :=
  fun g => (ht g).trans (hc g)

/-! ### What a call of one process keeps -/

/-- A call by `p` changed nothing but the table and `p`'s own descriptors. -/
structure Own (p : Fin NPROC) (s s' : FileSys) : Prop where
  state : s'.state = s.state
  parent : s'.parent = s.parent
  initproc : s'.initproc = s.initproc
  ofile : ∀ q, q ≠ p → s'.ofile q = s.ofile q

theorem Own.refl (p : Fin NPROC) (s : FileSys) : Own p s s := ⟨rfl, rfl, rfl, fun _ _ => rfl⟩

theorem Own.trans {p : Fin NPROC} {s₁ s₂ s₃ : FileSys} (h₁ : Own p s₁ s₂) (h₂ : Own p s₂ s₃) :
    Own p s₁ s₃ :=
  ⟨h₂.state.trans h₁.state, h₂.parent.trans h₁.parent, h₂.initproc.trans h₁.initproc,
    fun q hq => (h₂.ofile q hq).trans (h₁.ofile q hq)⟩

theorem Own.setOfile (p : Fin NPROC) (fd : Fin NOFILE) (x : Option (Fin NFILE)) (t : FileTable) :
    Own p s { s.setOfile p fd x with ftable := t } :=
  ⟨rfl, rfl, rfl, fun q hq => by simp [FileSys.setOfile, hq]⟩

theorem Own.ftable (p : Fin NPROC) (t : FileTable) : Own p s { s with ftable := t } :=
  ⟨rfl, rfl, rfl, fun _ _ => rfl⟩

/-- What a call by `p` keeps: the table tidy, the counts right, and the other processes. -/
structure Kept (S : Finset ℕ) (p : Fin NPROC) (s s' : FileSys) : Prop where
  tidy : s'.ftable.Tidy S
  counted : s'.Counted
  own : Own p s s'

/-- The invariant of the descriptor calls, with `S` the pages in play. -/
structure Inv (S : Finset ℕ) (s : FileSys) : Prop where
  tidy : s.ftable.Tidy S
  /-- `ref` counts the descriptors that point at the file. -/
  counted : s.Counted
  /-- A slot that is not running holds no descriptor. -/
  dead : ∀ p, s.live p = false → ∀ fd, s.ofile p fd = none

theorem Inv.kept (hs : s.Inv S) (p : Fin NPROC) : Kept S p s s := ⟨hs.tidy, hs.counted, Own.refl p s⟩

/-- A call of a running process that keeps its own part keeps `Inv`: the slots that are not
running are other processes. -/
theorem Inv.of_kept (hs : s.Inv S) {p : Fin NPROC} (hp : s.live p = true) {s' : FileSys}
    (hk : Kept S p s s') : s'.Inv S where
  tidy := hk.tidy
  counted := hk.counted
  dead q hq fd := by
    have hq' : s.live q = false := by simpa [live, hk.own.state] using hq
    have hqp : q ≠ p := by
      rintro rfl
      rw [hp] at hq'
      cases hq'
    rw [hk.own.ofile q hqp]
    exact hs.dead q hq' fd

/-! ### `argfd`, `fdalloc` -/

theorem argfd_some {p : Fin NPROC} {fd : ℤ} {i : Fin NOFILE} {f : Fin NFILE}
    (h : argfd s p fd = some (i, f)) : s.ofile p i = some f ∧ (i.val : ℤ) = fd := by
  unfold argfd at h
  split at h
  · cases h
  · rename_i hfd
    obtain ⟨g, hg, he⟩ := Option.map_eq_some_iff.mp h
    simp only [Prod.mk.injEq] at he
    obtain ⟨rfl, rfl⟩ := he
    have h0 : 0 ≤ fd := by omega
    have hlt : fd.toNat < NOFILE := by omega
    refine ⟨hg, ?_⟩
    simp only [Fin.val_ofNat, Nat.mod_eq_of_lt hlt]
    exact Int.toNat_of_nonneg h0

/-- `fdalloc` takes the lowest free descriptor. -/
theorem fdalloc_some {p : Fin NPROC} {f : Fin NFILE} {s' : FileSys} {fd : Fin NOFILE}
    (h : fdalloc s p f = (s', some fd)) :
    s.ofile p fd = none ∧ (∀ j < fd, s.ofile p j ≠ none) ∧ s' = s.setOfile p fd (some f) := by
  unfold fdalloc at h
  split at h
  · cases h
  · rename_i j hj
    cases h
    obtain ⟨hfree, hmin⟩ := (firstIdx_eq_some_iff _ _).mp hj
    refine ⟨Option.isNone_iff_eq_none.mp hfree, fun k hk => ?_, rfl⟩
    have := hmin k hk
    exact Option.isSome_iff_ne_none.mp (by simpa using this)

theorem fdalloc_none {p : Fin NPROC} {f : Fin NFILE} {s' : FileSys} (h : fdalloc s p f = (s', none)) :
    s' = s := by
  unfold fdalloc at h
  split at h
  · cases h
    rfl
  · cases h

/-- `argfd` of a descriptor in range reads it. -/
theorem argfd_fin (s : FileSys) (p : Fin NPROC) (fd : Fin NOFILE) :
    argfd s p fd = (s.ofile p fd).map fun f => (fd, f) := by
  have hfd : Fin.ofNat NOFILE ((fd : ℤ).toNat) = fd := by
    ext
    simp only [Int.toNat_natCast, Fin.val_ofNat]
    exact Nat.mod_eq_of_lt fd.isLt
  unfold argfd
  rw [if_neg (by omega), hfd]

/-- Of two lowest free descriptors of one row, neither is below the other. -/
theorem lowest_free_unique {row : Fin NOFILE → Option (Fin NFILE)} {i j : Fin NOFILE}
    (hi : row i = none) (hi' : ∀ k < i, row k ≠ none) (hj : row j = none)
    (hj' : ∀ k < j, row k ≠ none) : i = j := by
  rcases lt_trichotomy i j with h | h | h
  · exact absurd hi (hj' i h)
  · exact h
  · exact absurd hj (hi' j h)

/-! ### The system calls of `sysfile.c` -/

/-- `ref` after one file of the table is replaced. -/
theorem ref_setFile (t : FileTable) (f : Fin NFILE) (x : File) (g : Fin NFILE) :
    ((t.setFile f x).file g).ref = if g = f then x.ref else (t.file g).ref := by
  by_cases hg : g = f
  · subst hg
    simp
  · simp [hg]

theorem Inv.sys_dup (hs : s.Inv S) (p : Fin NPROC) (fd : ℤ) :
    ∃ s' r, sys_dup s p fd = .ok (s', r) ∧ Kept S p s s' := by
  unfold FileSys.sys_dup
  rcases ha : argfd s p fd with _ | ⟨i, f⟩
  · exact ⟨s, -1, rfl, hs.kept p⟩
  dsimp only
  obtain ⟨hi, -⟩ := argfd_some ha
  rcases hd : fdalloc s p f with ⟨s1, _ | j⟩
  · exact ⟨s, -1, rfl, hs.kept p⟩
  obtain ⟨hj, -, rfl⟩ := fdalloc_some hd
  -- the file is held by descriptor `i`, so `filedup` does not panic
  have hpos : 1 ≤ (s.ftable.file f).ref := hs.counted f ▸ refs_pos hi
  refine Exists.intro _ ⟨j.val, by simp only [setOfile_ftable, filedup_of_pos hpos, except_ok_bind]; rfl, ?_⟩
  refine ⟨hs.tidy.setRef (Nat.succ_pos _), hs.counted.setOfile fun g => ?_, Own.setOfile p j _ _⟩
  rw [ref_setFile, hj]
  by_cases hg : g = f
  · subst hg
    simp
  · simp [hg, Ne.symm hg]

theorem Inv.sys_close (hs : s.Inv S) (p : Fin NPROC) (fd : ℤ) :
    ∃ s' r, sys_close s p fd = .ok (s', r) ∧ Kept S p s s' := by
  unfold FileSys.sys_close
  rcases ha : argfd s p fd with _ | ⟨i, f⟩
  · exact ⟨s, -1, rfl, hs.kept p⟩
  dsimp only
  obtain ⟨hi, -⟩ := argfd_some ha
  -- the descriptor being closed holds `f`, so `fileclose` does not panic
  have hpos : 1 ≤ (s.ftable.file f).ref := hs.counted f ▸ refs_pos hi
  obtain ⟨t, hc, ht, hr⟩ := hs.tidy.fileclose hpos
  refine Exists.intro _ ⟨0, by simp only [setOfile_ftable, hc, except_ok_bind]; rfl, ?_⟩
  refine ⟨ht, hs.counted.setOfile fun g => ?_, Own.setOfile p i _ _⟩
  rw [hr g, hi]
  by_cases hg : g = f
  · subst hg
    simp only [if_true, reduceCtorEq, if_false]
    omega
  · simp [hg, Ne.symm hg]

theorem Inv.sys_open (hs : s.Inv S) (p : Fin NPROC) (ip type omode : ℕ) :
    ∃ s' r, sys_open s p ip type omode = .ok (s', r) ∧ Kept S p s s' := by
  unfold FileSys.sys_open
  split
  · exact ⟨s, -1, rfl, hs.kept p⟩
  split
  · exact ⟨s, -1, rfl, hs.kept p⟩
  rcases ha : s.ftable.filealloc with ⟨t1, _ | f⟩
  · exact ⟨s, -1, rfl, hs.kept p⟩
  dsimp only
  obtain ⟨hr0, rfl⟩ := filealloc_some ha
  have ht1 := hs.tidy.setRef (f := f) Nat.one_pos
  rcases hd : fdalloc { s with ftable := s.ftable.setFile f { s.ftable.file f with ref := 1 } } p f
    with ⟨s2, _ | j⟩ <;> dsimp only
  · -- no free descriptor: the file goes back
    obtain rfl := fdalloc_none hd
    obtain ⟨t3, hc, ht3, hr3⟩ := ht1.fileclose (f := f) (by simp)
    refine Exists.intro _ ⟨-1, by simp only [hc, except_ok_bind], ht3,
      hs.counted.ftable fun g => ?_, Own.ftable p _⟩
    rw [hr3 g, ref_setFile, ref_setFile]
    by_cases hg : g = f
    · subst hg
      simp [hr0]
    · simp [hg]
  · obtain ⟨hj, -, rfl⟩ := fdalloc_some hd
    refine ⟨_, j.val, rfl, ht1.setFile (by simp) ?_, hs.counted.setOfile fun g => ?_,
      Own.setOfile p j _ _⟩
    · -- an inode file, where a free slot was: no pipe end either way
      rw [File.pipeEnd_of_ne (by simp), setFile_file, update_self,
        File.pipeEnd_of_ne (by simp [hs.tidy.free_none f hr0])]
    · simp only [setOfile_ftable, ref_setFile] at hj ⊢
      rw [hj]
      by_cases hg : g = f
      · subst hg
        simp [hr0]
      · simp [hg, Ne.symm hg]

theorem Inv.sys_pipe (hs : s.Inv S) (p : Fin NPROC) :
    ∃ s' r, sys_pipe s p = .ok (s', r) ∧ Kept S p s s' := by
  obtain ⟨t1, r, hpa, ht1, hnone, hsome⟩ := hs.tidy.pipealloc
  unfold FileSys.sys_pipe
  rw [hpa, except_ok_bind]
  rcases r with _ | ⟨rf, wf⟩ <;> dsimp only
  · exact ⟨_, -1, rfl, ht1, hs.counted.ftable (hnone rfl), Own.ftable p _⟩
  obtain ⟨hne, hr0, hr1, hr⟩ := hsome rf wf rfl
  -- each new file holds the one reference a descriptor is to take over
  have hrf : (t1.file rf).ref = 1 := by simp [hr]
  have hwf : (t1.file wf).ref = 1 := by simp [hr]
  have hc0 : ({ s with ftable := t1 } : FileSys).refs = s.refs := rfl
  rcases hd0 : fdalloc { s with ftable := t1 } p rf with ⟨s2, _ | fd0⟩ <;> dsimp only
  · -- no descriptor for the read end: both files go back
    obtain rfl := fdalloc_none hd0
    obtain ⟨t2, hc2, ht2, hr2⟩ := ht1.fileclose (f := rf) (by omega)
    obtain ⟨t3, hc3, ht3, hr3⟩ := ht2.fileclose (f := wf) (by simp [hr2, Ne.symm hne, hwf])
    refine Exists.intro _ ⟨-1, by simp only [hc2, hc3, except_ok_bind], ht3,
      hs.counted.ftable fun g => ?_, Own.ftable p _⟩
    rw [hr3 g, hr2 wf, hr2 g, hr g]
    by_cases hg0 : g = rf
    · subst hg0
      simp [hr0, hne, hrf]
    · by_cases hg1 : g = wf
      · subst hg1
        simp [hr1, hg0, hwf]
      · simp [hg0, hg1]
  obtain ⟨hj0, -, rfl⟩ := fdalloc_some hd0
  split
  · -- no descriptor for the write end: `fd0` is cleared and both files go back
    rename_i s3 hd1
    obtain rfl := fdalloc_none hd1
    obtain ⟨t2, hc2, ht2, hr2⟩ := ht1.fileclose (f := rf) (by omega)
    obtain ⟨t3, hc3, ht3, hr3⟩ := ht2.fileclose (f := wf) (by simp [hr2, Ne.symm hne, hwf])
    apply Exists.intro
    refine ⟨-1, ?_, ?_⟩
    · simp only [setOfile_ftable, hc2, hc3, except_ok_bind]
      rfl
    refine ⟨ht3, hs.counted.of_eq fun g => ?_, ⟨rfl, rfl, rfl, fun q hq => by simp [setOfile, hq]⟩⟩
    have e₁ := refs_install (s := { s with ftable := t1 }) rf g hj0
    have e₂ := refs_clear g
      (show ({ s with ftable := t1 }.setOfile p fd0 (some rf)).ofile p fd0 = some rf by simp [setOfile])
    simp only [refs_ftable] at e₁ e₂ ⊢
    show (t3.file g).ref + _ = _ + _
    rw [hr3 g, hr2 wf, hr2 g, hr g]
    by_cases hg0 : g = rf
    · subst hg0
      simp only [hne, if_true, true_or, if_false] at e₁ e₂ ⊢
      omega
    · by_cases hg1 : g = wf
      · subst hg1
        simp only [hg0, if_false, if_true, or_true] at e₁ e₂ ⊢
        omega
      · simp only [hg0, hg1, if_false, or_self] at e₁ e₂ ⊢
        omega
  rename_i s3 fd1 hd1
  obtain ⟨hj1, -, rfl⟩ := fdalloc_some hd1
  -- both ends installed
  refine ⟨_, 0, rfl, ht1, hs.counted.of_eq fun g => ?_,
    ⟨rfl, rfl, rfl, fun q hq => by simp [setOfile, hq]⟩⟩
  have e₁ := refs_install (s := { s with ftable := t1 }) rf g hj0
  have e₂ := refs_install (s := { s with ftable := t1 }.setOfile p fd0 (some rf)) wf g hj1
  simp only [refs_ftable] at e₁ e₂
  show (t1.file g).ref + _ = _ + _
  rw [e₂, e₁, hr g]
  by_cases hg0 : g = rf
  · subst hg0
    simp only [hne, if_true, true_or, if_false, hr0]
    omega
  · by_cases hg1 : g = wf
    · subst hg1
      simp only [hg0, if_false, if_true, or_true, hr1]
      omega
    · simp only [hg0, hg1, if_false, or_self]
      omega

/-! ### `fork`, `exit`, `wait` -/

/-- **`fork`'s descriptor loop**: over descriptors the child does not hold yet, each `filedup`
succeeds and each copy is counted; only the child's descriptors change. -/
theorem forkFiles_spec {cur np : Fin NPROC} (hne : cur ≠ np) :
    ∀ (is : List (Fin NOFILE)) (s : FileSys), is.Nodup → s.ftable.Tidy S → s.Counted →
      (∀ j ∈ is, s.ofile np j = none) →
      ∃ s', forkFiles cur np s is = .ok s' ∧ s'.ftable.Tidy S ∧ s'.Counted ∧ Own np s s' ∧
        ∀ j, s'.ofile np j = if j ∈ is then s.ofile cur j else s.ofile np j := by
  intro is
  induction is with
  | nil =>
    intro s _ ht hc _
    exact ⟨s, rfl, ht, hc, Own.refl np s, fun j => by simp⟩
  | cons i is ih =>
    intro s hnd ht hc hfree
    obtain ⟨hi, hnd⟩ := List.nodup_cons.mp hnd
    have hrest : ∀ j ∈ is, s.ofile np j = none := fun j hj => hfree j (List.mem_cons_of_mem i hj)
    have hnp' : s.ofile np i = none := hfree i List.mem_cons_self
    rw [forkFiles]
    cases hf : s.ofile cur i with
    | none =>
      obtain ⟨s', hrun, ht', hc', hown, hrow⟩ := ih s hnd ht hc hrest
      refine ⟨s', hrun, ht', hc', hown, fun j => ?_⟩
      rw [hrow j]
      by_cases hj : j = i
      · subst hj
        simp [hf, hi, hnp']
      · simp [hj]
    | some f =>
      -- the parent's descriptor holds `f`, so `filedup` succeeds; the child's copy is new
      have hpos : 1 ≤ (s.ftable.file f).ref := hc f ▸ refs_pos hf
      dsimp only
      rw [filedup_of_pos hpos, except_ok_bind]
      have hc' : ({ s.setOfile np i (some f) with
          ftable := s.ftable.setFile f { s.ftable.file f with ref := (s.ftable.file f).ref + 1 } } :
            FileSys).Counted := by
        refine hc.setOfile fun g => ?_
        rw [ref_setFile, hnp']
        by_cases hg : g = f
        · subst hg
          simp
        · simp [hg, Ne.symm hg]
      obtain ⟨s', hrun, ht', hc'', hown, hrow⟩ := ih _ hnd (ht.setRef (Nat.succ_pos _)) hc'
        fun j hj => by
          have hji : j ≠ i := fun h => hi (h ▸ hj)
          rw [setOfile_ofile]
          simp only [hji, and_false, if_false]
          exact hrest j hj
      refine ⟨s', hrun, ht', hc'', (Own.setOfile np i _ _).trans hown, fun j => ?_⟩
      -- the loop reads the parent's row, which the copies into the child's row leave alone
      rw [hrow j]
      simp only [setOfile_ofile, hne, false_and, if_false, true_and]
      by_cases hj : j = i
      · subst hj
        simp [hf, hi]
      · simp [hj]

/-- **`exit`'s descriptor loop**: each `fileclose` succeeds and each cleared descriptor is
uncounted; the caller ends with none of the loop's descriptors. -/
theorem exitFiles_spec (cur : Fin NPROC) :
    ∀ (fds : List (Fin NOFILE)) (s : FileSys), s.ftable.Tidy S → s.Counted →
      ∃ s', exitFiles cur s fds = .ok s' ∧ s'.ftable.Tidy S ∧ s'.Counted ∧ Own cur s s' ∧
        ∀ fd, s'.ofile cur fd = if fd ∈ fds then none else s.ofile cur fd := by
  intro fds
  induction fds with
  | nil =>
    intro s ht hc
    exact ⟨s, rfl, ht, hc, Own.refl cur s, fun fd => by simp⟩
  | cons i is ih =>
    intro s ht hc
    rw [exitFiles]
    cases hf : s.ofile cur i with
    | none =>
      obtain ⟨s', hrun, ht', hc', hown, hrow⟩ := ih s ht hc
      refine ⟨s', hrun, ht', hc', hown, fun fd => ?_⟩
      rw [hrow fd]
      by_cases hfd : fd = i
      · subst hfd
        simp [hf]
      · simp [hfd]
    | some f =>
      -- the caller's descriptor holds `f`, so `fileclose` succeeds
      have hpos : 1 ≤ (s.ftable.file f).ref := hc f ▸ refs_pos hf
      obtain ⟨t, hcl, ht1, hr⟩ := ht.fileclose hpos
      dsimp only
      rw [hcl, except_ok_bind]
      have hc1 : ({ s.setOfile cur i none with ftable := t } : FileSys).Counted := by
        refine hc.setOfile fun g => ?_
        rw [hr g, hf]
        by_cases hg : g = f
        · subst hg
          simp only [if_true, reduceCtorEq, if_false]
          omega
        · simp [hg, Ne.symm hg]
      obtain ⟨s', hrun, ht', hc', hown, hrow⟩ := ih _ ht1 hc1
      refine ⟨s', hrun, ht', hc', (Own.setOfile cur i _ _).trans hown, fun fd => ?_⟩
      rw [hrow fd]
      show (if fd ∈ is then none else (s.setOfile cur i none).ofile cur fd) = _
      rw [setOfile_ofile]
      by_cases hfd : fd = i
      · subst hfd
        simp
      · simp [hfd]

theorem Inv.fork (hs : s.Inv S) {cur : Fin NPROC} (hcur : s.live cur = true) (ok : Bool) :
    ∃ s', fork s cur ok = .ok s' ∧ s'.Inv S := by
  unfold FileSys.fork
  rcases hnp : firstIdx NPROC (fun p => s.state p == .unused) with _ | np
  · exact ⟨s, rfl, hs⟩
  dsimp only
  cases ok
  · exact ⟨s, rfl, hs⟩
  -- the child's slot is unused, so it holds no descriptor and is not the caller's
  have hunused : s.state np = .unused := by simpa using firstIdx_spec hnp
  have hdead : s.live np = false := by simp [live, hunused]
  have hne : cur ≠ np := by
    rintro rfl
    rw [hcur] at hdead
    cases hdead
  obtain ⟨s1, hrun, ht, hc, hown, -⟩ := forkFiles_spec hne (List.finRange NOFILE) s
    (List.nodup_finRange _) hs.tidy hs.counted fun j _ => hs.dead np hdead j
  apply Exists.intro
  constructor
  · simp only [Bool.not_true, Bool.false_eq_true, if_false]
    rw [hrun, except_ok_bind]
  · refine ⟨ht, hc, fun q hq fd => ?_⟩
    have hqnp : q ≠ np := by
      rintro rfl
      simp [live] at hq
    have hq' : s.live q = false := by simpa [live, hqnp, hown.state] using hq
    show s1.ofile q fd = none
    rw [hown.ofile q hqnp]
    exact hs.dead q hq' fd

theorem Inv.exit (hs : s.Inv S) {cur : Fin NPROC} (hcur : cur ≠ s.initproc) :
    ∃ s', exit s cur = .ok s' ∧ s'.Inv S := by
  obtain ⟨s1, hrun, ht, hc, hown, hrow⟩ :=
    exitFiles_spec cur (List.finRange NOFILE) s hs.tidy hs.counted
  apply Exists.intro
  constructor
  · rw [FileSys.exit, if_neg hcur, hrun, except_ok_bind]
  · refine ⟨ht, hc, fun q hq fd => ?_⟩
    show s1.ofile q fd = none
    by_cases hqc : q = cur
    · subst hqc
      simp [hrow fd]
    · have hq' : s.live q = false := by simpa [live, hqc, hown.state] using hq
      rw [hown.ofile q hqc]
      exact hs.dead q hq' fd

theorem Inv.wait (hs : s.Inv S) (cur : Fin NPROC) : (wait s cur).Inv S := by
  unfold FileSys.wait
  split
  · rename_i p hp
    -- the reaped child is a zombie, so it holds no descriptor
    have hz : s.state p = .zombie := by
      have := firstIdx_spec hp
      simp only [Bool.and_eq_true, beq_iff_eq] at this
      exact this.2
    refine ⟨hs.tidy, hs.counted, fun q hq fd => ?_⟩
    by_cases hqp : q = p
    · subst hqp
      exact hs.dead q (by simp [live, hz]) fd
    · exact hs.dead q (by simpa [live, hqp] using hq) fd
  · exact hs

/-! ### Every call -/

/-- `exit` by `initproc` panics. -/
theorem sysStep_exit_initproc (s : FileSys) :
    sysStep s s.initproc .exit = .error (.panic "init exiting") := by
  simp [sysStep, FileSys.exit]

/-- **Every call of a running process succeeds and keeps `Inv`**, except `exit` by `initproc`. -/
theorem Inv.sysStep (hs : s.Inv S) {p : Fin NPROC} (hp : s.live p = true) (c : FileCall)
    (hc : c = .exit → p ≠ s.initproc) : ∃ s', sysStep s p c = .ok s' ∧ s'.Inv S := by
  cases c with
  | openInode ip type omode =>
    obtain ⟨s', r, h, hk⟩ := hs.sys_open p ip type omode
    exact ⟨s', by rw [FileSys.sysStep, h]; rfl, hs.of_kept hp hk⟩
  | dup fd =>
    obtain ⟨s', r, h, hk⟩ := hs.sys_dup p fd
    exact ⟨s', by rw [FileSys.sysStep, h]; rfl, hs.of_kept hp hk⟩
  | close fd =>
    obtain ⟨s', r, h, hk⟩ := hs.sys_close p fd
    exact ⟨s', by rw [FileSys.sysStep, h]; rfl, hs.of_kept hp hk⟩
  | pipe =>
    obtain ⟨s', r, h, hk⟩ := hs.sys_pipe p
    exact ⟨s', by rw [FileSys.sysStep, h]; rfl, hs.of_kept hp hk⟩
  | fork ok => exact hs.fork hp ok
  | exit => exact hs.exit (hc rfl)
  | wait => exact ⟨_, rfl, hs.wait p⟩

/-- One step of a run keeps `Inv`. -/
theorem Inv.step (hs : s.Inv S) {l : Fin NPROC × FileCall} {s' : FileSys}
    (h : step s l = some s') : s'.Inv S := by
  obtain ⟨p, c⟩ := l
  unfold FileSys.step at h
  split at h
  · rename_i hp
    by_cases hc : c = .exit ∧ p = s.initproc
    · obtain ⟨rfl, rfl⟩ := hc
      rw [sysStep_exit_initproc] at h
      cases h
    · obtain ⟨s'', h', hs''⟩ := hs.sysStep hp c fun hce hpi => hc ⟨hce, hpi⟩
      rw [h'] at h
      cases h
      exact hs''
  · cases h

/-- The state at boot satisfies `Inv`, with its free pages in play. -/
theorem Inv.boot (h : Boot s) : s.Inv s.ftable.kmem.freelist.toFinset := by
  have hnone : ∀ f, (s.ftable.file f).pipeEnd = none := fun f => by
    rw [h.file f]
    rfl
  have hused : s.ftable.used = ∅ := by
    ext pg
    simp [mem_used, hnone]
  refine ⟨⟨fun f _ => by rw [h.file f]; rfl, fun f pg w hf => ?_, fun f pg w _ hf => ?_,
    fun f _ e hf => ?_, fun f pg w hf => ?_, h.kmem, by rw [hused, Finset.union_empty]⟩,
    fun f => ?_, fun p _ fd => h.ofile p fd⟩
  all_goals try (rw [hnone] at hf; cases hf)
  -- no descriptor is open, so nothing is counted
  rw [h.file f]
  refine (total_eq_zero fun q => ?_).symm
  exact (tally_eq_zero _ _).mpr fun fd => by simp [h.ofile q fd]

/-- **`Inv` holds along every run from boot**, with the pages in play those free at boot. -/
theorem inv_of_run {s₀ s : FileSys} (h₀ : Boot s₀) (ls : List (Fin NPROC × FileCall))
    (h : exec step s₀ ls = some s) : s.Inv s₀.ftable.kmem.freelist.toFinset :=
  exec_invariant (Inv _) (fun _ _ _ hs hstep => hs.step hstep) ls s₀ s (Inv.boot h₀) h

/-- Every reachable state satisfies `Inv` for the pages in play. -/
theorem Reachable.inv (h : s.Reachable) : ∃ S, s.Inv S := by
  obtain ⟨s₀, ls, h₀, hrun⟩ := h
  exact ⟨_, inv_of_run h₀ ls hrun⟩

/-! ### Which descriptor a call returns -/

/-- A `close` that returns `0` cleared the descriptor and closed its file. -/
theorem sys_close_zero {s₁ : FileSys} {p : Fin NPROC} {fd : Fin NOFILE}
    (h : sys_close s p fd = .ok (s₁, 0)) :
    ∃ f t, s.ofile p fd = some f ∧ s.ftable.fileclose f = .ok t ∧
      s₁ = { s.setOfile p fd none with ftable := t } := by
  unfold FileSys.sys_close at h
  rw [argfd_fin] at h
  cases hf : s.ofile p fd with
  | none =>
    rw [hf] at h
    cases h
  | some f =>
    rw [hf] at h
    dsimp only at h
    obtain ⟨t, hc, h⟩ := except_bind_eq_ok.mp h
    cases h
    exact ⟨f, t, rfl, hc, rfl⟩

/-- **`open` returns the lowest free descriptor.** -/
theorem sys_open_lowest {s' : FileSys} {p : Fin NPROC} {ip type omode : ℕ} {r : ℤ}
    (h : sys_open s p ip type omode = .ok (s', r)) (hr : r ≠ -1) :
    ∃ fd : Fin NOFILE, r = fd ∧ s.ofile p fd = none ∧ ∀ j < fd, s.ofile p j ≠ none := by
  unfold FileSys.sys_open at h
  split at h
  · cases h
    exact absurd rfl hr
  split at h
  · cases h
    exact absurd rfl hr
  rcases ha : s.ftable.filealloc with ⟨t1, _ | f⟩ <;> rw [ha] at h <;> dsimp only at h
  · cases h
    exact absurd rfl hr
  split at h
  · obtain ⟨t, -, h⟩ := except_bind_eq_ok.mp h
    cases h
    exact absurd rfl hr
  · rename_i s2 fd hd
    obtain ⟨hfree, hlow, -⟩ := fdalloc_some hd
    cases h
    exact ⟨fd, rfl, hfree, hlow⟩

/-- **`dup` returns the lowest free descriptor**, which then holds the duplicated file. -/
theorem sys_dup_lowest {s' : FileSys} {p : Fin NPROC} {fd : ℤ} {r : ℤ}
    (h : sys_dup s p fd = .ok (s', r)) (hr : r ≠ -1) :
    ∃ (j i : Fin NOFILE) (f : Fin NFILE), r = j ∧ s.ofile p j = none ∧
      (∀ k < j, s.ofile p k ≠ none) ∧ (i : ℤ) = fd ∧ s.ofile p i = some f ∧
      s'.ofile p j = some f := by
  unfold FileSys.sys_dup at h
  rcases ha : argfd s p fd with _ | ⟨i, f⟩ <;> rw [ha] at h <;> dsimp only at h
  · cases h
    exact absurd rfl hr
  obtain ⟨hi, hfd⟩ := argfd_some ha
  split at h
  · cases h
    exact absurd rfl hr
  · rename_i s1 j hd
    obtain ⟨hfree, hlow, rfl⟩ := fdalloc_some hd
    obtain ⟨t, -, h⟩ := except_bind_eq_ok.mp h
    cases h
    exact ⟨j, i, f, rfl, hfree, hlow, hfd, hi, by simp [setOfile]⟩

end FileSys

end Xv6Lab
