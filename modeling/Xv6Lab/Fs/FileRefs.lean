import Xv6Lab.Fs.File

/-!
# The file table and pipe pages

What makes `file.c` safe is a fact about the whole system, never about one call: `f->ref` is the
number of descriptors, over every process, that point at `f` (`Descriptors` states and keeps
it).  Under it sits what `pipe.c` needs, a fact about the table alone: each pipe has one file per
end, the end of an open pipe file is open, and no page a pipe file uses is on the free list.

* `FileTable.Tidy S` — what every call of `file.c` and `pipe.c` keeps, for the pages `S` that
  are in play: a free slot is `FD_NONE`; each open pipe file's end is open, each open end has its
  file, one file per end; a pipe file's page is a page `kfree` takes and is not free; and the
  free pages and the pages of pipe files are, together, `S`;
* `Tidy.of_pipeEnd` — the frame rule: a change that leaves every file's pipe end, the pipes and
  the allocator alone keeps `Tidy`;
* `Tidy.filealloc`, `Tidy.fileclose`, `Tidy.pipealloc` — the calls, with what each does to the
  `ref`s: the last close of a pipe's last end gives its page back (`Tidy.release`), and
  `pipealloc` takes the head of the free list (`Tidy.install`).
-/

namespace Xv6Lab

open Function Scan Tally Run

/-! ### Pages and pipe ends -/

/-- A page `kfree` takes back: what `Kmem.Sound` asks of each page on the free list. -/
def Kmem.Page (m : Kmem) (v : ℕ) : Prop :=
  v % PGSIZE = 0 ∧ m.kend ≤ v ∧ v < UINT ∧ V2P v < PHYSTOP

/-- The free list with `v` pushed, as `kfree(v)` leaves it. -/
def Kmem.push (m : Kmem) (v : ℕ) : Kmem :=
  { m with freelist := v :: m.freelist, kfreed := v :: m.kfreed }

theorem kfree_of_page {m : Kmem} {v : ℕ} (h : m.Page v) : kfree v m = .ok (m.push v) := by
  obtain ⟨h₁, h₂, -, h₄⟩ := h
  unfold kfree
  rw [if_neg (by omega)]
  rfl

theorem Kmem.Sound.push {m : Kmem} (hs : m.Sound) {v : ℕ} (hv : m.Page v)
    (hn : v ∉ m.freelist) : (m.push v).Sound where
  nodup := List.nodup_cons.mpr ⟨hn, hs.nodup⟩
  kend_gt := hs.kend_gt
  page u hu := by
    rcases List.mem_cons.mp hu with rfl | hu
    · exact hv
    · exact hs.page u hu

/-- `kalloc` from a sound free list: the head is a page `kfree` takes, and the rest is sound. -/
theorem Kmem.Sound.pop {m : Kmem} (hs : m.Sound) {v : ℕ} {rest : List ℕ}
    (h : m.freelist = v :: rest) :
    kalloc m = ({ m with freelist := rest }, v) ∧ m.Page v ∧ v ∉ rest ∧ 0 < v ∧
      ({ m with freelist := rest } : Kmem).Sound := by
  have hv : v ∈ m.freelist := h ▸ List.mem_cons_self
  have hnd := hs.nodup
  rw [h] at hnd
  refine ⟨by simp [kalloc, h], hs.page v hv, (List.nodup_cons.mp hnd).1, ?_, ?_⟩
  · have := (hs.page v hv).2.1
    have := hs.kend_gt
    unfold KERNBASE at *
    omega
  · exact ⟨(List.nodup_cons.mp hnd).2, hs.kend_gt, fun u hu => hs.page u (h ▸ List.mem_cons_of_mem v hu)⟩

namespace Pipe

@[simp] theorem isOpen_alloc (data : Fin PIPESIZE → UInt8) (w : Bool) :
    (alloc data).isOpen w = true := by
  cases w <;> rfl

@[simp] theorem isOpen_pipeclose_self (p : Pipe) (w : Bool) : (p.pipeclose w).isOpen w = false := by
  cases w <;> rfl

theorem isOpen_pipeclose_of_ne (p : Pipe) {w w' : Bool} (h : w' ≠ w) :
    (p.pipeclose w).isOpen w' = p.isOpen w' := by
  cases w <;> cases w' <;> first | exact absurd rfl h | rfl

theorem freed_iff (p : Pipe) : p.freed = true ↔ ∀ w, p.isOpen w = false := by
  constructor
  · intro h w
    cases w <;> simp_all [freed, isOpen]
  · intro h
    have h₁ := h true
    have h₀ := h false
    simp only [isOpen, if_true] at h₁
    simp only [isOpen, Bool.false_eq_true, if_false] at h₀
    simp [freed, h₀, h₁]

end Pipe

/-- The end of a pipe a file is: the pipe's page and whether it is the write end. -/
def File.pipeEnd (x : File) : Option (ℕ × Bool) :=
  if x.type = .pipe then some (x.pipe, x.writable) else none

@[simp] theorem File.pipeEnd_eq_some {x : File} {pg : ℕ} {w : Bool} :
    x.pipeEnd = some (pg, w) ↔ x.type = .pipe ∧ x.pipe = pg ∧ x.writable = w := by
  unfold File.pipeEnd
  split <;> simp_all

theorem File.pipeEnd_of_ne {x : File} (h : x.type ≠ .pipe) : x.pipeEnd = none := if_neg h

namespace FileTable

/-- The pages of pipe files. -/
def used (t : FileTable) : Finset ℕ :=
  (Finset.univ.filter fun f => (t.file f).type = .pipe).image fun f => (t.file f).pipe

theorem mem_used {t : FileTable} {pg : ℕ} : pg ∈ t.used ↔ ∃ f w, (t.file f).pipeEnd = some (pg, w) := by
  simp [used]

/-! ### The invariant of `file.c` and `pipe.c` -/

/-- What every call of `file.c` and `pipe.c` keeps, with `S` the pages in play. -/
structure Tidy (S : Finset ℕ) (t : FileTable) : Prop where
  /-- A slot no one holds is `FD_NONE`. -/
  free_none : ∀ f, (t.file f).ref = 0 → (t.file f).type = .none
  /-- A pipe file's end is open. -/
  end_open : ∀ f pg w, (t.file f).pipeEnd = some (pg, w) → (t.pipes pg).isOpen w = true
  /-- An open end of a pipe in use has its file. -/
  end_file : ∀ f pg w w', (t.file f).pipeEnd = some (pg, w) → (t.pipes pg).isOpen w' = true →
    ∃ g, (t.file g).pipeEnd = some (pg, w')
  /-- One file per end. -/
  end_unique : ∀ f g e, (t.file f).pipeEnd = some e → (t.file g).pipeEnd = some e → f = g
  /-- A pipe file's page is a page `kfree` takes, and it is not free. -/
  page : ∀ f pg w, (t.file f).pipeEnd = some (pg, w) → t.kmem.Page pg ∧ pg ∉ t.kmem.freelist
  /-- The free list is sound. -/
  sound : t.kmem.Sound
  /-- The free pages and the pages of pipe files are the pages in play. -/
  pages : t.kmem.freelist.toFinset ∪ t.used = S

variable {S : Finset ℕ} {t : FileTable}

/-- No page is both free and the page of a pipe file. -/
theorem Tidy.disjoint (ht : t.Tidy S) : Disjoint t.kmem.freelist.toFinset t.used := by
  rw [Finset.disjoint_left]
  intro pg hfree hused
  obtain ⟨f, w, hf⟩ := mem_used.mp hused
  exact (ht.page f pg w hf).2 (List.mem_toFinset.mp hfree)

/-- **The frame rule**: a change that keeps every file's pipe end, the pipes and the allocator
keeps `Tidy`, when the free slots stay `FD_NONE`. -/
theorem Tidy.of_pipeEnd (ht : t.Tidy S) {t' : FileTable}
    (he : ∀ g, (t'.file g).pipeEnd = (t.file g).pipeEnd) (hp : t'.pipes = t.pipes)
    (hk : t'.kmem = t.kmem) (hn : ∀ f, (t'.file f).ref = 0 → (t'.file f).type = .none) :
    t'.Tidy S := by
  have hu : t'.used = t.used := by
    ext pg
    simp only [mem_used, he]
  refine ⟨hn, ?_, ?_, ?_, ?_, ?_, ?_⟩
  · intro f pg w hf
    rw [hp]
    exact ht.end_open f pg w (he f ▸ hf)
  · intro f pg w w' hf ho
    obtain ⟨g, hg⟩ := ht.end_file f pg w w' (he f ▸ hf) (hp ▸ ho)
    exact ⟨g, (he g).trans hg⟩
  · intro f g e hf hg
    exact ht.end_unique f g e (he f ▸ hf) (he g ▸ hg)
  · intro f pg w hf
    rw [hk]
    exact ht.page f pg w (he f ▸ hf)
  · exact hk ▸ ht.sound
  · rw [hk, hu]
    exact ht.pages

/-- Replacing one file by one with the same pipe end keeps `Tidy`. -/
theorem Tidy.setFile (ht : t.Tidy S) {f : Fin NFILE} {x : File}
    (hx : x.ref = 0 → x.type = .none) (he : x.pipeEnd = (t.file f).pipeEnd) :
    (t.setFile f x).Tidy S := by
  refine ht.of_pipeEnd (fun g => ?_) rfl rfl (fun g hg => ?_)
  · by_cases hgf : g = f
    · subst hgf
      simpa using he
    · simp [hgf]
  · by_cases hgf : g = f
    · subst hgf
      simp only [setFile_file, update_self] at hg ⊢
      exact hx hg
    · simp only [setFile_file, ne_eq, hgf, not_false_eq_true, update_of_ne] at hg ⊢
      exact ht.free_none g hg

/-- Moving a reference count that stays positive keeps `Tidy`. -/
theorem Tidy.setRef (ht : t.Tidy S) {f : Fin NFILE} {r : ℕ} (hr : 0 < r) :
    (t.setFile f { t.file f with ref := r }).Tidy S :=
  ht.setFile (fun h => absurd h (Nat.pos_iff_ne_zero.mp hr)) rfl

/-! ### `filealloc`, `filedup` -/

theorem filealloc_some {t' : FileTable} {f : Fin NFILE} (h : t.filealloc = (t', some f)) :
    (t.file f).ref = 0 ∧ t' = t.setFile f { t.file f with ref := 1 } := by
  unfold filealloc at h
  split at h
  · cases h
  · rename_i g hg
    cases h
    exact ⟨by simpa using firstIdx_spec hg, rfl⟩

theorem filealloc_none {t' : FileTable} (h : t.filealloc = (t', none)) : t' = t := by
  unfold filealloc at h
  split at h
  · cases h
    rfl
  · cases h

theorem Tidy.filealloc (ht : t.Tidy S) {t' : FileTable} {r : Option (Fin NFILE)}
    (h : t.filealloc = (t', r)) : t'.Tidy S := by
  cases r with
  | none => exact filealloc_none h ▸ ht
  | some f =>
    rw [(filealloc_some h).2]
    exact ht.setRef Nat.one_pos

theorem filedup_of_pos {f : Fin NFILE} (h : 1 ≤ (t.file f).ref) :
    t.filedup f = .ok (t.setFile f { t.file f with ref := (t.file f).ref + 1 }) :=
  if_neg (Nat.not_lt.mpr h)

/-! ### `pipeclose`, `fileclose` -/

theorem pipeclose_eq {pg : ℕ} {w : Bool} (hp : t.kmem.Page pg) :
    t.pipeclose pg w = .ok { t with
      pipes := update t.pipes pg ((t.pipes pg).pipeclose w),
      kmem := if ((t.pipes pg).pipeclose w).freed then t.kmem.push pg else t.kmem } := by
  unfold pipeclose
  split
  · rename_i hfreed
    simp only [hfreed, if_true, kfree_of_page hp, except_ok_bind]
  · rename_i hfreed
    simp only [hfreed, Bool.false_eq_true, if_false]

theorem fileclose_of_lt {f : Fin NFILE} (h : 1 < (t.file f).ref) :
    t.fileclose f = .ok (t.setFile f { t.file f with ref := (t.file f).ref - 1 }) := by
  unfold fileclose
  rw [if_neg (by omega), if_pos (by omega)]

theorem fileclose_of_last {f : Fin NFILE} (h : (t.file f).ref = 1) :
    t.fileclose f = if (t.file f).type = .pipe then
        (t.setFile f { t.file f with ref := 0, type := .none }).pipeclose (t.file f).pipe
          (t.file f).writable
      else .ok (t.setFile f { t.file f with ref := 0, type := .none }) := by
  unfold fileclose
  rw [if_neg (by omega), if_neg (by omega)]

theorem fileclose_of_zero {f : Fin NFILE} (h : (t.file f).ref = 0) :
    t.fileclose f = .error (.panic "fileclose") := by
  unfold fileclose
  rw [if_pos (by omega)]

/-! ### The last close of a pipe end -/

section Release

variable {f : Fin NFILE} {pg : ℕ} {w : Bool}

/-- Two pipe files on one page are its two ends. -/
theorem Tidy.other_end (ht : t.Tidy S) {g : Fin NFILE} {pg' : ℕ} {w' : Bool}
    (hf : (t.file f).pipeEnd = some (pg, w)) (hg : (t.file g).pipeEnd = some (pg', w'))
    (hgf : g ≠ f) (hpg : pg' = pg) : w' ≠ w := by
  rintro rfl
  subst hpg
  exact hgf (ht.end_unique g f _ hg hf)

/-- After `f` is released, the pipe files are the other pipe files, with the same ends. -/
theorem pipeEnd_release {x : File} (hx : x.pipeEnd = none) (g : Fin NFILE) (e : ℕ × Bool) :
    (update t.file f x g).pipeEnd = some e ↔ g ≠ f ∧ (t.file g).pipeEnd = some e := by
  by_cases hgf : g = f
  · subst hgf
    simp [hx]
  · simp [hgf]

/-- Closing end `w` of the pipe at `pg` leaves every other end as it was. -/
theorem isOpen_release (pg' : ℕ) (w' : Bool) :
    (update t.pipes pg ((t.pipes pg).pipeclose w) pg').isOpen w' = true ↔
      (t.pipes pg').isOpen w' = true ∧ (pg' = pg → w' ≠ w) := by
  by_cases hpg : pg' = pg
  · subst hpg
    by_cases hw : w' = w
    · subst hw
      simp
    · simp [Pipe.isOpen_pipeclose_of_ne _ hw, hw]
  · simp [hpg]

/-- While the other end of `f`'s pipe has a file, closing `f`'s end does not free the pipe. -/
theorem Tidy.not_freed (ht : t.Tidy S) (hf : (t.file f).pipeEnd = some (pg, w)) {g : Fin NFILE}
    {w' : Bool} (hg : (t.file g).pipeEnd = some (pg, w')) (hgf : g ≠ f) :
    ((t.pipes pg).pipeclose w).freed = false := by
  have ho : (update t.pipes pg ((t.pipes pg).pipeclose w) pg).isOpen w' = true :=
    (isOpen_release pg w').mpr ⟨ht.end_open g pg w' hg, fun _ => ht.other_end hf hg hgf rfl⟩
  rw [update_self] at ho
  cases hfr : ((t.pipes pg).pipeclose w).freed
  · rfl
  · rw [(Pipe.freed_iff _).mp hfr w'] at ho
    cases ho

/-- Once the pipe at `pg` is not freed by the close, its other end is open and has its file. -/
theorem Tidy.other_file (ht : t.Tidy S) (hf : (t.file f).pipeEnd = some (pg, w))
    (hfr : ((t.pipes pg).pipeclose w).freed = false) :
    ∃ g w', g ≠ f ∧ (t.file g).pipeEnd = some (pg, w') := by
  obtain ⟨w', hw'⟩ : ∃ w', ((t.pipes pg).pipeclose w).isOpen w' = true := by
    by_contra hall
    have hfreed : ((t.pipes pg).pipeclose w).freed = true :=
      (Pipe.freed_iff _).mpr fun w' => Bool.eq_false_iff.mpr fun h => hall ⟨w', h⟩
    rw [hfr] at hfreed
    cases hfreed
  have ho := (isOpen_release (t := t) (w := w) pg w').mp (by rw [update_self]; exact hw')
  obtain ⟨g, hg⟩ := ht.end_file f pg w w' hf ho.1
  refine ⟨g, w', ?_, hg⟩
  rintro rfl
  rw [hf, Option.some.injEq, Prod.mk.injEq] at hg
  exact ho.2 rfl hg.2.symm

/-- The pages in play after the release: `pg` leaves the pipe pages exactly when the close
frees it, and then it is free. -/
theorem Tidy.pages_release (ht : t.Tidy S) (hf : (t.file f).pipeEnd = some (pg, w)) {x : File}
    (hx : x.pipeEnd = none) :
    (if ((t.pipes pg).pipeclose w).freed then t.kmem.push pg else t.kmem).freelist.toFinset ∪
      { t with file := update t.file f x }.used = S := by
  rw [← ht.pages]
  ext y
  simp only [Finset.mem_union, List.mem_toFinset, mem_used, pipeEnd_release hx]
  by_cases hy : y = pg
  · subst hy
    -- `y` is free after the close, or the other end's file still holds it
    simp only [show ∃ g w', (t.file g).pipeEnd = some (y, w') from ⟨f, w, hf⟩, or_true, iff_true]
    split
    · exact Or.inl List.mem_cons_self
    · rename_i hfr
      obtain ⟨g, w', hgf, hg⟩ := ht.other_file hf (by simpa using hfr)
      exact Or.inr ⟨g, w', hgf, hg⟩
  · -- another page: free exactly when it was, held by the same files
    have hne : ∀ g w', (t.file g).pipeEnd = some (y, w') → g ≠ f := by
      rintro g w' hg rfl
      rw [hf, Option.some.injEq, Prod.mk.injEq] at hg
      exact hy hg.1.symm
    have hheld : (∃ g w', g ≠ f ∧ (t.file g).pipeEnd = some (y, w')) ↔
        ∃ g w', (t.file g).pipeEnd = some (y, w') :=
      ⟨fun ⟨g, w', _, hg⟩ => ⟨g, w', hg⟩, fun ⟨g, w', hg⟩ => ⟨g, w', hne g w' hg, hg⟩⟩
    rw [hheld]
    split
    · simp only [Kmem.push, List.mem_cons, hy, false_or]
    · rfl

/-- **The last close of a pipe end**: with the file released, the end closed and, when the other
end is closed too, the page pushed on the free list, `Tidy` holds. -/
theorem Tidy.release (ht : t.Tidy S) (hf : (t.file f).pipeEnd = some (pg, w)) {x : File}
    (hx : x.pipeEnd = none) (hxn : x.type = .none) :
    (⟨update t.file f x, update t.pipes pg ((t.pipes pg).pipeclose w),
      if ((t.pipes pg).pipeclose w).freed then t.kmem.push pg else t.kmem⟩ : FileTable).Tidy S := by
  obtain ⟨hpage, hfree⟩ := ht.page f pg w hf
  refine ⟨fun g hg => ?_, fun g pg' w' hg => ?_, fun g pg' w₁ w₂ hg ho => ?_,
    fun g₁ g₂ e h₁ h₂ => ?_, fun g pg' w' hg => ?_, ?_, ht.pages_release hf hx⟩
  · by_cases hgf : g = f
    · subst hgf
      simpa using hxn
    · simp only [ne_eq, hgf, not_false_eq_true, update_of_ne] at hg ⊢
      exact ht.free_none g hg
  · obtain ⟨hgf, hg⟩ := (pipeEnd_release hx g _).mp hg
    exact (isOpen_release pg' w').mpr
      ⟨ht.end_open g pg' w' hg, fun hpg => ht.other_end hf hg hgf hpg⟩
  · obtain ⟨hgf, hg⟩ := (pipeEnd_release hx g _).mp hg
    obtain ⟨ho, hw⟩ := (isOpen_release pg' w₂).mp ho
    obtain ⟨h, hh⟩ := ht.end_file g pg' w₁ w₂ hg ho
    refine ⟨h, (pipeEnd_release hx h _).mpr ⟨?_, hh⟩⟩
    rintro rfl
    rw [hf, Option.some.injEq, Prod.mk.injEq] at hh
    exact hw hh.1.symm hh.2.symm
  · exact ht.end_unique g₁ g₂ e ((pipeEnd_release hx g₁ e).mp h₁).2
      ((pipeEnd_release hx g₂ e).mp h₂).2
  · obtain ⟨hgf, hg⟩ := (pipeEnd_release hx g _).mp hg
    obtain ⟨hp, hn⟩ := ht.page g pg' w' hg
    dsimp only
    split
    · rename_i hfr
      refine ⟨hp, fun hmem => ?_⟩
      rcases List.mem_cons.mp hmem with hpg | h
      · exact absurd (ht.not_freed hf (hpg ▸ hg) hgf) (by simp [hfr])
      · exact hn h
    · exact ⟨hp, hn⟩
  · dsimp only
    split
    · exact ht.sound.push hpage hfree
    · exact ht.sound

end Release

/-- **`fileclose` of a held file**: it succeeds, keeps `Tidy`, and moves only the file's own
`ref`, down by one. -/
theorem Tidy.fileclose (ht : t.Tidy S) {f : Fin NFILE} (hf : 1 ≤ (t.file f).ref) :
    ∃ t', t.fileclose f = .ok t' ∧ t'.Tidy S ∧
      ∀ g, (t'.file g).ref = if g = f then (t.file f).ref - 1 else (t.file g).ref := by
  have href : ∀ x : File, x.ref = (t.file f).ref - 1 → ∀ g,
      (update t.file f x g).ref = if g = f then (t.file f).ref - 1 else (t.file g).ref := by
    intro x hx g
    by_cases hgf : g = f
    · subst hgf
      simp [hx]
    · simp [hgf]
  rcases Nat.lt_or_eq_of_le hf with hlt | heq
  · refine ⟨_, fileclose_of_lt hlt, ht.setRef (by omega), href _ rfl⟩
  · rw [fileclose_of_last heq.symm]
    split
    · rename_i hty
      have hend : (t.file f).pipeEnd = some ((t.file f).pipe, (t.file f).writable) := by simp [hty]
      rw [pipeclose_eq (t := t.setFile f _) (ht.page f _ _ hend).1]
      exact ⟨_, rfl, ht.release (x := { t.file f with ref := 0, type := .none }) hend rfl rfl,
        href _ (by simp [← heq])⟩
    · rename_i hty
      exact ⟨_, rfl, ht.setFile (fun _ => rfl) (File.pipeEnd_of_ne hty ▸ rfl),
        href _ (by simp [← heq])⟩

/-! ### `pipealloc` -/

/-- **A new pipe**: two files that were no pipe end become the two ends of a pipe on the head of
the free list, which leaves the list; `Tidy` holds after. -/
theorem Tidy.install (ht : t.Tidy S) {t' : FileTable} {f0 f1 : Fin NFILE} {v : ℕ}
    {rest : List ℕ} {d : Fin PIPESIZE → UInt8} (hfl : t.kmem.freelist = v :: rest)
    (hne : f0 ≠ f1) (h0 : (t.file f0).pipeEnd = none) (h1 : (t.file f1).pipeEnd = none)
    (he : ∀ g, (t'.file g).pipeEnd = if g = f0 then some (v, false)
      else if g = f1 then some (v, true) else (t.file g).pipeEnd)
    (hp : t'.pipes = update t.pipes v (Pipe.alloc d)) (hk : t'.kmem = { t.kmem with freelist := rest })
    (hn : ∀ f, (t'.file f).ref = 0 → (t'.file f).type = .none) : t'.Tidy S := by
  obtain ⟨-, hpage, hnot, -, hsound⟩ := ht.sound.pop hfl
  -- the old pipe files are on pages other than `v`, which was free
  have hold : ∀ g pg w, (t.file g).pipeEnd = some (pg, w) → pg ≠ v := by
    rintro g pg w hg rfl
    exact (ht.page g pg w hg).2 (hfl ▸ List.mem_cons_self)
  have hE : ∀ g pg w, (t'.file g).pipeEnd = some (pg, w) ↔ (g = f0 ∧ pg = v ∧ w = false) ∨
      (g = f1 ∧ pg = v ∧ w = true) ∨ (g ≠ f0 ∧ g ≠ f1 ∧ (t.file g).pipeEnd = some (pg, w)) := by
    intro g pg w
    rw [he g]
    by_cases hg0 : g = f0
    · subst hg0
      simp [eq_comm, Ne.symm hne]
    · by_cases hg1 : g = f1
      · subst hg1
        simp [hg0, eq_comm]
      · simp [hg0, hg1]
  have hpipes : ∀ pg, pg ≠ v → t'.pipes pg = t.pipes pg := fun pg h => by
    rw [hp, update_of_ne h]
  refine ⟨hn, fun g pg w hg => ?_, fun g pg w w' hg ho => ?_, fun g₁ g₂ e h₁ h₂ => ?_,
    fun g pg w hg => ?_, hk ▸ hsound, ?_⟩
  · rcases (hE g pg w).mp hg with ⟨-, rfl, -⟩ | ⟨-, rfl, -⟩ | ⟨-, -, hg⟩
    · simp [hp]
    · simp [hp]
    · rw [hpipes pg (hold g pg w hg)]
      exact ht.end_open g pg w hg
  · rcases (hE g pg w).mp hg with ⟨-, rfl, -⟩ | ⟨-, rfl, -⟩ | ⟨-, -, hg⟩
    · cases w'
      · exact ⟨f0, (hE f0 pg false).mpr (Or.inl ⟨rfl, rfl, rfl⟩)⟩
      · exact ⟨f1, (hE f1 pg true).mpr (Or.inr (Or.inl ⟨rfl, rfl, rfl⟩))⟩
    · cases w'
      · exact ⟨f0, (hE f0 pg false).mpr (Or.inl ⟨rfl, rfl, rfl⟩)⟩
      · exact ⟨f1, (hE f1 pg true).mpr (Or.inr (Or.inl ⟨rfl, rfl, rfl⟩))⟩
    · rw [hpipes pg (hold g pg w hg)] at ho
      obtain ⟨h, hh⟩ := ht.end_file g pg w w' hg ho
      refine ⟨h, (hE h pg w').mpr (Or.inr (Or.inr ⟨?_, ?_, hh⟩))⟩
      · rintro rfl
        simp [h0] at hh
      · rintro rfl
        simp [h1] at hh
  · obtain ⟨pg, w⟩ := e
    by_cases hv : pg = v
    · -- the new pipe's ends: `f0` is its read end and `f1` its write end
      subst hv
      have hnew : ∀ g, (t'.file g).pipeEnd = some (pg, w) → g = if w then f1 else f0 := by
        intro g hg
        rcases (hE g pg w).mp hg with ⟨rfl, -, rfl⟩ | ⟨rfl, -, rfl⟩ | ⟨-, -, hg⟩
        · rfl
        · rfl
        · exact absurd rfl (hold g pg w hg)
      rw [hnew g₁ h₁, hnew g₂ h₂]
    · have hold' : ∀ g, (t'.file g).pipeEnd = some (pg, w) → (t.file g).pipeEnd = some (pg, w) := by
        intro g hg
        rcases (hE g pg w).mp hg with ⟨-, h, -⟩ | ⟨-, h, -⟩ | ⟨-, -, hg⟩
        · exact absurd h hv
        · exact absurd h hv
        · exact hg
      exact ht.end_unique g₁ g₂ _ (hold' g₁ h₁) (hold' g₂ h₂)
  · rw [hk]
    rcases (hE g pg w).mp hg with ⟨-, rfl, -⟩ | ⟨-, rfl, -⟩ | ⟨-, -, hg⟩
    · exact ⟨hpage, hnot⟩
    · exact ⟨hpage, hnot⟩
    · obtain ⟨hp', hn'⟩ := ht.page g pg w hg
      exact ⟨hp', fun h => hn' (hfl ▸ List.mem_cons_of_mem v h)⟩
  · -- the pages of pipe files gain `v`, which the free list loses
    have hused : t'.used = insert v t.used := by
      ext x
      rw [Finset.mem_insert, mem_used, mem_used]
      constructor
      · rintro ⟨g, w, hg⟩
        rcases (hE g x w).mp hg with ⟨-, rfl, -⟩ | ⟨-, rfl, -⟩ | ⟨-, -, hg⟩
        · exact Or.inl rfl
        · exact Or.inl rfl
        · exact Or.inr ⟨g, w, hg⟩
      · rintro (rfl | ⟨g, w, hg⟩)
        · exact ⟨f0, false, (hE f0 x false).mpr (Or.inl ⟨rfl, rfl, rfl⟩)⟩
        · refine ⟨g, w, (hE g x w).mpr (Or.inr (Or.inr ⟨?_, ?_, hg⟩))⟩
          · rintro rfl
            rw [h0] at hg
            cases hg
          · rintro rfl
            rw [h1] at hg
            cases hg
    rw [← ht.pages, hk, hfl, hused]
    ext x
    simp only [Finset.mem_union, Finset.mem_insert, List.mem_toFinset, List.mem_cons]
    tauto

/-- **`pipealloc`** succeeds on a tidy table and keeps it tidy.  When it fails every `ref` is as
it was; when it succeeds the two files it returns were free, are distinct and now hold one
reference each. -/
theorem Tidy.pipealloc (ht : t.Tidy S) :
    ∃ t' r, t.pipealloc = .ok (t', r) ∧ t'.Tidy S ∧
      (r = none → ∀ g, (t'.file g).ref = (t.file g).ref) ∧
      ∀ f0 f1, r = some (f0, f1) → f0 ≠ f1 ∧ (t.file f0).ref = 0 ∧ (t.file f1).ref = 0 ∧
        ∀ g, (t'.file g).ref = if g = f0 ∨ g = f1 then 1 else (t.file g).ref := by
  rcases h0 : t.filealloc with ⟨t1, _ | f0⟩
  · -- no free file
    have e := filealloc_none h0
    subst t1
    exact ⟨t, none, by rw [FileTable.pipealloc, h0], ht, fun _ _ => rfl, fun _ _ h => by cases h⟩
  obtain ⟨hr0, rfl⟩ := filealloc_some h0
  have ht1 := ht.setRef (f := f0) Nat.one_pos
  rcases h1 : (t.setFile f0 { t.file f0 with ref := 1 }).filealloc with ⟨t2, _ | f1⟩
  · -- no second free file: the first goes back
    obtain rfl := filealloc_none h1
    obtain ⟨t3, hc, ht3, hr3⟩ := ht1.fileclose (f := f0) (by simp)
    refine ⟨t3, none, by rw [FileTable.pipealloc, h0]; simp only [h1, hc, except_ok_bind],
      ht3, fun _ g => ?_, fun _ _ h => by cases h⟩
    rw [hr3 g]
    by_cases hg : g = f0
    · subst hg
      simp [hr0]
    · simp [hg]
  obtain ⟨hr1, rfl⟩ := filealloc_some h1
  have hne : f0 ≠ f1 := by
    rintro rfl
    simp at hr1
  have hr1' : (t.file f1).ref = 0 := by simpa [Ne.symm hne] using hr1
  have ht2 := ht1.setRef (f := f1) Nat.one_pos
  -- the table after both `filealloc`s
  set t2 := (t.setFile f0 { t.file f0 with ref := 1 }).setFile f1
    { (t.setFile f0 { t.file f0 with ref := 1 }).file f1 with ref := 1 } with ht2_def
  have hr2 : ∀ g, (t2.file g).ref = if g = f0 ∨ g = f1 then 1 else (t.file g).ref := by
    intro g
    by_cases hg1 : g = f1
    · subst hg1
      simp [t2]
    · by_cases hg0 : g = f0
      · subst hg0
        simp [t2, hg1]
      · simp [t2, hg0, hg1]
  rcases hfl : t.kmem.freelist with _ | ⟨v, rest⟩
  · -- `kalloc` finds no page: both files go back
    have hk : kalloc t2.kmem = (t2.kmem, 0) := by simp [kalloc, t2, hfl]
    obtain ⟨t3, hc3, ht3, hr3⟩ := ht2.fileclose (f := f0) (by simp [hr2])
    obtain ⟨t4, hc4, ht4, hr4⟩ := ht3.fileclose (f := f1) (by simp [hr3, hr2, Ne.symm hne])
    refine ⟨t4, none, ?_, ht4, fun _ g => ?_, fun _ _ h => by cases h⟩
    · rw [FileTable.pipealloc, h0]
      simp only [h1, hk, if_true]
      exact (show t2 = { t2 with kmem := t2.kmem } from rfl) ▸ (by simp [hc3, hc4])
    · rw [hr4 g, hr3 f1, hr3 g, hr2 f1, hr2 g]
      by_cases hg1 : g = f1
      · subst hg1
        simp [hr1', Ne.symm hne]
      · by_cases hg0 : g = f0
        · subst hg0
          simp [hr0, hg1, hr2]
        · simp [hg0, hg1]
  · -- the pipe: `f0` its read end, `f1` its write end, on the page `kalloc` took
    obtain ⟨hk, -, -, hpos, -⟩ := ht.sound.pop hfl
    have hfree : ∀ f, (t.file f).ref = 0 → (t.file f).pipeEnd = none := fun f hf =>
      File.pipeEnd_of_ne (by rw [ht.free_none f hf]; decide)
    apply Exists.intro
    refine ⟨some (f0, f1), ?_, ?_, (fun h => by cases h), fun g0 g1 h => ?_⟩
    · have hk2 : kalloc t2.kmem = ({ t.kmem with freelist := rest }, v) := hk
      rw [FileTable.pipealloc, h0]
      simp only [h1, hk2, if_neg (Nat.pos_iff_ne_zero.mp hpos)]
      rfl
    · refine ht.install hfl hne (hfree f0 hr0) (hfree f1 hr1') (fun g => ?_) rfl rfl (fun g hg => ?_)
      · by_cases hg1 : g = f1
        · subst hg1
          simp [File.pipeEnd, Ne.symm hne]
        · by_cases hg0 : g = f0
          · subst hg0
            simp [File.pipeEnd, hg1]
          · simp [t2, hg0, hg1]
      · by_cases hg1 : g = f1
        · subst hg1
          simp [t2, Ne.symm hne] at hg
        · by_cases hg0 : g = f0
          · subst hg0
            simp [t2, hg1] at hg
          · simp only [t2, setFile_file, ne_eq, hg0, hg1, not_false_eq_true, update_of_ne] at hg ⊢
            exact ht.free_none g hg
    · simp only [Option.some.injEq, Prod.mk.injEq] at h
      obtain ⟨e0, e1⟩ := h
      subst e0 e1
      refine ⟨hne, hr0, hr1', fun g => ?_⟩
      rw [← hr2 g]
      by_cases hg1 : g = f1
      · subst hg1
        simp [t2, Ne.symm hne]
      · by_cases hg0 : g = f0
        · subst hg0
          simp [t2, hg1]
        · simp [hg0, hg1]

end FileTable

end Xv6Lab
