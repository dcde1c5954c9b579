import Xv6Lab.Fs.Path
import Xv6Lab.Fs.ReadWrite

/-!
# Directory entries (`fs.c`)

`dirlink(dp, name, inum)` writes the entry `(inum, name)` into directory `dp`: it refuses a name
`dirlookup` already finds, scans the directory with `readi` for the first free entry (`inum` `0`),
and writes the entry there with `writei`, or after the last entry when none is free.  Path
resolution reads a disk through `Disk.view`: each inode's type and the bytes `readi` returns of
its contents.

* `dirlinkLoop_spec` — the scan stops at the first free entry, or at the end of the directory,
  and changes no byte of any file;
* `direntOf_written` — the entry `writei` stores reads back as `inum` and the name `strncpy`
  stored;
* `dirlink_dirlookup` — in a directory of whole entries with room for one more, `dirlink` either
  refuses a name already there or adds it: `dirlookup` of the name then finds `inum`, every other
  name finds what it found before, and no other inode changes.

The reads of `dirlookup` go through the view, so a block it would allocate for a hole in the
directory is left out; the reference `dirlookup` takes and `iput` drops is left out with it.
-/

namespace Xv6Lab

open Bytes Strings Run Scan Xv6Lab.Path

namespace Disk

/-- What path resolution reads of a disk: each inode's type, and the `ip->size` bytes `readi`
returns of its contents. -/
def view (d : Disk) : FsView :=
  ⟨fun i => (d.inode i).type, fun i => (List.range (d.inode i).size).map (d.fileByte i)⟩

/-- The loop `for(off = 0; off < dp->size; off += sizeof(de))` of `dirlink`, from `off` with
`fuel` rounds left: the disk after its `readi` calls and the offset it stops at, that of the first
free entry or `dp->size`. -/
def dirlinkLoop (d : Disk) (dp : ℕ) : ℕ → ℕ → Except Crash (Disk × ℕ)
  | 0, off => .ok (d, off)
  | fuel + 1, off =>
    if off < (d.inode dp).size then do
      -- `dirlookup` has checked that `dp` is a directory, so `readi` reads the disk
      let (d, r, de) ← d.readi dp off Mkfs.DIRENT_SIZE (-1, [])
      if r ≠ Mkfs.DIRENT_SIZE then .error (.panic "dirlink read")
      else if getLE (ofList de) 0 2 = 0 then .ok (d, off)
      else d.dirlinkLoop dp fuel (off + Mkfs.DIRENT_SIZE)
    else .ok (d, off)

/-- `dirlink(dp, name, inum)`: the disk after it and its result.  The loop makes at most one
round per entry. -/
def dirlink (d : Disk) (dp : ℕ) (name : List ℕ) (inum : ℕ) : Except Crash (Disk × ℤ) := do
  match ← dirlookup d.view dp name with
  | some _ => .ok (d, -1)
  | none =>
    let (d, off) ← d.dirlinkLoop dp ((d.inode dp).size / Mkfs.DIRENT_SIZE + 1) 0
    -- `strncpy(de.name, name, DIRSIZ); de.inum = inum;`, a `ushort` of two bytes
    let de := [byteOf inum 0, byteOf inum 1] ++ strncpy name DIRSIZ
    let (d, r) ← d.writei dp de off Mkfs.DIRENT_SIZE
    if r ≠ Mkfs.DIRENT_SIZE then .error (.panic "dirlink") else .ok (d, 0)

@[simp] theorem view_type (d : Disk) (i : ℕ) : d.view.type i = (d.inode i).type := rfl

theorem view_data (d : Disk) (i : ℕ) :
    d.view.data i = (List.range (d.inode i).size).map (d.fileByte i) := rfl

@[simp] theorem view_data_length (d : Disk) (i : ℕ) : (d.view.data i).length = (d.inode i).size := by
  simp [view]

theorem ofList_view (d : Disk) {i k : ℕ} (hk : k < (d.inode i).size) :
    ofList (d.view.data i) k = d.fileByte i k := by
  simp [view, ofList, List.getD_eq_getElem?_getD, hk]

/-- Entry `m` of directory `i` as the disk holds it: its `inum` and its `DIRSIZ` name bytes. -/
def direntOf (d : Disk) (i m : ℕ) : ℕ × List ℕ :=
  (getLE (d.fileByte i) (Mkfs.DIRENT_SIZE * m) 2,
    (List.range DIRSIZ).map fun k => d.fileByte i (Mkfs.DIRENT_SIZE * m + 2 + k))

/-- An entry reads only its own sixteen bytes. -/
theorem direntOf_congr {d d' : Disk} {i m : ℕ}
    (h : ∀ k, Mkfs.DIRENT_SIZE * m ≤ k → k < Mkfs.DIRENT_SIZE * m + Mkfs.DIRENT_SIZE →
      d'.fileByte i k = d.fileByte i k) :
    d'.direntOf i m = d.direntOf i m := by
  have h16 := DIRENT_SIZE_eq
  refine Prod.ext (getLE_congr 2 fun k h1 h2 => h k h1 (by omega)) ?_
  refine List.map_congr_left fun k hk => h _ (by omega) ?_
  have hk : k < DIRSIZ := List.mem_range.mp hk
  simp only [DIRSIZ] at hk
  omega

/-- The entries `dirlookup` reads through the view are those the disk holds. -/
theorem entries_view (d : Disk) (i : ℕ) :
    entries (d.view.data i) =
      (List.range ((d.inode i).size / Mkfs.DIRENT_SIZE)).map (d.direntOf i) := by
  rw [entries, view_data_length]
  refine List.map_congr_left fun m hm => ?_
  have hend : Mkfs.DIRENT_SIZE * m + Mkfs.DIRENT_SIZE ≤ (d.inode i).size := by
    have h := (Nat.le_div_iff_mul_le (by decide)).mp (List.mem_range.mp hm)
    rwa [Nat.succ_mul, Nat.mul_comm] at h
  have h16 := DIRENT_SIZE_eq
  refine Prod.ext (getLE_congr 2 fun k h1 h2 => ofList_view d (by omega)) ?_
  show ((d.view.data i).drop (Mkfs.DIRENT_SIZE * m + 2)).take DIRSIZ =
    (List.range DIRSIZ).map fun k => d.fileByte i (Mkfs.DIRENT_SIZE * m + 2 + k)
  apply List.ext_getElem
  · simp only [List.length_take, List.length_drop, view_data_length, List.length_map,
      List.length_range, DIRSIZ]
    omega
  · intro k _ _
    rw [List.getElem_take, List.getElem_drop, List.getElem_map, List.getElem_range]
    simp only [view, List.getElem_map, List.getElem_range]

/-! ### The scan for a free entry -/

/-- **`dirlink`'s scan** of a directory of whole entries, from entry `k` with a round left for
each: it stops at the first free entry from `k` on, or at the end, and keeps every file's bytes;
it fails only when `readi` runs out of blocks for a hole. -/
theorem dirlinkLoop_spec {dp : ℕ} (hdp : dp < NINODES) (fuel : ℕ) :
    ∀ {d : Disk} (k : ℕ), BlockInv d → (d.inode dp).type ≠ T_DEV →
      (d.inode dp).size ≤ MAXFILE * BSIZE → Mkfs.DIRENT_SIZE ∣ (d.inode dp).size →
      k ≤ (d.inode dp).size / Mkfs.DIRENT_SIZE → (d.inode dp).size / Mkfs.DIRENT_SIZE - k < fuel →
      d.dirlinkLoop dp fuel (Mkfs.DIRENT_SIZE * k) = .error (.panic "balloc: out of blocks") ∨
        ∃ d' j, d.dirlinkLoop dp fuel (Mkfs.DIRENT_SIZE * k) = .ok (d', Mkfs.DIRENT_SIZE * j) ∧
          Keeps d d' ∧ SameBytes d d' ∧ k ≤ j ∧ j ≤ (d.inode dp).size / Mkfs.DIRENT_SIZE ∧
          (j < (d.inode dp).size / Mkfs.DIRENT_SIZE → (d.direntOf dp j).1 = 0) ∧
          ∀ m, k ≤ m → m < j → (d.direntOf dp m).1 ≠ 0 := by
  induction fuel with
  | zero => intro d k _ _ _ _ _ hf; omega
  | succ fuel ih =>
    intro d k h hdev hsize hwhole hk hf
    obtain ⟨N, hN⟩ := hwhole
    have h16 := DIRENT_SIZE_eq
    have hdiv : (d.inode dp).size / Mkfs.DIRENT_SIZE = N := by
      rw [hN, Nat.mul_div_cancel_left _ (by decide)]
    rw [hdiv] at hk hf ⊢
    by_cases hkN : k < N
    · -- entry `k` is in the directory: `readi` reads its sixteen bytes
      have hend : Mkfs.DIRENT_SIZE * k + Mkfs.DIRENT_SIZE ≤ (d.inode dp).size := by
        rw [hN, h16] at *
        omega
      have hwrap : Mkfs.DIRENT_SIZE * k + Mkfs.DIRENT_SIZE < UINT := by
        simp only [MAXFILE, NDIRECT, NINDIRECT, BSIZE, UINT] at hsize ⊢
        omega
      have hmin : min Mkfs.DIRENT_SIZE ((d.inode dp).size - Mkfs.DIRENT_SIZE * k) =
          Mkfs.DIRENT_SIZE := by omega
      -- the `inum` `readi` copies out is that of entry `k`
      have hinum : getLE (ofList ((List.range Mkfs.DIRENT_SIZE).map fun t =>
          d.fileByte dp (Mkfs.DIRENT_SIZE * k + t))) 0 2 = (d.direntOf dp k).1 :=
        calc _ = getLE (fun t => d.fileByte dp (Mkfs.DIRENT_SIZE * k + t)) 0 2 :=
              getLE_congr 2 fun t _ ht => by simp [ofList, h16, show t < 16 by omega]
          _ = (d.direntOf dp k).1 := getLE_shift _ _ _ _
      rcases h.readi_cases hdp hdev hsize (-1, []) (by omega) hwrap with he | ⟨d1, hr, hk1, hs1⟩
      · left
        rw [dirlinkLoop, if_pos (by omega), he]
        rfl
      rw [dirlinkLoop, if_pos (by omega), hr, except_ok_bind]
      dsimp only
      rw [hmin, if_neg (by simp), hinum]
      by_cases h0 : (d.direntOf dp k).1 = 0
      · rw [if_pos h0]
        exact .inr ⟨d1, k, rfl, hk1, hs1, le_rfl, hk, fun _ => h0, fun m h1 h2 => by omega⟩
      rw [if_neg h0]
      -- the rest of the scan runs over the disk `readi` left, which has the same entries
      have hsz1 := hk1.size dp hdp
      have hsame : ∀ m, d1.direntOf dp m = d.direntOf dp m := fun m =>
        direntOf_congr fun t _ _ => hs1 dp hdp t
      have hnext : Mkfs.DIRENT_SIZE * k + Mkfs.DIRENT_SIZE = Mkfs.DIRENT_SIZE * (k + 1) := by ring
      have hdiv1 : (d1.inode dp).size / Mkfs.DIRENT_SIZE = N := by rw [hsz1, hdiv]
      rcases ih (k + 1) hk1.inv (by rw [hk1.type dp hdp]; exact hdev) (by rw [hsz1]; exact hsize)
          (by rw [hsz1]; exact ⟨N, hN⟩) (by omega) (by omega) with
        he | ⟨d', j, hrun, hk', hs', hkj, hjN, hfree, hused⟩
      · left
        rw [hnext, he]
      · rw [hdiv1] at hjN hfree
        refine .inr ⟨d', j, by rw [hnext, hrun], hk1.trans hk', hs1.trans hs', by omega, hjN,
          fun hj => by rw [← hsame]; exact hfree hj, fun m h1 h2 => ?_⟩
        rcases Nat.eq_or_lt_of_le h1 with rfl | h1
        · exact h0
        · rw [← hsame]
          exact hused m h1 h2
    · -- past the last entry: the scan stops at `dp->size`
      have hkN' : k = N := by omega
      subst hkN'
      rw [dirlinkLoop, if_neg (by rw [hN]; omega)]
      exact .inr ⟨d, k, rfl, Keeps.refl h, fun _ _ _ => rfl, le_rfl, le_rfl,
        fun hj => absurd hj (lt_irrefl _), fun m h1 h2 => by omega⟩

/-! ### The entry written -/

/-- **The entry `dirlink` writes** reads back as `inum` and the name `strncpy` stored. -/
theorem direntOf_written {d d' : Disk} {dp j inum : ℕ} (hdp : dp < NINODES) (name : List ℕ)
    (hw : WriteiPost d d' dp ([byteOf inum 0, byteOf inum 1] ++ strncpy name DIRSIZ)
      (Mkfs.DIRENT_SIZE * j) Mkfs.DIRENT_SIZE) (hfit : inum < 2 ^ 16) :
    d'.direntOf dp j = (inum, strncpy name DIRSIZ) := by
  have h16 := DIRENT_SIZE_eq
  have hbyte : ∀ k, Mkfs.DIRENT_SIZE * j ≤ k → k < Mkfs.DIRENT_SIZE * j + Mkfs.DIRENT_SIZE →
      d'.fileByte dp k = ofList ([byteOf inum 0, byteOf inum 1] ++ strncpy name DIRSIZ)
        (k - Mkfs.DIRENT_SIZE * j) := fun k h1 h2 => by
    rw [hw.bytes dp hdp k, if_pos ⟨rfl, h1, h2⟩]
  refine Prod.ext (getLE_of_bytes (by norm_num; omega) fun k h1 h2 => ?_) ?_
  · -- the two bytes of the `ushort`
    rw [hbyte k h1 (by omega)]
    obtain h | h : k - Mkfs.DIRENT_SIZE * j = 0 ∨ k - Mkfs.DIRENT_SIZE * j = 1 := by omega
    · rw [h]
      rfl
    · rw [h]
      rfl
  · -- the `DIRSIZ` name bytes after them
    show (List.range DIRSIZ).map (fun k => d'.fileByte dp (Mkfs.DIRENT_SIZE * j + 2 + k)) =
      strncpy name DIRSIZ
    apply List.ext_getElem
    · simp
    · intro k hk hk'
      simp only [List.length_map, List.length_range, DIRSIZ] at hk
      rw [List.getElem_map, List.getElem_range, hbyte _ (by omega) (by omega),
        show Mkfs.DIRENT_SIZE * j + 2 + k - Mkfs.DIRENT_SIZE * j = k + 2 by omega, ofList,
        List.getD_eq_getElem?_getD]
      simp [List.getElem?_eq_getElem hk']

/-! ### Insert and look up -/

section Insert

variable {f g : ℕ → ℕ × List ℕ} {N j inum : ℕ} {name : List ℕ}

/-- **The name written is found**: a table of `N` entries none of which is a used entry for
`name`, with entry `j` (at most one past the last) replaced by `(inum, name)`, gives that entry
to the first-match search for `name`. -/
theorem find?_written (hjN : j ≤ N) (hinum : 0 < inum) (hnew : g j = (inum, strncpy name DIRSIZ))
    (hold : ∀ m, m ≠ j → g m = f m)
    (hmiss : ((List.range N).map f).find? (fun e => e.1 ≠ 0 ∧ strncmp name e.2 DIRSIZ = 0) = none) :
    ((List.range (max N (j + 1))).map g).find? (fun e => e.1 ≠ 0 ∧ strncmp name e.2 DIRSIZ = 0) =
      some (inum, strncpy name DIRSIZ) := by
  have hunused := List.find?_eq_none.mp hmiss
  rw [find?_map_range_of_first (j := j) (by omega), hnew]
  · rw [hnew]
    simp [hinum.ne', strncmp_eq_zero_iff, cstr_strncpy]
  · -- the entries before `j` are the old ones, and none of those matched
    intro k hk
    rw [hold k (by omega)]
    simpa using hunused _ (List.mem_map.mpr ⟨k, List.mem_range.mpr (by omega), rfl⟩)

/-- **Other names are not disturbed**: replacing a free entry `j`, or adding one past the last,
by an entry for `name` changes no search for a name that differs from it in its first `DIRSIZ`
bytes. -/
theorem find?_written_other (hjN : j ≤ N) (hfree : j < N → (f j).1 = 0)
    (hnew : g j = (inum, strncpy name DIRSIZ)) (hold : ∀ m, m ≠ j → g m = f m) {name' : List ℕ}
    (hne : cstr DIRSIZ name' ≠ cstr DIRSIZ name) :
    ((List.range (max N (j + 1))).map g).find? (fun e => e.1 ≠ 0 ∧ strncmp name' e.2 DIRSIZ = 0) =
      ((List.range N).map f).find? (fun e => e.1 ≠ 0 ∧ strncmp name' e.2 DIRSIZ = 0) := by
  have hother : ¬strncmp name' (strncpy name DIRSIZ) DIRSIZ = 0 := by
    rw [strncmp_eq_zero_iff, cstr_strncpy]
    exact hne
  refine find?_map_range_congr (fun k => ?_) fun k _ hk => hold k fun hkj => ?_
  · by_cases hkj : k = j
    · -- the new entry does not match, and the one it replaced was free
      subst hkj
      simp only [hnew, hother, and_false, decide_false, Bool.false_eq_true, false_iff, not_and]
      intro hk
      simp [hfree hk]
    · rw [hold k hkj]
      constructor
      · rintro ⟨hk, hp⟩
        exact ⟨by omega, hp⟩
      · rintro ⟨hk, hp⟩
        exact ⟨by omega, hp⟩
  · subst hkj
    simp [hnew, hother] at hk

end Insert

section Dirlink

variable {d : Disk} {dp inum : ℕ}

/-- What a name's lookup tests of an entry: that it is used and its name matches. -/
theorem dirlookup_view (hdir : (d.inode dp).type = T_DIR)
    (hwhole : Mkfs.DIRENT_SIZE ∣ (d.inode dp).size) (name : List ℕ) :
    dirlookup d.view dp name =
      .ok ((((List.range ((d.inode dp).size / Mkfs.DIRENT_SIZE)).map (d.direntOf dp)).find?
        fun e => e.1 ≠ 0 ∧ strncmp name e.2 DIRSIZ = 0).map Prod.fst) := by
  rw [dirlookup_spec hdir (by rwa [view_data_length]), entries_view]

/-- `dirlink` of a name `dirlookup` does not find: the scan, then the write. -/
theorem dirlink_of_none {name : List ℕ} (hl : dirlookup d.view dp name = .ok none) :
    d.dirlink dp name inum =
      d.dirlinkLoop dp ((d.inode dp).size / Mkfs.DIRENT_SIZE + 1) 0 >>= fun (d, off) =>
        d.writei dp ([byteOf inum 0, byteOf inum 1] ++ strncpy name DIRSIZ) off
          Mkfs.DIRENT_SIZE >>= fun (d, r) =>
        if r ≠ Mkfs.DIRENT_SIZE then .error (.panic "dirlink") else .ok (d, (0 : ℤ)) := by
  rw [dirlink, hl]
  rfl

/-- **`dirlink` inserts a name into a directory**: in a directory of whole entries with room for
one more, `dirlink` either refuses a name `dirlookup` finds and leaves the disk alone, or adds it:
`dirlookup` of the name then finds `inum`, every name that differs from it in its first `DIRSIZ`
bytes finds what it found before, and every other inode keeps its contents.  It fails only when
`bmap` runs out of blocks. -/
theorem dirlink_dirlookup (h : BlockInv d) (hdp : dp < NINODES) (hdir : (d.inode dp).type = T_DIR)
    (hwhole : Mkfs.DIRENT_SIZE ∣ (d.inode dp).size) (hroom : (d.inode dp).size < MAXFILE * BSIZE)
    (hinum : 0 < inum) (hfit : inum < 2 ^ 16) (name : List ℕ) :
    d.dirlink dp name inum = .error (.panic "balloc: out of blocks") ∨
      (∃ i, dirlookup d.view dp name = .ok (some i) ∧ d.dirlink dp name inum = .ok (d, -1)) ∨
      ∃ d', dirlookup d.view dp name = .ok none ∧ d.dirlink dp name inum = .ok (d', 0) ∧
        BlockInv d' ∧ dirlookup d'.view dp name = .ok (some inum) ∧
        (∀ name', cstr DIRSIZ name' ≠ cstr DIRSIZ name →
          dirlookup d'.view dp name' = dirlookup d.view dp name') ∧
        (∀ i < NINODES, d'.view.type i = d.view.type i) ∧
        ∀ i < NINODES, i ≠ dp → d'.view.data i = d.view.data i := by
  have hdev : (d.inode dp).type ≠ T_DEV := by rw [hdir]; decide
  have h16 := DIRENT_SIZE_eq
  obtain ⟨N, hN⟩ := hwhole
  have hdiv : (d.inode dp).size / Mkfs.DIRENT_SIZE = N := by
    rw [hN, Nat.mul_div_cancel_left _ (by decide)]
  have hlook := dirlookup_view hdir ⟨N, hN⟩ name
  rw [hdiv] at hlook
  cases hfind : ((List.range N).map (d.direntOf dp)).find?
      (fun e => e.1 ≠ 0 ∧ strncmp name e.2 DIRSIZ = 0) with
  | some e =>
    -- the name is there: `dirlink` refuses it
    have hl : dirlookup d.view dp name = .ok (some e.1) := by
      rw [hlook, hfind]
      rfl
    exact .inr (.inl ⟨e.1, hl, by rw [dirlink, hl]; rfl⟩)
  | none =>
    have hl : dirlookup d.view dp name = .ok none := by
      rw [hlook, hfind]
      rfl
    rcases dirlinkLoop_spec hdp ((d.inode dp).size / Mkfs.DIRENT_SIZE + 1) 0 h hdev hroom.le
        ⟨N, hN⟩ (Nat.zero_le _) (by omega) with
      he | ⟨d1, j, hrun, hk1, hs1, -, hjN, hfree, -⟩
    · left
      rw [Nat.mul_zero] at he
      rw [dirlink_of_none hl, he]
      rfl
    rw [Nat.mul_zero] at hrun
    rw [hdiv] at hjN hfree
    -- the entry goes at entry `j`: a free one, or one past the last, within the room left
    have hoff : Mkfs.DIRENT_SIZE * j ≤ (d1.inode dp).size := by
      rw [hk1.size dp hdp, hN]
      exact Nat.mul_le_mul_left _ hjN
    have hend : Mkfs.DIRENT_SIZE * j + Mkfs.DIRENT_SIZE ≤ MAXFILE * BSIZE := by
      have hroom' := hroom
      rw [hN, h16] at hroom'
      simp only [MAXFILE, NDIRECT, NINDIRECT, BSIZE] at hroom' ⊢
      rw [h16]
      omega
    rcases hk1.inv.writei_cases hdp (by rw [hk1.type dp hdp]; exact hdev)
        ([byteOf inum 0, byteOf inum 1] ++ strncpy name DIRSIZ) hoff hend with he | ⟨d2, hw, hpost⟩
    · left
      rw [dirlink_of_none hl, hrun, except_ok_bind]
      dsimp only
      rw [he]
      rfl
    have hrun2 : d.dirlink dp name inum = .ok (d2, 0) := by
      rw [dirlink_of_none hl, hrun, except_ok_bind]
      dsimp only
      rw [hw, except_ok_bind]
      dsimp only
      rw [if_neg (by simp)]
    -- the directory after the write: entry `j` the new one, every other entry as it was
    have hsize2 : (d2.inode dp).size = max (Mkfs.DIRENT_SIZE * N) (Mkfs.DIRENT_SIZE * j +
        Mkfs.DIRENT_SIZE) := by
      rw [hpost.size dp hdp, if_pos rfl, hk1.size dp hdp, hN]
    have hdir2 : (d2.inode dp).type = T_DIR := by rw [hpost.type dp hdp, hk1.type dp hdp, hdir]
    have hwhole2 : Mkfs.DIRENT_SIZE ∣ (d2.inode dp).size :=
      Nat.dvd_of_mod_eq_zero (by rw [hsize2, h16]; omega)
    have hN2 : (d2.inode dp).size / Mkfs.DIRENT_SIZE = max N (j + 1) := by
      rw [hsize2, h16]
      omega
    have hnew := direntOf_written hdp name hpost hfit
    have hold : ∀ m, m ≠ j → d2.direntOf dp m = d.direntOf dp m := fun m hm =>
      direntOf_congr fun k h1 h2 => by
        rw [hpost.bytes dp hdp k, if_neg fun hc => hm (by rw [h16] at h1 h2 hc; omega), hs1 dp hdp k]
    refine .inr (.inr ⟨d2, hl, hrun2, hpost.inv, ?_, fun name' hne => ?_, fun i hi => ?_,
      fun i hi hne => ?_⟩)
    · rw [dirlookup_view hdir2 hwhole2, hN2, find?_written hjN hinum hnew hold hfind]
      rfl
    · rw [dirlookup_view hdir2 hwhole2, dirlookup_view hdir ⟨N, hN⟩, hN2, hdiv,
        find?_written_other hjN hfree hnew hold hne]
    · rw [view_type, view_type, hpost.type i hi, hk1.type i hi]
    · -- another inode: `writei` kept its size and bytes, and the scan its bytes
      rw [view_data, view_data, hpost.size i hi, if_neg hne, hk1.size i hi]
      refine List.map_congr_left fun k _ => ?_
      rw [hpost.bytes i hi k, if_neg fun hc => hne hc.1, hs1 i hi k]

/-- A disk whose inode 1 is an empty directory, with the free map of the test disk of
`fresh_file_round_trip`. -/
def dirDisk : Disk := (fileDisk fun k => if k < 8 then 255 else 0).setInode 1 (freshInode T_DIR)

theorem dirDisk_inode_one : dirDisk.inode 1 = freshInode T_DIR :=
  inode_setInode _ _ (freshInode_fits _)

theorem dirDisk_blockInv : BlockInv dirDisk := by
  have hmeta : ∀ b < nmeta, bit (fun k => if k < 8 then 255 else 0) b = true := by decide
  refine BlockInv.of_no_blocks (fun b hb => ?_) fun j hj k => ?_
  · rw [dirDisk, used_setInode (by decide), fileDisk_used _ (lt_trans hb (by decide))]
    exact hmeta b hb
  · by_cases hj1 : j = 1
    · subst hj1
      rw [dirDisk_inode_one]
      rfl
    · rw [dirDisk, inode_setInode_of_ne _ _ hj1]
      exact fileDisk_addrs _ hj k

theorem dirDisk_dirlink :
    BlockInv dirDisk ∧ (dirDisk.inode 1).type = T_DIR ∧ Mkfs.DIRENT_SIZE ∣ (dirDisk.inode 1).size ∧
      (dirDisk.inode 1).size < MAXFILE * BSIZE ∧
      (dirDisk.dirlink 1 [97] 2 = .error (.panic "balloc: out of blocks") ∨
        (∃ i, dirlookup dirDisk.view 1 [97] = .ok (some i) ∧
          dirDisk.dirlink 1 [97] 2 = .ok (dirDisk, -1)) ∨
        ∃ d', dirlookup dirDisk.view 1 [97] = .ok none ∧ dirDisk.dirlink 1 [97] 2 = .ok (d', 0) ∧
          BlockInv d' ∧ dirlookup d'.view 1 [97] = .ok (some 2) ∧
          (∀ name', cstr DIRSIZ name' ≠ cstr DIRSIZ [97] →
            dirlookup d'.view 1 name' = dirlookup dirDisk.view 1 name') ∧
          (∀ i < NINODES, d'.view.type i = dirDisk.view.type i) ∧
          ∀ i < NINODES, i ≠ 1 → d'.view.data i = dirDisk.view.data i) := by
  have hdir : (dirDisk.inode 1).type = T_DIR := by rw [dirDisk_inode_one]; rfl
  have hwhole : Mkfs.DIRENT_SIZE ∣ (dirDisk.inode 1).size := by
    rw [dirDisk_inode_one]
    exact dvd_zero _
  have hroom : (dirDisk.inode 1).size < MAXFILE * BSIZE := by rw [dirDisk_inode_one]; decide
  exact ⟨dirDisk_blockInv, hdir, hwhole, hroom, dirlink_dirlookup dirDisk_blockInv (by decide) hdir
    hwhole hroom (by decide) (by decide) [97]⟩

end Dirlink

end Disk

end Xv6Lab
