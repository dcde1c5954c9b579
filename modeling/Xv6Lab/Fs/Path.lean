import Xv6Lab.Fs.Mkfs
import Xv6Lab.Kernel.Basic
import Xv6Lab.Kernel.Strings
import Xv6Lab.Lib.Run
import Mathlib.Data.List.TakeWhile

/-!
# Path names (`fs.c`)

`namei(path)` and `nameiparent(path, name)` walk a path from the root (a path starting with `/`)
or from the current directory, one element at a time: `skipelem` copies the next element into
`name` and skips the slashes around it, and `dirlookup` finds it in the directory reached so far.
The file system is seen through an `FsView`: the type `ilock` loads for each inode and the bytes
`readi` returns of each inode's contents.

The walk a path describes (`FsView.walk`) follows its components (`components`: the non-empty
`/`-free pieces of the string, each read to its first `DIRSIZ` bytes) through the directories'
entries.  Over it:

* `skipelem_spec` — `skipelem` takes the first component off the path and copies it into
  `name`, or finds none; either way the path gets shorter, so `namex`'s loop ends;
* `dirlookup_spec` — over a directory of whole entries, `dirlookup` finds the first used entry
  whose name, up to its `NUL`, is the component's first `DIRSIZ` bytes;
* `path_resolution` — over a directory tree, `namei` returns the walk's end and `nameiparent`
  the directory before the last component, with that component in `name`.

A directory tree (`FsView.Tree`) is what keeps the walk free of panics: `ilock` panics on an
entry naming a free inode and `dirlookup` on a directory ending in a partial entry.  The
reference counts `namex` takes and drops (`idup`, `iget`, `iunlockput`) are left out.
-/

namespace Xv6Lab

open Bytes Strings Run

/-- What path resolution reads of the file system: the type `ilock` loads for each inode and the
bytes `readi` returns of each inode's contents (`ip->size` of them). -/
structure FsView where
  type : ℕ → ℕ
  data : ℕ → List ℕ

namespace Path

/-! ### `skipelem` -/

/-- `while(*path == '/') path++;` -/
def skipSlashes : List ℕ → List ℕ
  | [] => []
  | c :: cs => if c = '/'.toNat then skipSlashes cs else c :: cs

/-- `memmove(dst, src, n)` into a buffer: its first `n` bytes replaced by those of `src`. -/
def copyIn (dst src : List ℕ) (n : ℕ) : List ℕ := src.take n ++ dst.drop n

/-- `s = path; while(*path != '/' && *path != 0) path++;`: the element from `s` up to `path`. -/
def elem (path : List ℕ) : List ℕ := path.takeWhile fun c => c ≠ '/'.toNat ∧ c ≠ 0

/-- `skipelem(path, name)`: `none` when no element is left (the source's `0`), otherwise the path
after the element and the slashes that follow it, and `name` with the element copied in. -/
def skipelem (path name : List ℕ) : Option (List ℕ × List ℕ) :=
  let path := skipSlashes path
  if path.headD 0 = 0 then none
  else
    let len := (elem path).length
    let name := if DIRSIZ ≤ len then copyIn name path DIRSIZ
      else (copyIn name path len).set len 0
    some (skipSlashes (path.drop len), name)

/-- The path's components: the non-empty pieces of its string (the bytes before its `NUL`),
split at `/`. -/
def components (path : List ℕ) : List (List ℕ) :=
  ((path.takeWhile (· ≠ 0)).splitOn '/'.toNat).filter (· ≠ [])

/-- What `skipelem` leaves in `name` for the element `e`: its first `DIRSIZ` bytes, and a `NUL`
after them when it is shorter. -/
def putElem (e name : List ℕ) : List ℕ :=
  if DIRSIZ ≤ e.length then copyIn name e DIRSIZ else (copyIn name e e.length).set e.length 0

theorem slash_ne_zero : '/'.toNat ≠ 0 := by decide

@[simp] theorem components_nil : components [] = [] := by
  simp [components]

theorem components_zero (p : List ℕ) : components (0 :: p) = [] := by
  simp [components]

theorem components_slash (p : List ℕ) : components ('/'.toNat :: p) = components p := by
  have h := List.splitOn_append_cons_self (a := '/'.toNat) [] (p.takeWhile (· ≠ 0))
  rw [List.nil_append] at h
  unfold components
  rw [List.takeWhile_cons_of_pos (by simp), h]
  simp

/-- **An element, then the end, a `NUL` or a slash**: the element is the first component. -/
theorem components_elem {e r : List ℕ} (hne : e ≠ []) (he : ∀ c ∈ e, c ≠ '/'.toNat ∧ c ≠ 0)
    (hr : r.headD 0 = 0 ∨ r.headD 0 = '/'.toNat) :
    components (e ++ r) = e :: components r := by
  have hslash : '/'.toNat ∉ e := fun h => (he _ h).1 rfl
  have htw : (e ++ r).takeWhile (· ≠ 0) = e ++ r.takeWhile (· ≠ 0) :=
    List.takeWhile_append_of_pos fun c hc => by simpa using (he c hc).2
  have hsingle : (e.splitOn '/'.toNat).filter (· ≠ []) = [e] := by
    rw [List.splitOn_eq_singleton hslash]
    simp [hne]
  rcases r with _ | ⟨c, r⟩
  · rw [components, htw, List.takeWhile_nil, List.append_nil, hsingle, components_nil]
  · rcases hr with hc | hc
    · simp only [List.headD_cons] at hc
      subst hc
      rw [components, htw, List.takeWhile_cons_of_neg (by simp), List.append_nil, hsingle,
        components_zero]
    · simp only [List.headD_cons] at hc
      subst hc
      rw [components_slash]
      unfold components
      rw [htw, List.takeWhile_cons_of_pos (by simp),
        List.splitOn_append_cons_self_of_not_mem hslash, List.filter_cons_of_pos (by simpa using hne)]

theorem components_skipSlashes (p : List ℕ) : components (skipSlashes p) = components p := by
  induction p with
  | nil => rfl
  | cons c p ih =>
    unfold skipSlashes
    split_ifs with hc
    · rw [ih, hc, components_slash]
    · rfl

theorem skipSlashes_length_le (p : List ℕ) : (skipSlashes p).length ≤ p.length := by
  induction p with
  | nil => exact le_rfl
  | cons c p ih =>
    unfold skipSlashes
    split_ifs
    · exact ih.trans (Nat.le_succ _)
    · exact le_rfl

theorem skipSlashes_headD (p : List ℕ) : (skipSlashes p).headD 0 ≠ '/'.toNat := by
  induction p with
  | nil => exact slash_ne_zero.symm
  | cons c p ih =>
    unfold skipSlashes
    split_ifs with hc
    · exact ih
    · exact hc

/-- A path is its first element followed by the end, a `NUL` or a slash. -/
theorem split_elem (p : List ℕ) :
    p = elem p ++ p.drop (elem p).length ∧ (∀ c ∈ elem p, c ≠ '/'.toNat ∧ c ≠ 0) ∧
      ((p.drop (elem p).length).headD 0 = 0 ∨ (p.drop (elem p).length).headD 0 = '/'.toNat) := by
  have hsplit : elem p ++ p.dropWhile (fun c => c ≠ '/'.toNat ∧ c ≠ 0) = p :=
    List.takeWhile_append_dropWhile
  have hdrop : p.drop (elem p).length = p.dropWhile (fun c => c ≠ '/'.toNat ∧ c ≠ 0) :=
    calc p.drop (elem p).length
        = (elem p ++ p.dropWhile (fun c => c ≠ '/'.toNat ∧ c ≠ 0)).drop (elem p).length := by
          rw [hsplit]
      _ = p.dropWhile (fun c => c ≠ '/'.toNat ∧ c ≠ 0) := List.drop_left
  rw [hdrop]
  refine ⟨hsplit.symm, fun c hc => by simpa using List.mem_takeWhile_imp hc, ?_⟩
  clear hsplit hdrop
  induction p with
  | nil => exact .inl rfl
  | cons c p ih =>
    rw [List.dropWhile_cons]
    by_cases hc : c ≠ '/'.toNat ∧ c ≠ 0
    · rw [if_pos (by simpa using hc)]
      exact ih
    · rw [if_neg (by simpa using hc)]
      simp only [not_and_or, not_not] at hc
      rcases hc with hc | hc
      · exact .inr hc
      · exact .inl hc

/-- Past its leading slashes, a path has no component exactly when its string is empty. -/
theorem components_eq_nil_iff {q : List ℕ} (hq : q.headD 0 ≠ '/'.toNat) :
    components q = [] ↔ q.headD 0 = 0 := by
  constructor
  · intro h
    by_contra h0
    obtain ⟨hsplit, he, hr⟩ := split_elem q
    have hne : elem q ≠ [] := by
      cases q with
      | nil => exact absurd rfl h0
      | cons c q => simpa [elem, List.takeWhile_cons] using ⟨hq, h0⟩
    rw [hsplit, components_elem hne he hr] at h
    exact List.cons_ne_nil _ _ h
  · intro h
    cases q with
    | nil => rfl
    | cons c q =>
      simp only [List.headD_cons] at h
      rw [h, components_zero]

/-- **`skipelem`** takes the first component off the path and copies it into `name`, or finds
none; a path it returns is shorter and starts with no slash. -/
theorem skipelem_spec (path name : List ℕ) :
    (skipelem path name = none ∧ components path = []) ∨
      ∃ e r, skipelem path name = some (r, putElem e name) ∧ components path = e :: components r ∧
        (∀ c ∈ e, c ≠ 0) ∧ r.headD 0 ≠ '/'.toNat ∧ r.length < path.length := by
  have hc := components_skipSlashes path
  have hlen := skipSlashes_length_le path
  have hhead := skipSlashes_headD path
  unfold skipelem
  generalize skipSlashes path = q at hc hlen hhead ⊢
  dsimp only
  by_cases h0 : q.headD 0 = 0
  · rw [if_pos h0]
    exact .inl ⟨rfl, hc ▸ (components_eq_nil_iff hhead).mpr h0⟩
  · rw [if_neg h0]
    right
    obtain ⟨hsplit, he, hr⟩ := split_elem q
    have hne : elem q ≠ [] := by
      cases q with
      | nil => exact absurd rfl h0
      | cons c q => simpa [elem, List.takeWhile_cons] using ⟨hhead, h0⟩
    have hcopy : ∀ k ≤ (elem q).length, copyIn name q k = copyIn name (elem q) k := by
      intro k hk
      have htake : q.take k = (elem q).take k := by
        conv_lhs => rw [hsplit]
        exact List.take_append_of_le_length hk
      rw [copyIn, copyIn, htake]
    refine ⟨elem q, skipSlashes (q.drop (elem q).length), ?_, ?_, fun c hc => (he c hc).2,
      skipSlashes_headD _, ?_⟩
    · unfold putElem
      split_ifs with hd
      · rw [hcopy DIRSIZ hd]
      · rw [hcopy _ le_rfl]
    · rw [← hc, components_skipSlashes]
      nth_rewrite 1 [hsplit]
      exact components_elem hne he hr
    · have hrest := skipSlashes_length_le (q.drop (elem q).length)
      have hpos := List.length_pos_of_ne_nil hne
      have hq := congrArg List.length hsplit
      rw [List.length_append] at hq
      omega

-- `skipelem("///a//bb", name) = "bb"`, setting `name = "a"`
example : skipelem [47, 47, 47, 97, 47, 47, 98, 98] (List.replicate DIRSIZ 0) =
    some ([98, 98], 97 :: List.replicate 13 0) := by
  decide

/-! ### The name buffer -/

theorem putElem_long {e name : List ℕ} (h : DIRSIZ ≤ e.length) (hn : name.length = DIRSIZ) :
    putElem e name = e.take DIRSIZ := by
  rw [putElem, if_pos h, copyIn, List.drop_eq_nil_of_le hn.le, List.append_nil]

theorem putElem_short {e name : List ℕ} (h : e.length < DIRSIZ) (hn : name.length = DIRSIZ) :
    putElem e name = e ++ 0 :: name.drop (e.length + 1) := by
  have hrest : name.drop e.length = name[e.length] :: name.drop (e.length + 1) :=
    List.drop_eq_getElem_cons (by omega)
  rw [putElem, if_neg (by omega), copyIn, List.take_of_length_le le_rfl, hrest,
    List.set_append_right _ _ le_rfl, Nat.sub_self, List.set_cons_zero]

theorem putElem_length {e name : List ℕ} (hn : name.length = DIRSIZ) :
    (putElem e name).length = DIRSIZ := by
  by_cases h : DIRSIZ ≤ e.length
  · rw [putElem_long h hn, List.length_take, min_eq_left h]
  · rw [putElem_short (by omega) hn]
    simp only [List.length_append, List.length_cons, List.length_drop]
    omega

/-- The name `skipelem` leaves, read as a C string of `DIRSIZ` bytes, is the element's first
`DIRSIZ` bytes. -/
theorem cstr_putElem {e name : List ℕ} (he : ∀ c ∈ e, c ≠ 0) (hn : name.length = DIRSIZ) :
    cstr DIRSIZ (putElem e name) = e.take DIRSIZ := by
  have hall : ∀ l : List ℕ, (∀ c ∈ l, c ≠ 0) → l.takeWhile (· ≠ 0) = l := fun l hl =>
    List.takeWhile_eq_self_iff.mpr fun c hc => by simpa using hl c hc
  unfold cstr
  by_cases h : DIRSIZ ≤ e.length
  · rw [putElem_long h hn, List.take_take, min_self]
    exact hall _ fun c hc => he c (List.mem_of_mem_take hc)
  · obtain ⟨k, hk⟩ : ∃ k, DIRSIZ - e.length = k + 1 := ⟨DIRSIZ - e.length - 1, by omega⟩
    rw [putElem_short (by omega) hn, List.take_append, List.take_of_length_le (l := e) (by omega),
      List.takeWhile_append_of_pos fun c hc => by simpa using he c hc, hk, List.take_succ_cons]
    simp

/-- **The last element is in `name`**: its first `DIRSIZ` bytes, then a `NUL` when it is shorter. -/
theorem take_putElem {e name : List ℕ} (hn : name.length = DIRSIZ) :
    (putElem e name).take (min (e.length + 1) DIRSIZ) = (e ++ [0]).take DIRSIZ := by
  by_cases h : DIRSIZ ≤ e.length
  · rw [putElem_long h hn, min_eq_right (by omega), List.take_take, min_self,
      List.take_append_of_le_length h]
  · have hone : e.length + 1 - e.length = 1 := by omega
    rw [putElem_short (by omega) hn, min_eq_left (by omega), List.take_of_length_le
      (l := e ++ [0]) (by simp; omega)]
    simp only [List.take_append, hone, List.take_succ_cons, List.take_zero]
    rw [List.take_of_length_le (by omega)]

/-! ### `dirlookup` -/

/-- The entry at byte `off` of a directory's contents: `de.inum`, a little-endian `ushort`, and
`de.name`. -/
def direntAt (data : List ℕ) (off : ℕ) : ℕ × List ℕ :=
  (getLE (ofList data) off 2, (data.drop (off + 2)).take DIRSIZ)

/-- The loop `for(off = 0; off < dp->size; off += sizeof(de))` of `dirlookup(dp, name, 0)` over
the directory's contents `data`, from `off` with `fuel` rounds left. -/
def dirlookupLoop (data name : List ℕ) : ℕ → ℕ → Except Crash (Option ℕ)
  | 0, _ => .ok none
  | fuel + 1, off =>
    if off < data.length then
      -- `readi` returns fewer than `sizeof(de)` bytes of a last, partial entry
      if data.length < off + Mkfs.DIRENT_SIZE then .error (.panic "dirlookup read")
      else if (direntAt data off).1 = 0 then dirlookupLoop data name fuel (off + Mkfs.DIRENT_SIZE)
      else if strncmp name (direntAt data off).2 DIRSIZ = 0 then .ok (some (direntAt data off).1)
      else dirlookupLoop data name fuel (off + Mkfs.DIRENT_SIZE)
    else .ok none

/-- `dirlookup(dp, name, 0)`: the number of the inode found (`iget(dp->dev, inum)`), `none` for
`0`.  The loop makes at most one round per entry. -/
def dirlookup (t : FsView) (dp : ℕ) (name : List ℕ) : Except Crash (Option ℕ) :=
  if t.type dp ≠ T_DIR then .error (.panic "dirlookup not DIR")
  else dirlookupLoop (t.data dp) name ((t.data dp).length / Mkfs.DIRENT_SIZE + 1) 0

/-- The entries of a directory of whole entries, in order. -/
def entries (data : List ℕ) : List (ℕ × List ℕ) :=
  (List.range (data.length / Mkfs.DIRENT_SIZE)).map fun k => direntAt data (Mkfs.DIRENT_SIZE * k)

theorem DIRENT_SIZE_eq : Mkfs.DIRENT_SIZE = 16 := rfl

theorem entries_drop {data : List ℕ} {k : ℕ} (hk : k < data.length / Mkfs.DIRENT_SIZE) :
    (entries data).drop k = direntAt data (Mkfs.DIRENT_SIZE * k) :: (entries data).drop (k + 1) := by
  rw [List.drop_eq_getElem_cons (by simpa [entries] using hk)]
  simp [entries]

/-- **`dirlookup`'s loop** over a directory of whole entries, from entry `k` with a round left for
each: the first used entry from `k` on whose name `strncmp` matches. -/
theorem dirlookupLoop_spec {data : List ℕ} (name : List ℕ) (hwhole : Mkfs.DIRENT_SIZE ∣ data.length)
    (fuel : ℕ) : ∀ k, data.length / Mkfs.DIRENT_SIZE - k < fuel →
      dirlookupLoop data name fuel (Mkfs.DIRENT_SIZE * k) =
        .ok ((((entries data).drop k).find? fun e => e.1 ≠ 0 ∧ strncmp name e.2 DIRSIZ = 0).map
          Prod.fst) := by
  obtain ⟨N, hN⟩ := hwhole
  have hdiv : data.length / Mkfs.DIRENT_SIZE = N := by
    rw [hN, Nat.mul_div_cancel_left _ (by decide)]
  induction fuel with
  | zero => intro k hk; omega
  | succ fuel ih =>
    intro k hk
    rw [hdiv] at hk
    by_cases hkN : k < N
    · have hrec := ih (k + 1) (by omega)
      rw [show Mkfs.DIRENT_SIZE * (k + 1) = Mkfs.DIRENT_SIZE * k + Mkfs.DIRENT_SIZE by ring] at hrec
      rw [dirlookupLoop, if_pos (by rw [hN, DIRENT_SIZE_eq] at *; omega),
        if_neg (by rw [hN, DIRENT_SIZE_eq] at *; omega), entries_drop (by omega), List.find?_cons]
      by_cases h0 : (direntAt data (Mkfs.DIRENT_SIZE * k)).1 = 0
      · rw [if_pos h0, hrec]
        simp [h0]
      · rw [if_neg h0]
        by_cases hm : strncmp name (direntAt data (Mkfs.DIRENT_SIZE * k)).2 DIRSIZ = 0
        · rw [if_pos hm]
          simp [h0, hm]
        · rw [if_neg hm, hrec]
          simp [h0, hm]
    · rw [dirlookupLoop, if_neg (by rw [hN, DIRENT_SIZE_eq] at *; omega),
        List.drop_eq_nil_of_le (by simp [entries]; omega)]
      rfl

/-- **`dirlookup`** in a directory of whole entries returns the first used entry whose name
`strncmp` matches. -/
theorem dirlookup_spec {t : FsView} {dp : ℕ} (hdir : t.type dp = T_DIR)
    (hwhole : Mkfs.DIRENT_SIZE ∣ (t.data dp).length) (name : List ℕ) :
    dirlookup t dp name = .ok (((entries (t.data dp)).find? fun e =>
      e.1 ≠ 0 ∧ strncmp name e.2 DIRSIZ = 0).map Prod.fst) := by
  rw [dirlookup, if_neg (not_not.mpr hdir)]
  simpa using dirlookupLoop_spec name hwhole ((t.data dp).length / Mkfs.DIRENT_SIZE + 1) 0
    (Nat.lt_succ_of_le (Nat.sub_le _ _))

/-! ### `namex` -/

/-- `if(*path == '/') ip = iget(ROOTDEV, ROOTINO); else ip = idup(myproc()->cwd);` -/
def startInode (cwd : ℕ) (path : List ℕ) : ℕ := if path.headD 0 = '/'.toNat then ROOTINO else cwd

/-- The loop `while((path = skipelem(path, name)) != 0)` of `namex(path, nameiparent, name)` from
inode `ip` with `fuel` rounds left: the inode returned (`none` for `0`) and the bytes left in
`name`.  Each round takes at least one byte off the path (`skipelem_spec`), so `path.length + 1`
rounds reach its end. -/
def namexLoop (t : FsView) (parent : Bool) : ℕ → List ℕ → List ℕ → ℕ →
    Except Crash (Option ℕ × List ℕ)
  | 0, _, name, _ => .ok (none, name)
  | fuel + 1, path, name, ip =>
    match skipelem path name with
    | none => .ok (if parent then none else some ip, name)
    | some (path, name) =>
      -- `ilock(ip)` loads the inode and panics on a free one
      if t.type ip = 0 then .error (.panic "ilock: no type")
      else if t.type ip ≠ T_DIR then .ok (none, name)
      -- `nameiparent` stops one level early
      else if parent ∧ path.headD 0 = 0 then .ok (some ip, name)
      else do
        match ← dirlookup t ip name with
        | none => .ok (none, name)
        | some next => namexLoop t parent fuel path name next

/-- `namex(path, nameiparent, name)` for a process whose current directory is `cwd`. -/
def namex (t : FsView) (cwd : ℕ) (path : List ℕ) (parent : Bool) (name : List ℕ) :
    Except Crash (Option ℕ × List ℕ) :=
  namexLoop t parent (path.length + 1) path name (startInode cwd path)

/-- `namei(path)`; `name` is what its local `char name[DIRSIZ]` holds before the call. -/
def namei (t : FsView) (cwd : ℕ) (path name : List ℕ) : Except Crash (Option ℕ) :=
  (namex t cwd path false name).map Prod.fst

/-- `nameiparent(path, name)`: the inode returned and the caller's `name` after the call. -/
def nameiparent (t : FsView) (cwd : ℕ) (path name : List ℕ) : Except Crash (Option ℕ × List ℕ) :=
  namex t cwd path true name

end Path

/-! ### The walk a path describes -/

namespace FsView

open Xv6Lab.Path

/-- The inode directory `dp` names by component `c`: that of its first used entry whose name, up
to its `NUL`, is `c`'s first `DIRSIZ` bytes. -/
def lookup (t : FsView) (dp : ℕ) (c : List ℕ) : Option ℕ :=
  ((entries (t.data dp)).find? fun e => e.1 ≠ 0 ∧ cstr DIRSIZ e.2 = c.take DIRSIZ).map Prod.fst

/-- The walk along the components `cs` from inode `ip`: `none` as soon as a component is missing
or an inode before the last is not a directory. -/
def walk (t : FsView) : ℕ → List (List ℕ) → Option ℕ
  | ip, [] => some ip
  | ip, c :: cs =>
    if t.type ip = T_DIR then (t.lookup ip c).bind fun next => t.walk next cs else none

/-- The directory the last component is looked up in: the end of the walk along all components
but the last, when it is a directory; `none` when there is no component. -/
def walkParent (t : FsView) (ip : ℕ) (cs : List (List ℕ)) : Option ℕ :=
  if cs = [] then none else (t.walk ip cs.dropLast).filter fun i => t.type i = T_DIR

/-- A directory tree: the root is a directory, every directory holds whole entries, and every
used entry names an allocated inode. -/
structure Tree (t : FsView) : Prop where
  root : t.type ROOTINO = T_DIR
  whole : ∀ dp, t.type dp = T_DIR → Mkfs.DIRENT_SIZE ∣ (t.data dp).length
  linked : ∀ dp, t.type dp = T_DIR → ∀ e ∈ entries (t.data dp), e.1 ≠ 0 → t.type e.1 ≠ 0

variable {t : FsView} {ip : ℕ} {c : List ℕ} {cs : List (List ℕ)}

theorem walkParent_single : t.walkParent ip [c] = if t.type ip = T_DIR then some ip else none := by
  simp [walkParent, walk, Option.filter]

theorem walkParent_of_not_dir (hd : t.type ip ≠ T_DIR) : t.walkParent ip (c :: cs) = none := by
  cases cs with
  | nil => rw [walkParent_single, if_neg hd]
  | cons c' cs => simp [walkParent, walk, hd]

theorem walkParent_cons (hne : cs ≠ []) (hd : t.type ip = T_DIR) :
    t.walkParent ip (c :: cs) = (t.lookup ip c).bind fun next => t.walkParent next cs := by
  rw [walkParent, if_neg (List.cons_ne_nil _ _), List.dropLast_cons_of_ne_nil hne, walk, if_pos hd]
  cases t.lookup ip c with
  | none => rfl
  | some next => simp [walkParent, hne]

/-- An inode a lookup in a tree finds is allocated. -/
theorem Tree.type_of_lookup (ht : t.Tree) {dp next : ℕ} (hd : t.type dp = T_DIR)
    (h : t.lookup dp c = some next) : t.type next ≠ 0 := by
  obtain ⟨e, he, rfl⟩ := Option.map_eq_some_iff.mp h
  have hp := List.find?_some he
  simp only [decide_eq_true_eq] at hp
  exact ht.linked dp hd e (List.mem_of_find?_eq_some he) hp.1

/-- **`dirlookup` of a component `skipelem` copied** finds the inode the component names. -/
theorem dirlookup_putElem (ht : t.Tree) {dp : ℕ} (hd : t.type dp = T_DIR) {e name : List ℕ}
    (he : ∀ c ∈ e, c ≠ 0) (hn : name.length = DIRSIZ) :
    dirlookup t dp (putElem e name) = .ok (t.lookup dp e) := by
  rw [dirlookup_spec hd (ht.whole dp hd), lookup]
  simp only [strncmp_eq_zero_iff, cstr_putElem he hn, @eq_comm _ (e.take DIRSIZ)]

/-- **`namei`'s loop** follows the walk from a path's components, over a tree. -/
theorem namexLoop_walk (ht : t.Tree) (fuel : ℕ) : ∀ path name ip, path.length < fuel →
    t.type ip ≠ 0 → name.length = DIRSIZ →
    (namexLoop t false fuel path name ip).map Prod.fst = .ok (t.walk ip (components path)) := by
  induction fuel with
  | zero => intro path name ip h; omega
  | succ fuel ih =>
    intro path name ip hlen hip hn
    rcases skipelem_spec path name with ⟨hsk, hc⟩ | ⟨e, r, hsk, hc, he, -, hrlen⟩
    · rw [namexLoop, hsk, hc]
      rfl
    · rw [namexLoop, hsk, hc]
      dsimp only
      rw [if_neg hip]
      by_cases hd : t.type ip = T_DIR
      · rw [if_neg (not_not.mpr hd), if_neg (by simp), dirlookup_putElem ht hd he hn,
          except_ok_bind, walk, if_pos hd]
        cases hl : t.lookup ip e with
        | none => rfl
        | some next =>
          exact ih r (putElem e name) next (by omega) (ht.type_of_lookup hd hl) (putElem_length hn)
      · rw [if_pos hd, walk, if_neg hd]
        rfl

/-- **`nameiparent`'s loop** stops at the directory of the last component, with the component
in `name`, over a tree. -/
theorem namexLoop_parent (ht : t.Tree) (fuel : ℕ) : ∀ path name ip, path.length < fuel →
    t.type ip ≠ 0 → name.length = DIRSIZ →
    ∃ name', namexLoop t true fuel path name ip = .ok (t.walkParent ip (components path), name') ∧
      name'.length = DIRSIZ ∧ ∀ c, (components path).getLast? = some c →
        t.walkParent ip (components path) ≠ none →
        name'.take (min (c.length + 1) DIRSIZ) = (c ++ [0]).take DIRSIZ := by
  induction fuel with
  | zero => intro path name ip h; omega
  | succ fuel ih =>
    intro path name ip hlen hip hn
    rcases skipelem_spec path name with ⟨hsk, hc⟩ | ⟨e, r, hsk, hc, he, hr, hrlen⟩
    · refine ⟨name, ?_, hn, fun c hlast _ => by simp [hc] at hlast⟩
      rw [namexLoop, hsk, hc]
      rfl
    · have hn' := putElem_length (e := e) hn
      rw [namexLoop, hsk, hc]
      dsimp only
      rw [if_neg hip]
      by_cases hd : t.type ip = T_DIR
      · rw [if_neg (not_not.mpr hd)]
        by_cases hend : r.headD 0 = 0
        · -- the last component: `ip` is its directory
          rw [if_pos ⟨rfl, hend⟩, (components_eq_nil_iff hr).mpr hend, walkParent_single, if_pos hd]
          refine ⟨putElem e name, rfl, hn', fun c hlast _ => ?_⟩
          simp only [List.getLast?_singleton, Option.some.injEq] at hlast
          subst hlast
          exact take_putElem hn
        · have hne : components r ≠ [] := fun h => hend ((components_eq_nil_iff hr).mp h)
          rw [if_neg fun h => hend h.2, dirlookup_putElem ht hd he hn, except_ok_bind,
            walkParent_cons hne hd]
          cases hl : t.lookup ip e with
          | none => exact ⟨putElem e name, rfl, hn', fun _ _ h => absurd rfl h⟩
          | some next =>
            obtain ⟨name', hrun, hlen', hlast⟩ :=
              ih r (putElem e name) next (by omega) (ht.type_of_lookup hd hl) hn'
            refine ⟨name', hrun, hlen', fun c hc' hsome => hlast c ?_ hsome⟩
            rwa [List.getLast?_cons, List.getLast?_eq_some_getLast hne, Option.getD_some,
              ← List.getLast?_eq_some_getLast hne] at hc'
      · rw [if_pos hd, walkParent_of_not_dir hd]
        exact ⟨putElem e name, rfl, hn', fun _ _ h => absurd rfl h⟩

/-- **Path resolution.**  Over a directory tree, with the current directory `cwd` allocated:
`namei(path)` returns the end of the walk along the path's components from the root (a path
starting with `/`) or from `cwd`; `nameiparent(path, name)` returns the directory the last
component is looked up in (`0` when there is no component) and, when it returns one, leaves the
last component in `name`, `NUL`-terminated when shorter than `DIRSIZ`; and every round of
`skipelem` shortens the path. -/
theorem path_resolution (t : FsView) (ht : t.Tree) {cwd : ℕ} (hcwd : t.type cwd ≠ 0)
    (path name : List ℕ) (hn : name.length = DIRSIZ) :
    namei t cwd path name = .ok (t.walk (startInode cwd path) (components path)) ∧
    (∃ name', nameiparent t cwd path name =
        .ok (t.walkParent (startInode cwd path) (components path), name') ∧
      name'.length = DIRSIZ ∧ ∀ c, (components path).getLast? = some c →
        t.walkParent (startInode cwd path) (components path) ≠ none →
        name'.take (min (c.length + 1) DIRSIZ) = (c ++ [0]).take DIRSIZ) ∧
    ∀ r name', skipelem path name = some (r, name') → r.length < path.length := by
  have hstart : t.type (startInode cwd path) ≠ 0 := by
    unfold startInode
    split_ifs
    · rw [ht.root]
      decide
    · exact hcwd
  refine ⟨namexLoop_walk ht _ path name _ (Nat.lt_succ_self _) hstart hn,
    namexLoop_parent ht _ path name _ (Nat.lt_succ_self _) hstart hn, fun r name' h => ?_⟩
  rcases skipelem_spec path name with ⟨hsk, -⟩ | ⟨e, r', hsk, -, -, -, hlt⟩
  · rw [hsk] at h
    cases h
  · rw [hsk] at h
    cases h
    exact hlt

/-- A root directory holding one entry, `a`, for inode `2`, a file. -/
def rootWithFile : FsView where
  type i := if i = ROOTINO then T_DIR else if i = 2 then T_FILE else 0
  data i := if i = ROOTINO then Mkfs.dirent 2 ['a'.toNat] else []

theorem rootWithFile_tree : rootWithFile.Tree := by
  have hroot : ∀ dp, rootWithFile.type dp = T_DIR → dp = ROOTINO := by
    intro dp hd
    simp only [rootWithFile] at hd
    split_ifs at hd with h₁ h₂
    · exact h₁
    · exact absurd hd (by decide)
    · exact absurd hd (by decide)
  refine ⟨rfl, fun dp hd => ?_, fun dp hd e he hne => ?_⟩
  · rw [hroot dp hd]
    decide
  · rw [hroot dp hd] at he
    have hent : entries (rootWithFile.data ROOTINO) = [(2, 'a'.toNat :: List.replicate 13 0)] := rfl
    rw [hent, List.mem_singleton] at he
    subst he
    decide

/-- `/a` from the root of `rootWithFile` is inode `2`. -/
theorem path_resolution_slash_a :
    rootWithFile.Tree ∧ namei rootWithFile ROOTINO ['/'.toNat, 'a'.toNat] (List.replicate DIRSIZ 0) =
      .ok (some 2) := by
  refine ⟨rootWithFile_tree, ?_⟩
  rw [(path_resolution rootWithFile rootWithFile_tree (by decide) _ _ (by simp)).1]
  rfl

end FsView

end Xv6Lab
