import Xv6Lab.Fs.Mkfs
import Xv6Lab.Fs.BlockOwnership

/-!
# `mkfs` writes inodes past the inode blocks

`mkfs`'s `ialloc` hands out inode `freeinode++` and nothing compares it with the superblock's
`NINODES = 200`.  Inode `i` is written to block `IBLOCK(i) = i / 8 + 32`, and the inode blocks end
at block 57: from inode 208 on, `winode` writes into the bitmap block and then into the data
blocks that `iappend` hands out from block 59 on.

With 383 files and no contents (inodes 2 to 384), every block goes to the root directory, one
per 32 entries: blocks 59 to 70 hold its first 384 entries, and inodes 312 to 319 are written to
block 71 before the root needs it.  The entry of inode 384 is the root's 385th: `iappend` takes
block 71 as the root's indirect block, reads inode 312's first word (its type, `T_FILE`) as the
block of that entry and writes the entry into block 2, the log's header block.  The image the
kernel boots from has the root directory referencing block 2 and block 65536 (inode 312's link
count read as the next entry): outside the data area, so the block-ownership invariant fails
before any file-system call (`mkfs_root_crosslinked`).

The proof runs `mkfs` symbolically: `Shape m k` describes the image after the files of inodes
below `k`, and `Shape.addFile` is the step of one file.
-/

namespace Xv6Lab

open Function Bytes Disk

/-- File `k` of the failing command line: a three-letter name and no contents. -/
def overflowFile (k : ℕ) : List ℕ × List ℕ :=
  ([97 + k / 676 % 26, 97 + k / 26 % 26, 97 + k % 26], [])

/-- 383 empty files: inodes 2 to 384. -/
def overflowFiles : List (List ℕ × List ℕ) := (List.range 383).map overflowFile

/-- The root directory after `k` entries (`.`, `..` and the files of inodes `2` to `k - 1`):
`16 * k` bytes in blocks `59, 60, …`, one block per 32 entries. -/
def rootAt (k : ℕ) : DInode :=
  ⟨T_DIR, 0, 0, 1, 16 * k, fun f => if (f : ℕ) < (k + 31) / 32 then 59 + f else 0⟩

theorem rootAt_fits {k : ℕ} (hk : k < 2 ^ 27) : (rootAt k).Fits where
  type := (by decide : T_DIR < 2 ^ 16)
  major := Nat.two_pow_pos _
  minor := Nat.two_pow_pos _
  nlink := (by decide : 1 < 2 ^ 16)
  size := by simp only [rootAt]; omega
  addrs f := by
    simp only [rootAt]
    split
    · have := f.isLt
      simp only [NDIRECT] at this
      omega
    · exact Nat.two_pow_pos _

/-- The root's block for entry `k` is block `59 + k / 32`; the first entry of a block takes the
next block `mkfs` hands out. -/
theorem blockFor_rootAt (m : Mkfs) {k : ℕ} (hk : k < 384) (hfb : m.freeblock = 59 + (k + 31) / 32) :
    m.blockFor (rootAt k) (16 * k / BSIZE) =
      some ({ m with freeblock := 59 + (k + 32) / 32 },
        { rootAt k with addrs := (rootAt (k + 1)).addrs }, 59 + k / 32) := by
  have hfbn : 16 * k / BSIZE = k / 32 := by
    simp only [BSIZE]
    omega
  have hlt : k / 32 < NDIRECT := by
    simp only [NDIRECT]
    omega
  rw [hfbn, Mkfs.blockFor_of_lt m _ hlt]
  by_cases hk32 : k % 32 = 0
  · -- entry `k` starts a block: `freeblock++`
    rw [Mkfs.takeAddr_of_eq_zero m (by simp only [rootAt]; split <;> omega)]
    simp only [Option.some.injEq, Prod.mk.injEq, update_self, hfb]
    refine ⟨by congr 1; omega, ?_, by omega⟩
    congr 1
    funext f
    simp only [update_apply, rootAt, Fin.ext_iff]
    split_ifs <;> omega
  · rw [Mkfs.takeAddr_of_ne_zero m (by simp only [rootAt]; split <;> omega)]
    simp only [Option.some.injEq, Prod.mk.injEq, rootAt]
    have hnext : 59 + (k + 32) / 32 = m.freeblock := by
      rw [hfb]
      omega
    refine ⟨by rw [hnext], ?_, by split <;> omega⟩
    congr 1
    funext f
    split_ifs <;> omega

/-- **Appending entry `k` to the root directory**: the entry is copied into block `59 + k / 32`
and the root inode written back; nothing else changes on the image. -/
theorem iappend_rootAt {m : Mkfs} {k : ℕ} (hk : k < 384) (hlen : m.len = FSSIZE)
    (hfb : m.freeblock = 59 + (k + 31) / 32) (hroot : m.disk.inode ROOTINO = rootAt k)
    (de : List ℕ) :
    ∃ m', m.iappend ROOTINO de Mkfs.DIRENT_SIZE = some m' ∧ m'.len = FSSIZE ∧
      m'.freeinode = m.freeinode ∧ m'.freeblock = 59 + (k + 32) / 32 ∧
      m'.disk.inode ROOTINO = rootAt (k + 1) ∧
      ∀ x, x ≠ 59 + k / 32 → x ≠ IBLOCK ROOTINO → m'.disk x = m.disk x := by
  have hI : IBLOCK ROOTINO < m.len := by
    rw [hlen]
    decide
  have hsize : (m.disk.inode ROOTINO).size = 16 * k := by rw [hroot]; rfl
  have hx : 59 + k / 32 < ({ m with freeblock := 59 + (k + 32) / 32 } : Mkfs).len := by
    show 59 + k / 32 < m.len
    rw [hlen]
    simp only [FSSIZE]
    omega
  rw [Mkfs.iappend_single hI (show 0 < Mkfs.DIRENT_SIZE by decide) (by rw [hsize]; simp only [BSIZE, Mkfs.DIRENT_SIZE, DIRSIZ]; omega)
    (by rw [hsize]; simp only [BSIZE, MAXFILE, NDIRECT, NINDIRECT]; omega)
    (by rw [hroot]; exact blockFor_rootAt m hk hfb) hx, Mkfs.winode_of_lt ?hI2]
  case hI2 =>
    simp only [Mkfs.wsect_len]
    show IBLOCK ROOTINO < max m.len _
    rw [hlen]
    exact Nat.lt_of_lt_of_le (by decide) (Nat.le_max_left _ _)
  have hdin : ({ { rootAt k with addrs := (rootAt (k + 1)).addrs } with
      size := (m.disk.inode ROOTINO).size + Mkfs.DIRENT_SIZE } : DInode) = rootAt (k + 1) := by
    rw [hsize]
    rfl
  refine ⟨_, rfl, ?_, rfl, rfl, ?_, fun x hx1 hx2 => ?_⟩
  · simp only [Mkfs.wsect_len]
    rw [hlen]
    simp only [FSSIZE, IBLOCK, IPB, BSIZE, ROOTINO, sb, nlog, LOGSIZE, MAXOPBLOCKS]
    omega
  · rw [hdin]
    exact inode_setInode _ _ (rootAt_fits (by omega))
  · simp only [Mkfs.wsect_disk, setInode]
    rw [update_of_ne hx2, update_of_ne hx1]

/-- `mkfs` after the files of inodes below `k`: an image of `FSSIZE` blocks, the counters at
inode `k` and at the root's next block, the root with `k` entries, and inode 312, once written,
a fresh file's. -/
structure Shape (m : Mkfs) (k : ℕ) : Prop where
  len : m.len = FSSIZE
  freeinode : m.freeinode = k
  freeblock : m.freeblock = 59 + (k + 31) / 32
  root : m.disk.inode ROOTINO = rootAt k
  inode312 : 312 < k → m.disk.inode 312 = Mkfs.newDInode T_FILE

/-- `ialloc(T_FILE)` takes inode `k` and writes it into block `IBLOCK k`. -/
theorem Shape.ialloc {m : Mkfs} {k : ℕ} (h : Shape m k) (hk : k ≤ 384) :
    ∃ m1, m.ialloc T_FILE = some (m1, k) ∧ m1.len = FSSIZE ∧ m1.freeinode = k + 1 ∧
      m1.freeblock = m.freeblock ∧ m1.disk = m.disk.setInode k (Mkfs.newDInode T_FILE) := by
  have hI : IBLOCK k + 1 ≤ FSSIZE := by
    simp only [IBLOCK, IPB, BSIZE, sb, nlog, LOGSIZE, MAXOPBLOCKS, FSSIZE]
    omega
  rw [Mkfs.ialloc_of_lt (by rw [h.freeinode, h.len]; omega), h.freeinode]
  exact ⟨_, rfl, by rw [h.len]; exact Nat.max_eq_left hI, rfl, rfl, rfl⟩

/-- A file's inode block and the root's block for its entry are not block 71, where inode 312
lies. -/
theorem inode312_frame {d d' : Disk} {k : ℕ} (hk : k < 384) (hk312 : k ≠ 312)
    (hframe : ∀ x, x ≠ 59 + k / 32 → x ≠ IBLOCK ROOTINO →
      d' x = (d.setInode k (Mkfs.newDInode T_FILE)) x) :
    d'.inode 312 = d.inode 312 := by
  have h71 : d' (IBLOCK 312) = (d.setInode k (Mkfs.newDInode T_FILE)) (IBLOCK 312) :=
    hframe _ (by simp only [IBLOCK, IPB, BSIZE, sb, nlog, LOGSIZE, MAXOPBLOCKS]; omega) (by decide)
  rw [← inode_setInode_of_ne d _ (Ne.symm hk312)]
  exact congrArg (fun buf => dinodeAt buf (slotOf 312)) h71

/-- **The step of one file**: an inode and an entry in the root, for a file with no contents
whose inode is below 384. -/
theorem Shape.addFile {m : Mkfs} {k : ℕ} (h : Shape m k) (hk2 : 2 ≤ k) (hk : k < 384)
    {name : List ℕ} (hname : '/'.toNat ∉ name) :
    ∃ m', m.addFile ROOTINO (name, []) = some m' ∧ Shape m' (k + 1) := by
  obtain ⟨m1, hia, hlen1, hfi1, hfb1, hdisk1⟩ := h.ialloc hk.le
  have hroot1 : m1.disk.inode ROOTINO = rootAt k := by
    rw [hdisk1, inode_setInode_of_ne _ _ (show ROOTINO ≠ k by simp only [ROOTINO]; omega)]
    exact h.root
  obtain ⟨m2, hap, hlen2, hfi2, hfb2, hroot2, hframe⟩ := iappend_rootAt hk hlen1
    (by rw [hfb1]; exact h.freeblock) hroot1
    (Mkfs.dirent k (if name.head? = some '_'.toNat then name.tail else name))
  refine ⟨m2, ?_, ⟨hlen2, by rw [hfi2, hfi1], by rw [hfb2], hroot2, fun h312 => ?_⟩⟩
  · simp only [Mkfs.addFile, if_neg hname, hia, Option.bind_eq_bind, Option.bind_some, hap]
    rfl
  · -- inode 312 is written by its own `ialloc` and by nothing after it
    rw [hdisk1] at hframe
    by_cases hk312 : k = 312
    · subst hk312
      have h71 := hframe (IBLOCK 312) (by decide) (by decide)
      show dinodeAt (m2.disk (IBLOCK 312)) (slotOf 312) = _
      rw [h71]
      exact inode_setInode m.disk 312 (Mkfs.newDInode_fits T_FILE)
    · rw [inode312_frame hk hk312 hframe]
      exact h.inode312 (by omega)

/-- **The run over the files**: from `Shape m k`, files with no `/` in their names and no
contents, as long as their inodes stay below 384, leave the image of `Shape m' (k + n)`. -/
theorem Shape.foldlM {m : Mkfs} {k : ℕ} (h : Shape m k) (hk2 : 2 ≤ k)
    (fs : List (List ℕ × List ℕ)) (hfs : ∀ f ∈ fs, '/'.toNat ∉ f.1 ∧ f.2 = [])
    (hlen : k + fs.length ≤ 384) :
    ∃ m', fs.foldlM (fun m f => m.addFile ROOTINO f) m = some m' ∧ Shape m' (k + fs.length) := by
  induction fs generalizing m k with
  | nil => exact ⟨m, rfl, h⟩
  | cons f fs ih =>
    obtain ⟨hname, hnil⟩ := hfs f List.mem_cons_self
    obtain ⟨name, contents⟩ := f
    simp only at hname hnil
    subst hnil
    simp only [List.length_cons] at hlen
    obtain ⟨m1, h1, hs1⟩ := h.addFile hk2 (by omega) hname
    obtain ⟨m', h2, hs'⟩ := ih hs1 (by omega) (fun f hf => hfs f (List.mem_cons_of_mem _ hf))
      (by omega)
    refine ⟨m', ?_, by rw [List.length_cons, Nat.add_comm fs.length 1, ← Nat.add_assoc]; exact hs'⟩
    rw [List.foldlM_cons, h1, Option.bind_eq_bind, Option.bind_some]
    exact h2

/-! ### The file of inode 384 -/

/-- The root after the entry of inode 384, with `size` bytes: the twelve direct blocks 59 to 70
and the indirect block 71. -/
def rootLast (size : ℕ) : DInode :=
  ⟨T_DIR, 0, 0, 1, size, fun f => if (f : ℕ) < NDIRECT then 59 + f else 71⟩

theorem rootLast_fits {size : ℕ} (hs : size < 2 ^ 32) : (rootLast size).Fits where
  type := (by decide : T_DIR < 2 ^ 16)
  major := Nat.two_pow_pos _
  minor := Nat.two_pow_pos _
  nlink := (by decide : 1 < 2 ^ 16)
  size := hs
  addrs f := by
    simp only [rootLast]
    by_cases hf : (f : ℕ) < NDIRECT
    · rw [if_pos hf]
      simp only [NDIRECT] at hf
      omega
    · rw [if_neg hf]
      decide

/-- Inode 312's first two words, read as the first two entries of block 71: its type, `T_FILE`,
and its link count shifted by 16 bits. -/
theorem entries_of_inode312 {d : Disk} (h : d.inode 312 = Mkfs.newDInode T_FILE) :
    getLE (d 71) 0 4 = 2 ∧ getLE (d 71) 4 4 = 65536 := by
  have htype : getLE (d 71) 0 2 = 2 := congrArg DInode.type h
  have hmajor : getLE (d 71) 2 2 = 0 := congrArg DInode.major h
  have hminor : getLE (d 71) 4 2 = 0 := congrArg DInode.minor h
  have hnlink : getLE (d 71) 6 2 = 1 := congrArg DInode.nlink h
  have h0 := getLE_add (d 71) 0 2 2
  have h1 := getLE_add (d 71) 4 2 2
  rw [htype, hmajor] at h0
  rw [hminor, hnlink] at h1
  exact ⟨h0, h1⟩

/-- **The file of inode 384**: its entry is the root's first past the direct blocks.  `iappend`
takes block 71 as the root's indirect block, finds inode 312's type in its first entry, and
writes the directory entry into block 2. -/
theorem Shape.addFile_last {m : Mkfs} (h : Shape m 384) {name : List ℕ}
    (hname : '/'.toNat ∉ name) :
    ∃ m', m.addFile ROOTINO (name, []) = some m' ∧ m'.len = FSSIZE ∧ m'.freeblock = 72 ∧
      m'.disk.inode ROOTINO = rootLast (16 * 385) ∧ m'.disk 71 = m.disk 71 := by
  obtain ⟨m1, hia, hlen1, -, hfb1, hdisk1⟩ := h.ialloc le_rfl
  have hroot1 : m1.disk.inode ROOTINO = rootAt 384 := by
    rw [hdisk1, inode_setInode_of_ne _ _ (by decide)]
    exact h.root
  have h71 : m1.disk 71 = m.disk 71 := by
    rw [hdisk1]
    exact update_of_ne (by decide) _ _
  have hent := entries_of_inode312 (h.inode312 (by decide))
  -- `takeAddr` gives the root its indirect block: block 71, the next one
  have htake : m1.takeAddr (rootAt 384) (Fin.last NDIRECT) = ({ m1 with freeblock := 72 },
      { rootAt 384 with addrs := update (rootAt 384).addrs (Fin.last NDIRECT) 71 }) := by
    rw [Mkfs.takeAddr_of_eq_zero m1 (by decide), hfb1, h.freeblock]
  -- its first entry is inode 312's type: no block is allocated, and the entry goes to block 2
  have hb : m1.blockFor (rootAt 384) (16 * 384 / BSIZE) = some ({ m1 with freeblock := 72 },
      { rootAt 384 with addrs := update (rootAt 384).addrs (Fin.last NDIRECT) 71 }, 2) := by
    have h0 : getLE (m1.disk 71) (4 * (16 * 384 / BSIZE - NDIRECT)) 4 = 2 := by
      rw [h71]
      exact hent.1
    rw [Mkfs.blockFor_of_entry_ne_zero m1 _ (by decide)
      (by rw [htake]; show 71 < m1.len; rw [hlen1]; decide)
      (by rw [htake]; show getLE (m1.disk 71) _ 4 ≠ 0; rw [h0]; decide), htake]
    show some (_, _, getLE (m1.disk 71) _ 4) = _
    rw [h0]
  have hsize : (m1.disk.inode ROOTINO).size = 16 * 384 := by rw [hroot1]; rfl
  rw [← hroot1, ← hsize] at hb
  obtain ⟨n', hn'⟩ : ∃ n', Mkfs.DIRENT_SIZE = n' + 1 := ⟨15, rfl⟩
  have hap := Mkfs.iappend_single (p := Mkfs.dirent 384
      (if name.head? = some '_'.toNat then name.tail else name))
    (show IBLOCK ROOTINO < m1.len by rw [hlen1]; decide)
    (show 0 < Mkfs.DIRENT_SIZE by decide) (by rw [hsize]; decide) (by rw [hsize]; decide) hb
    (show 2 < m1.len by rw [hlen1]; decide)
  rw [Mkfs.winode_of_lt (show IBLOCK ROOTINO < max m1.len (2 + 1) by rw [hlen1]; decide)] at hap
  refine ⟨?w, ?heq, ?hlen, ?hfb, ?hroot, ?h71⟩
  case heq =>
    simp only [Mkfs.addFile, if_neg hname, hia, Option.bind_eq_bind, Option.bind_some, hap]
    rfl
  case hlen =>
    show max (max m1.len (2 + 1)) (IBLOCK ROOTINO + 1) = FSSIZE
    rw [hlen1]
    decide
  case hfb => rfl
  case hroot =>
    have hrec : ({ m1.disk.inode ROOTINO with
        size := (m1.disk.inode ROOTINO).size + Mkfs.DIRENT_SIZE,
        addrs := update (m1.disk.inode ROOTINO).addrs (Fin.last NDIRECT) 71 } : DInode) =
          rootLast (16 * 385) := by
      rw [hroot1]
      refine DInode.ext rfl rfl rfl rfl rfl (funext fun f => ?_)
      show update (rootAt 384).addrs (Fin.last NDIRECT) 71 f = (rootLast (16 * 385)).addrs f
      by_cases hlt : (f : ℕ) < NDIRECT
      · -- a direct block, one of 59 to 70
        have hne : f ≠ Fin.last NDIRECT := fun h => by
          rw [h, Fin.val_last] at hlt
          exact Nat.lt_irrefl _ hlt
        rw [update_of_ne hne]
        simp only [rootAt, rootLast, if_pos hlt]
        rw [if_pos (by simp only [NDIRECT] at hlt; omega)]
      · -- the indirect block
        have heq : f = Fin.last NDIRECT := Fin.ext (by
          have hf := f.isLt
          rw [Fin.val_last]
          omega)
        subst heq
        rw [update_self]
        simp only [rootLast, if_neg hlt]
    show Disk.inode (Disk.setInode _ ROOTINO _) ROOTINO = _
    rw [hrec]
    exact inode_setInode _ _ (rootLast_fits (by decide))
  case h71 =>
    simp only [Mkfs.wsect_disk, setInode]
    rw [update_of_ne (show (71 : ℕ) ≠ IBLOCK ROOTINO by decide),
      update_of_ne (show (71 : ℕ) ≠ 2 by decide), h71]

/-! ### The whole run -/

theorem overflowFiles_eq :
    overflowFiles = (List.range 382).map overflowFile ++ [overflowFile 382] := by
  rw [overflowFiles, List.range_succ, List.map_append, List.map_singleton]

theorem overflowFile_ok (k : ℕ) : '/'.toNat ∉ (overflowFile k).1 ∧ (overflowFile k).2 = [] := by
  refine ⟨?_, rfl⟩
  rw [show '/'.toNat = 47 from rfl]
  simp only [overflowFile, List.mem_cons, List.not_mem_nil, or_false]
  omega

/-- The root's inode, allocated on the zeroed image with its superblock. -/
theorem mkfs_root_ialloc :
    ∃ m, ((⟨fun _ => zero, FSSIZE, 1, nmeta⟩ : Mkfs).wsect 1 Mkfs.sbBuf).ialloc T_DIR =
      some (m, ROOTINO) ∧ m.len = FSSIZE ∧ m.freeinode = 2 ∧ m.freeblock = 59 + (0 + 31) / 32 ∧
      m.disk.inode ROOTINO = rootAt 0 := by
  refine ⟨_, Mkfs.ialloc_of_lt (by decide) T_DIR, rfl, rfl, rfl, ?_⟩
  show Disk.inode (Disk.setInode _ ROOTINO _) ROOTINO = _
  rw [inode_setInode _ _ (Mkfs.newDInode_fits T_DIR)]
  exact DInode.ext rfl rfl rfl rfl rfl (funext fun f => by simp [rootAt, Mkfs.newDInode])

/-- **mkfs cross-links the root with the log.**  `mkfs` run on 383 empty files writes an image
whose root directory takes block 71, which holds inode 312, as its indirect block: the root then
references block 2, the log header, and block 65536, past the disk, and the image breaks the
block-ownership invariant that every kernel operation keeps (`block_ownership`). -/
theorem mkfs_root_crosslinked :
    ∃ m, mkfs overflowFiles = some m ∧ (m.disk.inode ROOTINO).type = T_DIR ∧
      m.disk.slotAddr ROOTINO .indirect = 71 ∧ m.disk.slotAddr ROOTINO (.entry ⟨0, by decide⟩) = 2 ∧
      m.disk.slotAddr ROOTINO (.entry ⟨1, by decide⟩) = 65536 ∧ ¬ BlockInv m.disk := by
  -- the root with `.` and `..`: two entries in block 59
  obtain ⟨mA, hA, hlenA, hfiA, hfbA, hrootA⟩ := mkfs_root_ialloc
  obtain ⟨mB, hB, hlenB, hfiB, hfbB, hrootB, -⟩ := iappend_rootAt (k := 0) (by decide) hlenA
    hfbA hrootA (Mkfs.dirent ROOTINO ['.'.toNat])
  obtain ⟨mC, hC, hlenC, hfiC, hfbC, hrootC, -⟩ := iappend_rootAt (m := mB) (k := 1) (by decide)
    hlenB hfbB hrootB (Mkfs.dirent ROOTINO ['.'.toNat, '.'.toNat])
  have hsC : Shape mC 2 :=
    ⟨hlenC, by rw [hfiC, hfiB, hfiA], hfbC, hrootC, fun h => absurd h (by decide)⟩
  -- the files of inodes 2 to 383, then the one of inode 384
  obtain ⟨mD, hD, hsD⟩ := hsC.foldlM le_rfl ((List.range 382).map overflowFile)
    (fun f hf => by
      obtain ⟨k, -, rfl⟩ := List.mem_map.1 hf
      exact overflowFile_ok k) (by rw [List.length_map, List.length_range])
  rw [List.length_map, List.length_range] at hsD
  obtain ⟨mE, hE, hlenE, hfbE, hrootE, h71E⟩ := hsD.addFile_last (overflowFile_ok 382).1
  -- the size fix of the root: `6160` bytes become `6656`
  obtain ⟨mF, hF, hfbF, hrootF, h71F⟩ : ∃ mF,
      mE.winode ROOTINO
        { rootLast (16 * 385) with size := ((rootLast (16 * 385)).size / BSIZE + 1) * BSIZE } =
        some mF ∧ mF.freeblock = 72 ∧ mF.disk.inode ROOTINO = rootLast 6656 ∧
        mF.disk 71 = mE.disk 71 := by
    refine ⟨_, Mkfs.winode_of_lt (by rw [hlenE]; decide) _, hfbE, ?_, ?_⟩
    · exact inode_setInode _ _ (rootLast_fits (by decide))
    · dsimp only
      rw [setInode]
      exact update_of_ne (show (71 : ℕ) ≠ IBLOCK ROOTINO by decide) _ _
  have hrun : mkfs overflowFiles = some (mF.wsect sb.bmapstart (Mkfs.bitmap 72)) := by
    unfold mkfs
    dsimp only
    rw [Mkfs.zero_loop, hA]
    simp only [Option.bind_eq_bind, Option.bind_some, ne_eq, not_true_eq_false, if_false, hB, hC]
    rw [overflowFiles_eq, List.foldlM_append, hD]
    simp only [Option.bind_eq_bind, Option.bind_some, List.foldlM_cons, List.foldlM_nil,
      Option.pure_def]
    rw [show overflowFile 382 = ((overflowFile 382).1, []) from rfl, hE, Option.bind_some,
      Option.bind_some, Mkfs.rinode_of_lt (by rw [hlenE]; decide), hrootE, Option.bind_some]
    dsimp only at hF
    rw [hF, Option.bind_some, Mkfs.balloc, hfbF, if_pos (by decide)]
  -- the bitmap write leaves the inode block and block 71 as they are
  have hroot : Disk.inode (update mF.disk sb.bmapstart (Mkfs.bitmap 72)) ROOTINO = rootLast 6656 := by
    rw [inode_update_of_ne _ (show sb.bmapstart ≠ IBLOCK ROOTINO by decide), hrootF]
  have h71 : update mF.disk sb.bmapstart (Mkfs.bitmap 72) 71 = mD.disk 71 := by
    rw [update_of_ne (show (71 : ℕ) ≠ sb.bmapstart by decide), h71F, h71E]
  have hind : Disk.slotAddr (update mF.disk sb.bmapstart (Mkfs.bitmap 72)) ROOTINO .indirect = 71 := by
    rw [slotAddr_indirect, hroot]
    rfl
  -- the root's first two entries are inode 312's first two words
  have hent := entries_of_inode312 (hsD.inode312 (by decide))
  have he0 : Disk.slotAddr (update mF.disk sb.bmapstart (Mkfs.bitmap 72)) ROOTINO
      (.entry ⟨0, by decide⟩) = 2 := by
    rw [slotAddr_entry, hind, if_neg (by decide), entry, h71]
    exact hent.1
  have he1 : Disk.slotAddr (update mF.disk sb.bmapstart (Mkfs.bitmap 72)) ROOTINO
      (.entry ⟨1, by decide⟩) = 65536 := by
    rw [slotAddr_entry, hind, if_neg (by decide), entry, h71]
    exact hent.2
  refine ⟨_, hrun, ?_, hind, he0, he1, fun hinv => ?_⟩
  · simp only [Mkfs.wsect_disk]
    rw [hroot]
    rfl
  · -- block 2, the log header, would have to lie in the data area
    have hdata := (hinv.data ROOTINO (by decide) _ (by rw [Mkfs.wsect_disk, he0]; decide)).1
    rw [Mkfs.wsect_disk, he0] at hdata
    exact absurd hdata (by decide)

end Xv6Lab
