import Xv6Lab.Lib.Bytes

/-!
# The on-disk layout of the file system (`fs.h`, `param.h`, `mkfs.c`)

`mkfs` lays the disk out as
`[ boot block | super block | log | inode blocks | free bit map | data blocks ]` and records the
layout in the superblock, which the kernel reads back (`readsb`).  With `FSSIZE = 1000`,
`LOGSIZE = 30` and `NINODES = 200` that is 59 metadata blocks (`nmeta`), inode blocks 32 to 57,
the bitmap in block 58 and data blocks from 59 on.

A disk is a map from block numbers to byte buffers.  Three views read the file system's
structures out of it, at the places `fs.h` gives them:

* `Disk.inode d i` — `struct dinode` number `i`, in block `IBLOCK(i)` at slot `i % IPB`;
* `Disk.used d b` — the bit of block `b` in the free map, in block `BBLOCK(b)`;
* `Disk.entry d a j` — entry `j` of block `a` read as an array of `uint`s, as `bmap` and
  `itrunc` read an indirect block.

Each view reads a fixed set of bytes, so a write elsewhere leaves it alone (`inode_update_of_ne`,
`used_update_of_ne`, `entry_update_of_ne`); `Disk.setInode` is `iupdate`'s write of one inode.
-/

namespace Xv6Lab

open Function Bytes

/-- `BSIZE`: block size. -/
def BSIZE : ℕ := 512
/-- `NDIRECT`. -/
def NDIRECT : ℕ := 12
/-- `NINDIRECT = BSIZE / sizeof(uint)`. -/
def NINDIRECT : ℕ := BSIZE / 4
/-- `MAXFILE = NDIRECT + NINDIRECT`. -/
def MAXFILE : ℕ := NDIRECT + NINDIRECT
/-- `IPB = BSIZE / sizeof(struct dinode)`; a `struct dinode` takes 64 bytes. -/
def IPB : ℕ := BSIZE / 64
/-- `BPB = BSIZE * 8`: bitmap bits per block. -/
def BPB : ℕ := BSIZE * 8
/-- `MAXOPBLOCKS`. -/
def MAXOPBLOCKS : ℕ := 10
/-- `LOGSIZE = MAXOPBLOCKS * 3`. -/
def LOGSIZE : ℕ := MAXOPBLOCKS * 3
/-- `FSSIZE`: size of the file system in blocks. -/
def FSSIZE : ℕ := 1000
/-- `ROOTINO`. -/
def ROOTINO : ℕ := 1
/-- `T_DIR`. -/
def T_DIR : ℕ := 1
/-- `T_FILE`. -/
def T_FILE : ℕ := 2
/-- `T_DEV`. -/
def T_DEV : ℕ := 3
/-- `NINODES` of `mkfs.c`: the number of inodes the superblock records. -/
def NINODES : ℕ := 200

/-- `mkfs`'s `nbitmap`. -/
def nbitmap : ℕ := FSSIZE / (BSIZE * 8) + 1
/-- `mkfs`'s `ninodeblocks`. -/
def ninodeblocks : ℕ := NINODES / IPB + 1
/-- `mkfs`'s `nlog`. -/
def nlog : ℕ := LOGSIZE
/-- `mkfs`'s `nmeta`: boot block, superblock, log, inode blocks and bitmap. -/
def nmeta : ℕ := 2 + nlog + ninodeblocks + nbitmap

/-- `struct superblock`. -/
structure Superblock where
  size : ℕ
  nblocks : ℕ
  ninodes : ℕ
  nlog : ℕ
  logstart : ℕ
  inodestart : ℕ
  bmapstart : ℕ

/-- The superblock `mkfs` writes to block 1 and `readsb` reads back. -/
def sb : Superblock :=
  ⟨FSSIZE, FSSIZE - nmeta, NINODES, nlog, 2, 2 + nlog, 2 + nlog + ninodeblocks⟩

/-- `IBLOCK(i, sb)`: the block holding inode `i`. -/
def IBLOCK (i : ℕ) : ℕ := i / IPB + sb.inodestart

/-- `BBLOCK(b, sb)`: the bitmap block holding the bit of block `b`. -/
def BBLOCK (b : ℕ) : ℕ := b / BPB + sb.bmapstart

theorem nmeta_eq : nmeta = 59 := rfl

theorem bmapstart_eq : sb.bmapstart = 58 := rfl

/-- The inodes of the superblock lie in the inode blocks, below the bitmap. -/
theorem IBLOCK_lt_bmapstart {i : ℕ} (hi : i < NINODES) : IBLOCK i < sb.bmapstart := by
  simp only [IBLOCK, IPB, BSIZE, sb, nlog, LOGSIZE, MAXOPBLOCKS, ninodeblocks, NINODES] at hi ⊢
  omega

theorem bmapstart_le_BBLOCK (b : ℕ) : sb.bmapstart ≤ BBLOCK b := Nat.le_add_left _ _

/-- One bitmap block covers the disk: the bit of a block of the disk is its own number. -/
theorem BBLOCK_of_lt {b : ℕ} (hb : b < FSSIZE) : BBLOCK b = sb.bmapstart ∧ b % BPB = b := by
  simp only [BBLOCK, BPB, BSIZE, FSSIZE] at hb ⊢
  omega

/-- Two inodes in one block sit in different slots. -/
theorem slot_ne_of_IBLOCK_eq {i j : ℕ} (hij : i ≠ j) (h : IBLOCK i = IBLOCK j) :
    i % IPB ≠ j % IPB := by
  simp only [IBLOCK, IPB, BSIZE] at h ⊢
  omega

/-! ### Inodes -/

/-- `struct dinode`: the shorts and uints as their unsigned values. -/
@[ext] structure DInode where
  type : ℕ
  major : ℕ
  minor : ℕ
  nlink : ℕ
  size : ℕ
  addrs : Fin (NDIRECT + 1) → ℕ

/-- The fields fit their C types: four shorts and fourteen uints. -/
structure DInode.Fits (din : DInode) : Prop where
  type : din.type < 2 ^ 16
  major : din.major < 2 ^ 16
  minor : din.minor < 2 ^ 16
  nlink : din.nlink < 2 ^ 16
  size : din.size < 2 ^ 32
  addrs : ∀ k, din.addrs k < 2 ^ 32

/-- The inode at byte offset `o` of a block. -/
def dinodeAt (buf : Buf) (o : ℕ) : DInode where
  type := getLE buf o 2
  major := getLE buf (o + 2) 2
  minor := getLE buf (o + 4) 2
  nlink := getLE buf (o + 6) 2
  size := getLE buf (o + 8) 4
  addrs k := getLE buf (o + 12 + 4 * k) 4

/-- The 64 bytes of `struct dinode` holding `din`, packed and little-endian. -/
def encodeDInode (din : DInode) (r : ℕ) : ℕ :=
  if r < 2 then byteOf din.type r
  else if r < 4 then byteOf din.major (r - 2)
  else if r < 6 then byteOf din.minor (r - 4)
  else if r < 8 then byteOf din.nlink (r - 6)
  else if r < 12 then byteOf din.size (r - 8)
  else if h : r < 64 then
    byteOf (din.addrs ⟨(r - 12) / 4, by unfold NDIRECT; omega⟩) ((r - 12) % 4)
  else 0

/-- `*dip = *ip` for the inode at offset `o`. -/
def putDInode (buf : Buf) (o : ℕ) (din : DInode) : Buf := place buf o 64 (encodeDInode din)

theorem dinodeAt_fits (buf : Buf) (o : ℕ) : (dinodeAt buf o).Fits where
  type := getLE_lt buf o 2
  major := getLE_lt buf _ 2
  minor := getLE_lt buf _ 2
  nlink := getLE_lt buf _ 2
  size := getLE_lt buf _ 4
  addrs _ := getLE_lt buf _ 4

/-- The encoding reads back as the inode it encodes. -/
theorem dinodeAt_encodeDInode {din : DInode} (h : din.Fits) : dinodeAt (encodeDInode din) 0 = din := by
  refine DInode.ext ?_ ?_ ?_ ?_ ?_ (funext fun a => ?_)
  · exact getLE_of_bytes h.type fun k _ h2 => by simp [encodeDInode, h2]
  · exact getLE_of_bytes h.major fun k h1 h2 => by
      simp [encodeDInode, show ¬k < 2 by omega, show k < 4 by omega]
  · exact getLE_of_bytes h.minor fun k h1 h2 => by
      simp [encodeDInode, show ¬k < 2 by omega, show ¬k < 4 by omega, show k < 6 by omega]
  · exact getLE_of_bytes h.nlink fun k h1 h2 => by
      simp [encodeDInode, show ¬k < 2 by omega, show ¬k < 4 by omega, show ¬k < 6 by omega,
        show k < 8 by omega]
  · exact getLE_of_bytes h.size fun k h1 h2 => by
      simp [encodeDInode, show ¬k < 2 by omega, show ¬k < 4 by omega, show ¬k < 6 by omega,
        show ¬k < 8 by omega, show k < 12 by omega]
  · refine getLE_of_bytes (h.addrs a) fun k h1 h2 => ?_
    have ha := a.isLt
    unfold NDIRECT at ha
    have hidx : (⟨(k - 12) / 4, by unfold NDIRECT; omega⟩ : Fin (NDIRECT + 1)) = a :=
      Fin.ext (by simp only; omega)
    simp only [encodeDInode, show ¬k < 2 by omega, show ¬k < 4 by omega, show ¬k < 6 by omega,
      show ¬k < 8 by omega, show ¬k < 12 by omega, show k < 64 by omega, if_false, dif_pos, hidx]
    congr 1
    omega

/-- **Read-back rule** for inodes. -/
theorem dinodeAt_putDInode (buf : Buf) (o : ℕ) {din : DInode} (h : din.Fits) :
    dinodeAt (putDInode buf o din) o = din := by
  conv_rhs => rw [← dinodeAt_encodeDInode h]
  refine DInode.ext ?_ ?_ ?_ ?_ ?_ (funext fun a => ?_)
  · exact getLE_place_zero (by omega)
  · exact getLE_place (by omega)
  · exact getLE_place (by omega)
  · exact getLE_place (by omega)
  · exact getLE_place (by omega)
  · have ha := a.isLt
    unfold NDIRECT at ha
    simp only [dinodeAt, Nat.zero_add, Nat.add_assoc]
    exact getLE_place (by omega)

/-- **Frame rule** for inodes: an inode in another slot keeps its fields. -/
theorem dinodeAt_putDInode_of_disjoint {buf : Buf} {o o' : ℕ} (din : DInode)
    (h : o' + 64 ≤ o ∨ o + 64 ≤ o') : dinodeAt (putDInode buf o din) o' = dinodeAt buf o' := by
  refine DInode.ext ?_ ?_ ?_ ?_ ?_ (funext fun a => ?_)
  · exact getLE_place_of_disjoint (by omega)
  · exact getLE_place_of_disjoint (by omega)
  · exact getLE_place_of_disjoint (by omega)
  · exact getLE_place_of_disjoint (by omega)
  · exact getLE_place_of_disjoint (by omega)
  · have ha := a.isLt
    unfold NDIRECT at ha
    exact getLE_place_of_disjoint (by omega)

/-- An inode reads only the 64 bytes of its slot. -/
theorem dinodeAt_congr {buf buf' : Buf} {o : ℕ} (h : ∀ k, o ≤ k → k < o + 64 → buf k = buf' k) :
    dinodeAt buf o = dinodeAt buf' o := by
  have hf : ∀ a w, a + w ≤ 64 → getLE buf (o + a) w = getLE buf' (o + a) w :=
    fun a w haw => getLE_congr w fun k h1 h2 => h k (by omega) (by omega)
  refine DInode.ext ?_ ?_ ?_ ?_ ?_ (funext fun a => ?_)
  · exact hf 0 2 (by omega)
  · exact hf 2 2 (by omega)
  · exact hf 4 2 (by omega)
  · exact hf 6 2 (by omega)
  · exact hf 8 4 (by omega)
  · have ha := a.isLt
    unfold NDIRECT at ha
    simp only [dinodeAt, Nat.add_assoc]
    exact hf _ 4 (by omega)

/-! ### The disk and its views -/

/-- A disk: block number to block contents. -/
abbrev Disk := ℕ → Buf

namespace Disk

/-- The byte offset of inode `i`'s slot in its block. -/
def slotOf (i : ℕ) : ℕ := i % IPB * 64

/-- Inode `i` as `ilock` reads it: `(struct dinode*)bp->data + i%IPB` of block `IBLOCK(i)`. -/
def inode (d : Disk) (i : ℕ) : DInode := dinodeAt (d (IBLOCK i)) (slotOf i)

/-- `iupdate`: write inode `i` into its slot. -/
def setInode (d : Disk) (i : ℕ) (din : DInode) : Disk :=
  update d (IBLOCK i) (putDInode (d (IBLOCK i)) (slotOf i) din)

/-- The bit of block `b` in the free map: `bp->data[bi/8] & m` with `bi = b % BPB`. -/
def used (d : Disk) (b : ℕ) : Bool := bit (d (BBLOCK b)) (b % BPB)

/-- `((uint*)bp->data)[j]` for block `a`. -/
def entry (d : Disk) (a j : ℕ) : ℕ := getLE (d a) (4 * j) 4

theorem slotOf_add_le (i : ℕ) : slotOf i + 64 ≤ BSIZE := by
  simp only [slotOf, IPB, BSIZE]
  omega

theorem slots_disjoint {i j : ℕ} (hij : i % IPB ≠ j % IPB) :
    slotOf i + 64 ≤ slotOf j ∨ slotOf j + 64 ≤ slotOf i := by
  simp only [slotOf, IPB, BSIZE] at hij ⊢
  omega

@[simp] theorem inode_setInode (d : Disk) (i : ℕ) {din : DInode} (h : din.Fits) :
    (d.setInode i din).inode i = din := by
  simp [inode, setInode, dinodeAt_putDInode _ _ h]

theorem inode_setInode_of_ne (d : Disk) {i j : ℕ} (din : DInode) (hij : j ≠ i) :
    (d.setInode i din).inode j = d.inode j := by
  unfold inode setInode
  by_cases hb : IBLOCK j = IBLOCK i
  · rw [hb, update_self, dinodeAt_putDInode_of_disjoint]
    exact slots_disjoint (slot_ne_of_IBLOCK_eq hij hb)
  · rw [update_of_ne hb]

theorem inode_update_of_ne {d : Disk} {x i : ℕ} (f : Buf) (hx : x ≠ IBLOCK i) :
    Disk.inode (update d x f) i = d.inode i := by
  unfold inode
  rw [update_of_ne (Ne.symm hx)]

theorem used_update_of_ne {d : Disk} {x b : ℕ} (f : Buf) (hx : x ≠ BBLOCK b) :
    Disk.used (update d x f) b = d.used b := by
  unfold used
  rw [update_of_ne (Ne.symm hx)]

theorem entry_update_of_ne {d : Disk} {x a : ℕ} (f : Buf) (hx : x ≠ a) (j : ℕ) :
    Disk.entry (update d x f) a j = d.entry a j := by
  unfold entry
  rw [update_of_ne (Ne.symm hx)]

/-- `iupdate` of an inode of the superblock leaves the free map alone. -/
theorem used_setInode {i : ℕ} (hi : i < NINODES) (d : Disk) (din : DInode) (b : ℕ) :
    (d.setInode i din).used b = d.used b :=
  used_update_of_ne _ (Nat.ne_of_lt (Nat.lt_of_lt_of_le (IBLOCK_lt_bmapstart hi)
    (bmapstart_le_BBLOCK b)))

theorem entry_setInode {i a : ℕ} (d : Disk) (din : DInode) (ha : IBLOCK i ≠ a) (j : ℕ) :
    (d.setInode i din).entry a j = d.entry a j :=
  entry_update_of_ne _ ha j

end Disk

end Xv6Lab
