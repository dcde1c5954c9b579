import Xv6Lab.Fs.Layout

/-!
# `mkfs`: the file-system image builder

`mkfs fs.img files...` writes the image the kernel boots from: it zeroes `FSSIZE` blocks,
writes the superblock, makes the root directory with `.` and `..`, adds one inode and one
directory entry per file of its command line with the file's contents, fixes the root's size and
writes the free map marking every block it handed out.

Its allocators are two counters: `ialloc` takes inode `freeinode++` and `iappend` takes block
`freeblock++` whenever a file needs a new block.  The image is written through `wsect` and read
back through `rsect`, block by block; a read past the end of the image file fails and `mkfs`
exits, as does a failed `assert`.  Both are `none` here.

The counters are `uint`s; they stay far below `2^32` in every run, so they are naturals here.
-/

namespace Xv6Lab

open Function Bytes

/-- `DIRSIZ`. -/
def DIRSIZ : ℕ := 14

/-- The state of `mkfs`: the image file (its blocks and its length in blocks) and the counters
`freeinode` and `freeblock`. -/
structure Mkfs where
  disk : Disk
  len : ℕ
  freeinode : ℕ
  freeblock : ℕ

namespace Mkfs

/-- `wsect(sec, buf)`: write block `sec`, growing the image file to cover it. -/
def wsect (m : Mkfs) (sec : ℕ) (buf : Buf) : Mkfs :=
  { m with disk := update m.disk sec buf, len := max m.len (sec + 1) }

/-- `rsect(sec, buf)`: a block past the end of the image file is a short `read`, and `mkfs`
exits. -/
def rsect (m : Mkfs) (sec : ℕ) : Option Buf :=
  if sec < m.len then some (m.disk sec) else none

/-- `winode(inum, ip)`: read the inode's block, store the inode in its slot, write it back. -/
def winode (m : Mkfs) (inum : ℕ) (din : DInode) : Option Mkfs := do
  let buf ← m.rsect (IBLOCK inum)
  pure (m.wsect (IBLOCK inum) (putDInode buf (Disk.slotOf inum) din))

/-- `rinode(inum, ip)`. -/
def rinode (m : Mkfs) (inum : ℕ) : Option DInode := do
  let buf ← m.rsect (IBLOCK inum)
  pure (dinodeAt buf (Disk.slotOf inum))

/-- The inode `ialloc` writes: `bzero(&din)`, then `din.type = xshort(type)`,
`din.nlink = xshort(1)` and `din.size = xint(0)`. -/
def newDInode (type : ℕ) : DInode := ⟨type % 2 ^ 16, 0, 0, 1, 0, fun _ => 0⟩

theorem newDInode_fits (type : ℕ) : (newDInode type).Fits where
  type := Nat.mod_lt _ (Nat.two_pow_pos _)
  major := Nat.two_pow_pos _
  minor := Nat.two_pow_pos _
  nlink := (by decide : 1 < 2 ^ 16)
  size := Nat.two_pow_pos _
  addrs _ := Nat.two_pow_pos _

/-- `ialloc(type)`: inode `freeinode++`, written with `type`, one link and size `0`.  Nothing
compares `freeinode` with the superblock's `NINODES`. -/
def ialloc (m : Mkfs) (type : ℕ) : Option (Mkfs × ℕ) := do
  let inum := m.freeinode
  let m ← { m with freeinode := m.freeinode + 1 }.winode inum (newDInode type)
  pure (m, inum)

/-- The free map `balloc(used)` writes: `buf[i/8] |= 1 << (i%8)` for every `i < used`. -/
def bitmap (used : ℕ) : Buf := (List.range used).foldl setBit zero

/-- `balloc(used)`: `assert(used < BSIZE*8)`, then the free map, written to the bitmap block. -/
def balloc (m : Mkfs) (used : ℕ) : Option Mkfs :=
  if used < BSIZE * 8 then some (m.wsect sb.bmapstart (bitmap used)) else none

/-- `if (xint(din.addrs[k]) == 0) din.addrs[k] = xint(freeblock++)`. -/
def takeAddr (m : Mkfs) (din : DInode) (k : Fin (NDIRECT + 1)) : Mkfs × DInode :=
  if din.addrs k = 0 then
    ({ m with freeblock := m.freeblock + 1 }, { din with addrs := update din.addrs k m.freeblock })
  else (m, din)

/-- The block `x` of `iappend` for file block `fbn` of the inode `din`, allocated if there is
none yet: a direct address, or an entry of the indirect block, which is read, filled and written
back. -/
def blockFor (m : Mkfs) (din : DInode) (fbn : ℕ) : Option (Mkfs × DInode × ℕ) :=
  if h : fbn < NDIRECT then
    let k : Fin (NDIRECT + 1) := ⟨fbn, by omega⟩
    let (m, din) := m.takeAddr din k
    some (m, din, din.addrs k)
  else do
    let (m, din) := m.takeAddr din (Fin.last NDIRECT)
    let ind := din.addrs (Fin.last NDIRECT)
    let indirect ← m.rsect ind
    let o := 4 * (fbn - NDIRECT)
    -- `if (indirect[fbn - NDIRECT] == 0)`: a new block, stored and the indirect block written
    let (m, indirect) := if getLE indirect o 4 = 0 then
        let indirect := setLE indirect o 4 m.freeblock
        (({ m with freeblock := m.freeblock + 1 } : Mkfs).wsect ind indirect, indirect)
      else (m, indirect)
    some (m, din, getLE indirect o 4)

/-- The loop `while (n > 0)` of `iappend`: `n` bytes of `p` appended at offset `off` of the
inode `din`.  Each round copies `n1 ≥ 1` bytes, so `fuel = n` rounds are enough
(`appendLoop_fuel`). -/
def appendLoop : ℕ → Mkfs → DInode → List ℕ → ℕ → ℕ → Option (Mkfs × DInode × ℕ)
  | _, m, din, _, off, 0 => some (m, din, off)
  | 0, _, _, _, _, _ + 1 => none
  | fuel + 1, m, din, p, off, n + 1 => do
    let fbn := off / BSIZE
    -- `assert(fbn < MAXFILE)`
    if MAXFILE ≤ fbn then none else do
    let (m, din, x) ← m.blockFor din fbn
    let n1 := min (n + 1) ((fbn + 1) * BSIZE - off)
    let buf ← m.rsect x
    let m := m.wsect x (place buf (off - fbn * BSIZE) n1 (ofList p))
    appendLoop fuel m din (p.drop n1) (off + n1) (n + 1 - n1)

/-- `iappend(inum, p, n)`. -/
def iappend (m : Mkfs) (inum : ℕ) (p : List ℕ) (n : ℕ) : Option Mkfs := do
  let din ← m.rinode inum
  let (m, din, off) ← appendLoop n m din p din.size n
  m.winode inum { din with size := off }

/-- `struct dirent` with `de.inum = xshort(inum)` and the name copied by `strncpy` into the
zeroed `de.name`. -/
def dirent (inum : ℕ) (name : List ℕ) : List ℕ :=
  [inum % 256, inum / 256 % 256] ++ name.take DIRSIZ ++ List.replicate (DIRSIZ - name.length) 0

/-- `sizeof(struct dirent)`. -/
def DIRENT_SIZE : ℕ := 2 + DIRSIZ

/-- The superblock's bytes, `memmove(buf, &sb, sizeof(sb))` into a zeroed block. -/
def sbBuf : Buf :=
  setLE (setLE (setLE (setLE (setLE (setLE (setLE zero 0 4 sb.size) 4 4 sb.nblocks) 8 4
    sb.ninodes) 12 4 sb.nlog) 16 4 sb.logstart) 20 4 sb.inodestart) 24 4 sb.bmapstart

/-- The chunks `read(fd, buf, sizeof(buf))` returns for a file's contents: `BSIZE` bytes at a
time, the last one shorter. -/
def chunks (contents : List ℕ) : List (List ℕ) :=
  (List.range ((contents.length + BSIZE - 1) / BSIZE)).map fun c =>
    (contents.drop (c * BSIZE)).take BSIZE

/-- One file of the command line, its name and its contents: an inode, a directory entry in
the root, and the contents appended chunk by chunk. -/
def addFile (m : Mkfs) (rootino : ℕ) (file : List ℕ × List ℕ) : Option Mkfs := do
  -- `assert(index(argv[i], '/') == 0)`
  if '/'.toNat ∈ file.1 then none else do
  -- a leading `_` is skipped
  let name := if file.1.head? = some '_'.toNat then file.1.tail else file.1
  let (m, inum) ← m.ialloc T_FILE
  let m ← m.iappend rootino (dirent inum name) DIRENT_SIZE
  (chunks file.2).foldlM (fun m buf => m.iappend inum buf buf.length) m

/-! ### Specifications of the routines -/

@[simp] theorem wsect_disk (m : Mkfs) (sec : ℕ) (buf : Buf) :
    (m.wsect sec buf).disk = update m.disk sec buf := rfl

@[simp] theorem wsect_len (m : Mkfs) (sec : ℕ) (buf : Buf) :
    (m.wsect sec buf).len = max m.len (sec + 1) := rfl

@[simp] theorem wsect_freeinode (m : Mkfs) (sec : ℕ) (buf : Buf) :
    (m.wsect sec buf).freeinode = m.freeinode := rfl

@[simp] theorem wsect_freeblock (m : Mkfs) (sec : ℕ) (buf : Buf) :
    (m.wsect sec buf).freeblock = m.freeblock := rfl

/-- The zeroing loop over a truncated image leaves `n` zero blocks. -/
theorem zero_loop (n a b : ℕ) :
    (List.range n).foldl (fun m i => m.wsect i zero) (⟨fun _ => zero, 0, a, b⟩ : Mkfs) =
      ⟨fun _ => zero, n, a, b⟩ := by
  induction n with
  | zero => rfl
  | succ n ih =>
    rw [List.range_succ, List.foldl_append, ih, List.foldl_cons, List.foldl_nil, wsect]
    have hz : update (fun _ => zero : Disk) n zero = fun _ => zero := update_eq_self n _
    rw [hz, Nat.max_eq_right (Nat.le_succ n)]

theorem rsect_of_lt {m : Mkfs} {sec : ℕ} (h : sec < m.len) : m.rsect sec = some (m.disk sec) :=
  if_pos h

/-- `winode` is `iupdate`'s write of the inode into its slot. -/
theorem winode_of_lt {m : Mkfs} {inum : ℕ} (h : IBLOCK inum < m.len) (din : DInode) :
    m.winode inum din =
      some { m with disk := m.disk.setInode inum din, len := max m.len (IBLOCK inum + 1) } := by
  simp only [winode, rsect_of_lt h]
  rfl

theorem rinode_of_lt {m : Mkfs} {inum : ℕ} (h : IBLOCK inum < m.len) :
    m.rinode inum = some (m.disk.inode inum) := by
  simp only [rinode, rsect_of_lt h]
  rfl

/-- **Spec of `ialloc`**: inode `freeinode` is written with `type`, one link and no blocks. -/
theorem ialloc_of_lt {m : Mkfs} (h : IBLOCK m.freeinode < m.len) (type : ℕ) :
    m.ialloc type =
      some ({ m with disk := m.disk.setInode m.freeinode (newDInode type),
                     len := max m.len (IBLOCK m.freeinode + 1), freeinode := m.freeinode + 1 },
        m.freeinode) := by
  simp only [ialloc, winode_of_lt (m := { m with freeinode := m.freeinode + 1 }) h]
  rfl

theorem takeAddr_of_eq_zero (m : Mkfs) {din : DInode} {k : Fin (NDIRECT + 1)}
    (h : din.addrs k = 0) : m.takeAddr din k =
      ({ m with freeblock := m.freeblock + 1 }, { din with addrs := update din.addrs k m.freeblock }) :=
  if_pos h

theorem takeAddr_of_ne_zero (m : Mkfs) {din : DInode} {k : Fin (NDIRECT + 1)}
    (h : din.addrs k ≠ 0) : m.takeAddr din k = (m, din) :=
  if_neg h

theorem blockFor_of_lt (m : Mkfs) (din : DInode) {fbn : ℕ} (h : fbn < NDIRECT) :
    m.blockFor din fbn = some ((m.takeAddr din ⟨fbn, by omega⟩).1,
      (m.takeAddr din ⟨fbn, by omega⟩).2, (m.takeAddr din ⟨fbn, by omega⟩).2.addrs ⟨fbn, by omega⟩) := by
  simp only [blockFor, dif_pos h]

/-- A file block past the direct ones whose entry in the indirect block is already set: the
indirect block is loaded (allocated if need be) and nothing more is allocated. -/
theorem blockFor_of_entry_ne_zero (m : Mkfs) (din : DInode) {fbn : ℕ} (h : NDIRECT ≤ fbn)
    (hind : (m.takeAddr din (Fin.last NDIRECT)).2.addrs (Fin.last NDIRECT) <
      (m.takeAddr din (Fin.last NDIRECT)).1.len)
    (hent : getLE ((m.takeAddr din (Fin.last NDIRECT)).1.disk
      ((m.takeAddr din (Fin.last NDIRECT)).2.addrs (Fin.last NDIRECT))) (4 * (fbn - NDIRECT)) 4 ≠ 0) :
    m.blockFor din fbn = some ((m.takeAddr din (Fin.last NDIRECT)).1,
      (m.takeAddr din (Fin.last NDIRECT)).2,
      getLE ((m.takeAddr din (Fin.last NDIRECT)).1.disk
        ((m.takeAddr din (Fin.last NDIRECT)).2.addrs (Fin.last NDIRECT))) (4 * (fbn - NDIRECT)) 4) := by
  simp only [blockFor, dif_neg (Nat.not_lt.mpr h), Option.bind_eq_bind, rsect_of_lt hind,
    Option.bind_some, if_neg hent]

/-- **One round of `iappend`'s loop** appends all of `p` when it fits in the rest of the block at
`off`. -/
theorem appendLoop_single {m m1 : Mkfs} {din din1 : DInode} {p : List ℕ} {off n x : ℕ}
    (fuel : ℕ) (hn : 0 < n) (hfit : off % BSIZE + n ≤ BSIZE) (hmax : off / BSIZE < MAXFILE)
    (hb : m.blockFor din (off / BSIZE) = some (m1, din1, x)) (hx : x < m1.len) :
    appendLoop (fuel + 1) m din p off n =
      some (m1.wsect x (place (m1.disk x) (off % BSIZE) n (ofList p)), din1, off + n) := by
  obtain ⟨n, rfl⟩ : ∃ n', n = n' + 1 := ⟨n - 1, by omega⟩
  have hn1 : min (n + 1) ((off / BSIZE + 1) * BSIZE - off) = n + 1 := by
    simp only [BSIZE] at hfit ⊢
    omega
  have hoff : off - off / BSIZE * BSIZE = off % BSIZE := by
    simp only [BSIZE]
    omega
  simp only [appendLoop, if_neg (Nat.not_le.mpr hmax), hb, Option.bind_eq_bind, Option.bind_some,
    hn1, rsect_of_lt hx, hoff, Nat.sub_self]

/-- **`n` rounds are enough**: with fuel for `n` rounds, more fuel changes nothing, since every
round copies at least one byte. -/
theorem appendLoop_fuel (fuel : ℕ) :
    ∀ (m : Mkfs) (din : DInode) (p : List ℕ) (off n : ℕ), n ≤ fuel →
      appendLoop (fuel + 1) m din p off n = appendLoop fuel m din p off n := by
  induction fuel with
  | zero =>
    intro m din p off n hn
    rw [Nat.le_zero.mp hn]
    rfl
  | succ fuel ih =>
    intro m din p off n hn
    cases n with
    | zero => rfl
    | succ n =>
      simp only [appendLoop]
      congr 1
      congr 1
      funext r
      congr 1
      funext buf
      -- the round copies `n1 ≥ 1` bytes, so the rest fits in `fuel` rounds
      refine ih _ _ _ _ _ ?_
      have hpos : off < (off / BSIZE + 1) * BSIZE := by
        simp only [BSIZE]
        omega
      omega

/-- **Spec of `iappend` for one round**: the bytes land in the block `blockFor` gives, and the
inode is written back with the new size. -/
theorem iappend_single {m m1 : Mkfs} {din1 : DInode} {inum : ℕ} {p : List ℕ} {n x : ℕ}
    (hI : IBLOCK inum < m.len) (hn : 0 < n)
    (hfit : (m.disk.inode inum).size % BSIZE + n ≤ BSIZE)
    (hmax : (m.disk.inode inum).size / BSIZE < MAXFILE)
    (hb : m.blockFor (m.disk.inode inum) ((m.disk.inode inum).size / BSIZE) = some (m1, din1, x))
    (hx : x < m1.len) :
    m.iappend inum p n =
      (m1.wsect x (place (m1.disk x) ((m.disk.inode inum).size % BSIZE) n (ofList p))).winode inum
        { din1 with size := (m.disk.inode inum).size + n } := by
  obtain ⟨n', rfl⟩ : ∃ n', n = n' + 1 := ⟨n - 1, by omega⟩
  simp only [iappend, rinode_of_lt hI, Option.bind_eq_bind, Option.bind_some,
    appendLoop_single n' hn hfit hmax hb hx]

end Mkfs

/-- `mkfs fs.img files...` for the files' names and contents: the image it writes. -/
def mkfs (files : List (List ℕ × List ℕ)) : Option Mkfs := do
  -- the image file is truncated, then `wsect(i, zeroes)` for every block
  let m := (List.range FSSIZE).foldl (fun m i => m.wsect i zero)
    (⟨fun _ => zero, 0, 1, nmeta⟩ : Mkfs)
  let m := m.wsect 1 Mkfs.sbBuf
  let (m, rootino) ← m.ialloc T_DIR
  -- `assert(rootino == ROOTINO)`
  if rootino ≠ ROOTINO then none else do
  let m ← m.iappend rootino (Mkfs.dirent rootino ['.'.toNat]) Mkfs.DIRENT_SIZE
  let m ← m.iappend rootino (Mkfs.dirent rootino ['.'.toNat, '.'.toNat]) Mkfs.DIRENT_SIZE
  let m ← files.foldlM (fun m file => m.addFile rootino file) m
  -- fix the size of the root directory: the next multiple of `BSIZE`
  let din ← m.rinode rootino
  let m ← m.winode rootino { din with size := (din.size / BSIZE + 1) * BSIZE }
  m.balloc m.freeblock

end Xv6Lab
