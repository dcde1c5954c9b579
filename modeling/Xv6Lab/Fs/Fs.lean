import Xv6Lab.Fs.Layout
import Xv6Lab.Kernel.Basic
import Xv6Lab.Lib.Scan
import Xv6Lab.Lib.Run

/-!
# The block and inode layers of `fs.c`

The routines of `fs.c` that allocate, map and free disk blocks, over a `Disk`: `balloc`,
`bfree`, `bzero`, `ialloc`, `bmap`, `itrunc`, `iput` and `writei`.  A panic, and the IDE
driver's panic on a block past the disk (`bread`), is an `Except.error`.

The inode cache is write-through here: a change to an in-memory inode is on the disk at once
(`Disk.setInode`), where the kernel writes it with its next `iupdate`.  Until then the in-memory
inode is the newer copy, and every routine below reads and writes that copy.

`FsOp` and `fsStep` run these routines one after another, as the system calls do under the
inode locks and the buffer locks they take.
-/

namespace Xv6Lab

open Function Bytes Scan Run

/-- `CONSOLE`: the one device with a `devsw` entry. -/
def CONSOLE : ℕ := 1

namespace Disk

/-- `bread(dev, b)`: `idestart` panics on a block past the disk. -/
def bread (d : Disk) (b : ℕ) : Except Crash Buf :=
  if b < FSSIZE then .ok (d b) else .error (.panic "incorrect blockno")

theorem bread_eq_ok {d : Disk} {b : ℕ} {buf : Buf} : d.bread b = .ok buf ↔ b < FSSIZE ∧ d b = buf := by
  unfold bread
  split
  · simp_all
  · simp_all

/-- `bzero(dev, bno)`: the block read, cleared and logged. -/
def bzero (d : Disk) (b : ℕ) : Except Crash Disk := do
  let _ ← d.bread b
  pure (update d b zero)

theorem bzero_eq_ok {d d' : Disk} {b : ℕ} : d.bzero b = .ok d' ↔ b < FSSIZE ∧ update d b zero = d' := by
  simp only [bzero, except_bind_eq_ok, bread_eq_ok]
  constructor
  · rintro ⟨_, ⟨hb, -⟩, h⟩
    exact ⟨hb, Except.ok.inj h⟩
  · rintro ⟨hb, rfl⟩
    exact ⟨d b, ⟨hb, rfl⟩, rfl⟩

/-- `bp->data[bi/8] |= m` on the bitmap block of `b`. -/
def markUsed (d : Disk) (b : ℕ) : Disk :=
  update d (BBLOCK b) (setBit (d (BBLOCK b)) (b % BPB))

/-- `bp->data[bi/8] &= ~m` on the bitmap block of `b`. -/
def markFree (d : Disk) (b : ℕ) : Disk :=
  update d (BBLOCK b) (clearBit (d (BBLOCK b)) (b % BPB))

theorem markUsed_of_ne (d : Disk) {b x : ℕ} (hx : x ≠ BBLOCK b) : d.markUsed b x = d x :=
  update_of_ne hx _ _

theorem markFree_of_ne (d : Disk) {b x : ℕ} (hx : x ≠ BBLOCK b) : d.markFree b x = d x :=
  update_of_ne hx _ _

theorem used_markUsed (d : Disk) {b c : ℕ} (hb : b < FSSIZE) (hc : c < FSSIZE) :
    (d.markUsed b).used c = (d.used c || decide (c = b)) := by
  obtain ⟨hbb, hbm⟩ := BBLOCK_of_lt hb
  obtain ⟨hcb, hcm⟩ := BBLOCK_of_lt hc
  simp only [used, markUsed, hbb, hcb, hbm, hcm, update_self, bit_setBit]

theorem used_markFree (d : Disk) {b c : ℕ} (hb : b < FSSIZE) (hc : c < FSSIZE) :
    (d.markFree b).used c = (d.used c && !decide (c = b)) := by
  obtain ⟨hbb, hbm⟩ := BBLOCK_of_lt hb
  obtain ⟨hcb, hcm⟩ := BBLOCK_of_lt hc
  simp only [used, markFree, hbb, hcb, hbm, hcm, update_self, bit_clearBit]

/-- `balloc(dev)`.  Its loops `for (b = 0; b < sb.size; b += BPB)` and
`for (bi = 0; bi < BPB && b + bi < sb.size; bi++)` test the blocks `0, 1, …, sb.size - 1` in
turn, each bit in its bitmap block; the first free block is marked, then zeroed. -/
def balloc (d : Disk) : Except Crash (Disk × ℕ) :=
  match firstIdx sb.size fun b => !d.used b with
  | some b => do
    let d ← (d.markUsed b.val).bzero b.val
    pure (d, b.val)
  | none => .error (.panic "balloc: out of blocks")

/-- **Spec of `balloc`**: the block it returns is the first one the free map shows free; it is
marked and zeroed, and nothing else changes. -/
theorem balloc_eq_ok {d d' : Disk} {b : ℕ} (h : d.balloc = .ok (d', b)) :
    b < FSSIZE ∧ d.used b = false ∧ (∀ c < b, d.used c = true) ∧
      d' = update (d.markUsed b) b zero := by
  unfold balloc at h
  split at h
  · rename_i c hc
    obtain ⟨hfree, hmin⟩ := (firstIdx_eq_some_iff _ c).mp hc
    obtain ⟨d1, h1, h2⟩ := except_bind_eq_ok.mp h
    obtain ⟨-, rfl⟩ := bzero_eq_ok.mp h1
    cases h2
    refine ⟨c.isLt, by simpa using hfree, fun x hx => ?_, rfl⟩
    simpa using hmin ⟨x, by omega⟩ hx
  · cases h

theorem balloc_self {d d' : Disk} {b : ℕ} (h : d.balloc = .ok (d', b)) : d' b = zero := by
  obtain ⟨-, -, -, rfl⟩ := balloc_eq_ok h
  exact update_self _ _ _

/-- `balloc` writes the block it returns and the bitmap, nothing else. -/
theorem balloc_of_ne {d d' : Disk} {b x : ℕ} (h : d.balloc = .ok (d', b)) (hxb : x ≠ b)
    (hx : x ≠ sb.bmapstart) : d' x = d x := by
  obtain ⟨hlt, -, -, rfl⟩ := balloc_eq_ok h
  rw [update_of_ne hxb, markUsed_of_ne d (by rw [(BBLOCK_of_lt hlt).1]; exact hx)]

/-- `bfree(dev, b)`. -/
def bfree (d : Disk) (b : ℕ) : Except Crash Disk := do
  let _ ← d.bread (BBLOCK b)
  if d.used b then pure (d.markFree b) else .error (.panic "freeing free block")

theorem bfree_eq_ok {d d' : Disk} {b : ℕ} :
    d.bfree b = .ok d' ↔ BBLOCK b < FSSIZE ∧ d.used b = true ∧ d.markFree b = d' := by
  unfold bfree
  by_cases hu : d.used b = true
  · simp only [hu, if_true, except_bind_eq_ok, bread_eq_ok, true_and]
    constructor
    · rintro ⟨_, ⟨hb, -⟩, h⟩
      exact ⟨hb, Except.ok.inj h⟩
    · rintro ⟨hb, rfl⟩
      exact ⟨_, ⟨hb, rfl⟩, rfl⟩
  · simp only [hu, Bool.false_eq_true, if_false, false_and, and_false, iff_false,
      except_bind_eq_ok, not_exists, not_and]
    intro _ _ h
    cases h

/-- `memset(dip, 0, sizeof(*dip)); dip->type = type`. -/
def freshInode (type : ℕ) : DInode := ⟨type % 2 ^ 16, 0, 0, 0, 0, fun _ => 0⟩

theorem freshInode_fits (type : ℕ) : (freshInode type).Fits where
  type := Nat.mod_lt _ (by omega)
  major := by simp [freshInode]
  minor := by simp [freshInode]
  nlink := by simp [freshInode]
  size := by simp [freshInode]
  addrs _ := by simp [freshInode]

/-- `ialloc(dev, type)`: the first inode from `1` to `sb.ninodes - 1` whose type is `0`. -/
def ialloc (d : Disk) (type : ℕ) : Except Crash (Disk × ℕ) :=
  match firstIdx (sb.ninodes - 1) fun i => (d.inode (i.val + 1)).type == 0 with
  | some i => .ok (d.setInode (i.val + 1) (freshInode type), i.val + 1)
  | none => .error (.panic "ialloc: no inodes")

/-- **Spec of `ialloc`**: the inode it returns is one of the superblock's, other than `0`, and
was free; it is overwritten with a fresh inode. -/
theorem ialloc_eq_ok {d d' : Disk} {type i : ℕ} (h : d.ialloc type = .ok (d', i)) :
    0 < i ∧ i < NINODES ∧ (d.inode i).type = 0 ∧ d.setInode i (freshInode type) = d' := by
  unfold ialloc at h
  split at h
  · rename_i c hc
    have hfree := firstIdx_spec hc
    cases h
    have hc' := c.isLt
    simp only [sb] at hc'
    exact ⟨by omega, by omega, by simpa using hfree, rfl⟩
  · cases h

/-- `ip->addrs[k] = a`, written through. -/
def setAddr (d : Disk) (i : ℕ) (k : Fin (NDIRECT + 1)) (a : ℕ) : Disk :=
  d.setInode i { d.inode i with addrs := update (d.inode i).addrs k a }

theorem setAddr_fits (d : Disk) (i : ℕ) (k : Fin (NDIRECT + 1)) {a : ℕ} (ha : a < 2 ^ 32) :
    ({ d.inode i with addrs := update (d.inode i).addrs k a } : DInode).Fits := by
  have h : (d.inode i).Fits := dinodeAt_fits _ _
  refine ⟨h.type, h.major, h.minor, h.nlink, h.size, fun k' => ?_⟩
  by_cases hk : k' = k
  · subst hk
    simpa using ha
  · simpa [update_of_ne hk] using h.addrs k'

/-- `if ((addr = ip->addrs[k]) == 0) ip->addrs[k] = addr = balloc(ip->dev)`: address `k` of
inode `i`, allocated if it is `0`. -/
def allocAddr (d : Disk) (i : ℕ) (k : Fin (NDIRECT + 1)) : Except Crash (Disk × ℕ) :=
  if (d.inode i).addrs k = 0 then do
    let (d, a) ← d.balloc
    pure (d.setAddr i k a, a)
  else pure (d, (d.inode i).addrs k)

theorem allocAddr_eq_ok {d d' : Disk} {i a : ℕ} {k : Fin (NDIRECT + 1)}
    (h : d.allocAddr i k = .ok (d', a)) :
    ((d.inode i).addrs k ≠ 0 ∧ d' = d ∧ a = (d.inode i).addrs k) ∨
      ((d.inode i).addrs k = 0 ∧ ∃ d0, d.balloc = .ok (d0, a) ∧ d' = d0.setAddr i k a) := by
  unfold allocAddr at h
  split at h
  · rename_i hz
    obtain ⟨⟨d0, a0⟩, h1, h2⟩ := except_bind_eq_ok.mp h
    cases h2
    exact .inr ⟨hz, d0, h1, rfl⟩
  · rename_i hz
    cases h
    exact .inl ⟨hz, rfl, rfl⟩

/-- `bmap(ip, bn)` for inode `i`: the block holding block `bn` of the file, allocated if there is
none yet. -/
def bmap (d : Disk) (i bn : ℕ) : Except Crash (Disk × ℕ) :=
  if h : bn < NDIRECT then d.allocAddr i ⟨bn, Nat.lt_succ_of_lt h⟩
  else if bn - NDIRECT < NINDIRECT then do
    -- load the indirect block, allocating it if necessary
    let (d, ind) ← d.allocAddr i (Fin.last NDIRECT)
    let buf ← d.bread ind
    let addr := getLE buf (4 * (bn - NDIRECT)) 4
    if addr = 0 then do
      let (d, a) ← d.balloc
      -- `a[bn] = addr; log_write(bp)` into the buffer read before the allocation
      pure (update d ind (setLE buf (4 * (bn - NDIRECT)) 4 a), a)
    else pure (d, addr)
  else .error (.panic "bmap: out of range")

/-- **Inversion of `bmap`**: a direct block is `allocAddr`'s; an indirect one is an entry of the
indirect block `ind`, loaded by `allocAddr` and allocated into it if it was `0`. -/
theorem bmap_eq_ok {d d' : Disk} {i bn b : ℕ} (h : d.bmap i bn = .ok (d', b)) :
    (∃ hbn : bn < NDIRECT, d.allocAddr i ⟨bn, Nat.lt_succ_of_lt hbn⟩ = .ok (d', b)) ∨
    (NDIRECT ≤ bn ∧ bn - NDIRECT < NINDIRECT ∧ ∃ d1 ind,
      d.allocAddr i (Fin.last NDIRECT) = .ok (d1, ind) ∧ ind < FSSIZE ∧
      ((d1.entry ind (bn - NDIRECT) ≠ 0 ∧ d' = d1 ∧ b = d1.entry ind (bn - NDIRECT)) ∨
        (d1.entry ind (bn - NDIRECT) = 0 ∧ ∃ d2, d1.balloc = .ok (d2, b) ∧
          d' = update d2 ind (setLE (d1 ind) (4 * (bn - NDIRECT)) 4 b)))) := by
  unfold bmap at h
  split at h
  · rename_i hbn
    exact .inl ⟨hbn, h⟩
  · rename_i hbn
    split at h
    · rename_i hj
      refine .inr ⟨by omega, hj, ?_⟩
      obtain ⟨⟨d1, ind⟩, h1, h2⟩ := except_bind_eq_ok.mp h
      obtain ⟨buf, h3, h4⟩ := except_bind_eq_ok.mp h2
      obtain ⟨hind, rfl⟩ := bread_eq_ok.mp h3
      refine ⟨d1, ind, h1, hind, ?_⟩
      dsimp only at h4
      split at h4
      · rename_i hz
        obtain ⟨⟨d2, a⟩, h5, h6⟩ := except_bind_eq_ok.mp h4
        cases h6
        exact .inr ⟨hz, d2, h5, rfl⟩
      · rename_i hz
        cases h4
        exact .inl ⟨hz, rfl, rfl⟩
    · cases h

/-- The first loop of `itrunc`: every direct block freed and its address cleared. -/
def itruncDirect (d : Disk) (i : ℕ) : List (Fin NDIRECT) → Except Crash Disk
  | [] => .ok d
  | k :: ks => do
    let a := (d.inode i).addrs k.castSucc
    let d ← if a ≠ 0 then do
        let d ← d.bfree a
        pure (d.setAddr i k.castSucc 0)
      else pure d
    itruncDirect d i ks

/-- The loop of `itrunc` over the indirect block `buf`: every nonzero entry freed. -/
def itruncEntries (d : Disk) (buf : Buf) : List ℕ → Except Crash Disk
  | [] => .ok d
  | j :: js => do
    let a := getLE buf (4 * j) 4
    let d ← if a ≠ 0 then d.bfree a else pure d
    itruncEntries d buf js

/-- The loop over an indirect block whose entries are blocks of the disk writes only the free
map, and keeps the bit of every block no nonzero entry names. -/
theorem itruncEntries_frame {d d' : Disk} {buf : Buf} {js : List ℕ}
    (hlt : ∀ j ∈ js, getLE buf (4 * j) 4 < FSSIZE) (h : d.itruncEntries buf js = .ok d') :
    (∀ x, x ≠ sb.bmapstart → d' x = d x) ∧
      ∀ c < FSSIZE, (∀ j ∈ js, getLE buf (4 * j) 4 ≠ 0 → getLE buf (4 * j) 4 ≠ c) →
        d'.used c = d.used c := by
  induction js generalizing d with
  | nil =>
    cases h
    exact ⟨fun _ _ => rfl, fun _ _ _ => rfl⟩
  | cons j js ih =>
    rw [itruncEntries] at h
    -- entry `j` is freed if it is nonzero
    obtain ⟨d1, hstep, h2⟩ : ∃ d1 : Disk, ((∀ x, x ≠ sb.bmapstart → d1 x = d x) ∧ ∀ c < FSSIZE,
        (getLE buf (4 * j) 4 ≠ 0 → getLE buf (4 * j) 4 ≠ c) → d1.used c = d.used c) ∧
        d1.itruncEntries buf js = .ok d' := by
      split at h
      · rename_i hnz
        obtain ⟨d1, h1, h2⟩ := except_bind_eq_ok.mp h
        obtain ⟨-, -, rfl⟩ := bfree_eq_ok.mp h1
        have ha := hlt j List.mem_cons_self
        refine ⟨_, ⟨fun x hx => markFree_of_ne d (by rw [(BBLOCK_of_lt ha).1]; exact hx),
          fun c hc hne => ?_⟩, h2⟩
        rw [used_markFree d ha hc, decide_eq_false (Ne.symm (hne hnz)), Bool.not_false,
          Bool.and_true]
      · exact ⟨d, ⟨fun _ _ => rfl, fun _ _ _ => rfl⟩, h⟩
    obtain ⟨hx, hu⟩ := ih (fun j' hj' => hlt j' (List.mem_cons_of_mem j hj')) h2
    refine ⟨fun x hxb => (hx x hxb).trans (hstep.1 x hxb), fun c hc hne => ?_⟩
    rw [hu c hc fun j' hj' => hne j' (List.mem_cons_of_mem j hj'),
      hstep.2 c hc (hne j List.mem_cons_self)]

/-- `itrunc(ip)` for inode `i`. -/
def itrunc (d : Disk) (i : ℕ) : Except Crash Disk := do
  let d ← d.itruncDirect i (List.finRange NDIRECT)
  let ind := (d.inode i).addrs (Fin.last NDIRECT)
  let d ← if ind ≠ 0 then do
      let buf ← d.bread ind
      let d ← d.itruncEntries buf (List.range NINDIRECT)
      let d ← d.bfree ind
      pure (d.setAddr i (Fin.last NDIRECT) 0)
    else pure d
  -- `ip->size = 0; iupdate(ip)`
  pure (d.setInode i { d.inode i with size := 0 })

/-- `iput(ip)` dropping the last reference to inode `i`: with no link left, the inode is
truncated and freed (`ip->type = 0; iupdate(ip)`). -/
def iput (d : Disk) (i : ℕ) : Except Crash Disk :=
  if (d.inode i).nlink = 0 then do
    let d ← d.itrunc i
    pure (d.setInode i { d.inode i with type := 0 })
  else .ok d

/-- The loop of `writei`: block `off / BSIZE` mapped by `bmap`, `m` bytes of `src` copied into it
at `off % BSIZE`.  The recursion is on the bytes `left`. -/
def writeLoop (d : Disk) (i : ℕ) (src : List ℕ) (off left : ℕ) : Except Crash Disk :=
  if left = 0 then .ok d
  else do
    let (d, b) ← d.bmap i (off / BSIZE)
    let buf ← d.bread b
    let m := min left (BSIZE - off % BSIZE)
    writeLoop (update d b (place buf (off % BSIZE) m (ofList src))) i (src.drop m) (off + m)
      (left - m)
termination_by left
decreasing_by all_goals (simp only [BSIZE]; omega)

/-- `writei(ip, src, off, n)` for inode `i`: the disk after it and its result.  A device's write
goes to `devsw[major].write`, which only the console has, and leaves the disk alone. -/
def writei (d : Disk) (i : ℕ) (src : List ℕ) (off n : ℕ) : Except Crash (Disk × ℤ) :=
  let ip := d.inode i
  if ip.type = T_DEV then .ok (d, if ip.major = CONSOLE then n else -1)
  else if ip.size < off ∨ wrap (off + n) < off then .ok (d, -1)
  else if MAXFILE * BSIZE < off + n then .ok (d, -1)
  else do
    let d ← d.writeLoop i src off n
    -- `if (n > 0 && off > ip->size) { ip->size = off; iupdate(ip); }`
    let d := if 0 < n ∧ ip.size < off + n then d.setInode i { d.inode i with size := off + n }
      else d
    pure (d, n)

/-- The loop of `readi`: block `off / BSIZE` mapped by `bmap` (which allocates a missing block),
`m` bytes of it copied out from `off % BSIZE`.  The recursion is on the bytes `left`. -/
def readLoop (d : Disk) (i : ℕ) (off left : ℕ) : Except Crash (Disk × List ℕ) :=
  if left = 0 then .ok (d, [])
  else do
    let (d, b) ← d.bmap i (off / BSIZE)
    let buf ← d.bread b
    let m := min left (BSIZE - off % BSIZE)
    let (d, rest) ← readLoop d i (off + m) (left - m)
    pure (d, (List.range m).map (fun k => buf (off % BSIZE + k)) ++ rest)
termination_by left
decreasing_by all_goals (simp only [BSIZE]; omega)

/-- `readi(ip, dst, off, n)` for inode `i`: the disk after it, its result and the bytes it copies
to `dst`.  A device's read goes to `devsw[major].read`, which only the console has;
`consoleRead` is what the console's returns, which this model of the disk does not follow. -/
def readi (d : Disk) (i : ℕ) (off n : ℕ) (consoleRead : ℤ × List ℕ) :
    Except Crash (Disk × ℤ × List ℕ) :=
  let ip := d.inode i
  if ip.type = T_DEV then .ok (d, if ip.major = CONSOLE then consoleRead else (-1, []))
  else if ip.size < off ∨ wrap (off + n) < off then .ok (d, -1, [])
  else
    -- `if(off + n > ip->size) n = ip->size - off;`
    let n := if ip.size < wrap (off + n) then ip.size - off else n
    do
      let (d, dst) ← d.readLoop i off n
      pure (d, n, dst)

end Disk

/-- The file-system calls that reach the block layer, on an inode number of the superblock. -/
inductive FsOp where
  /-- `ialloc(dev, type)`, from `create`. -/
  | ialloc (type : ℕ)
  /-- `bmap(ip, bn)` on a locked inode, as `readi` and `writei` call it. -/
  | bmap (i bn : ℕ)
  /-- `writei(ip, src, off, n)` on a locked inode. -/
  | writei (i : ℕ) (src : List ℕ) (off n : ℕ)
  /-- The last `iput` of inode `i`. -/
  | iput (i : ℕ)

/-- `ilock`'s check before `readi` and `writei`: a free inode panics. -/
def ilockType (d : Disk) (i : ℕ) : Except Crash Unit :=
  if (d.inode i).type = 0 then .error (.panic "ilock: no type") else .ok ()

/-- One call: the disk after it, `none` for an inode number past the superblock's or a panic. -/
def fsStep (d : Disk) : FsOp → Option Disk
  | .ialloc type => ((d.ialloc type).map Prod.fst).toOption
  | .bmap i bn =>
    if i < NINODES then ((ilockType d i >>= fun _ => d.bmap i bn).map Prod.fst).toOption
    else none
  | .writei i src off n =>
    if i < NINODES then ((ilockType d i >>= fun _ => d.writei i src off n).map Prod.fst).toOption
    else none
  | .iput i => if i < NINODES then (d.iput i).toOption else none

end Xv6Lab
