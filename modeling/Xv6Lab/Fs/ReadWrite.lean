import Xv6Lab.Fs.BlockOwnership

/-!
# Reading and writing an inode's data (`readi`, `writei`)

`Disk.fileByte d i k` is byte `k` of inode `i`'s data: the byte of block `k / BSIZE` as `bmap`
finds it without allocating (`Disk.blockAddr`), `0` where the block is missing.  Over the
block-ownership invariant (`BlockInv`):

* `Disk.Keeps` — what a `bmap` or a write of a data block keeps: the invariant, every inode's
  type and size, and every block already mapped;
* `BlockInv.bmap_cases` — `bmap` returns the block of `bn`, allocating and zeroing it when it is
  missing, and keeps every file's bytes; it fails only when `balloc` runs out of blocks;
* `BlockInv.writeLoop_cases` / `BlockInv.readLoop_cases` — the loops of `writei` and `readi`,
  byte for byte;
* `rw_round_trip` — `readi` returns `-1` or the bytes asked for, and `writei` writes `src` into
  `[off, off + n)`, keeps every other byte, grows the size to `off + n` and lets a following
  `readi` read `src` back, unless `balloc` runs out of blocks;
* `writei_full_disk` — with no free block left, a write that needs a block panics in `balloc`.
-/

namespace Xv6Lab

open Function Bytes Run Scan Disk

/-- The slot holding block `bn` of a file: a direct address for the first `NDIRECT` blocks, an
entry of the indirect block for the rest. -/
def Slot.ofBlock (bn : Fin MAXFILE) : Slot :=
  if h : bn.val < NDIRECT then .direct ⟨bn, h⟩
  else .entry ⟨bn - NDIRECT, Nat.sub_lt_left_of_lt_add (Nat.le_of_not_lt h) bn.isLt⟩

theorem Slot.ofBlock_ne_indirect (bn : Fin MAXFILE) : Slot.ofBlock bn ≠ .indirect := by
  unfold Slot.ofBlock
  split <;> simp

theorem Slot.ofBlock_inj {a b : Fin MAXFILE} (h : Slot.ofBlock a = Slot.ofBlock b) : a = b := by
  unfold Slot.ofBlock at h
  split at h <;> split at h
  · have := Fin.ext_iff.mp (Slot.direct.inj h)
    exact Fin.ext this
  · cases h
  · cases h
  · have := Fin.ext_iff.mp (Slot.entry.inj h)
    exact Fin.ext (by simp only at this; omega)

theorem Slot.ofBlock_of_lt {bn : Fin MAXFILE} (h : bn.val < NDIRECT) :
    Slot.ofBlock bn = Slot.ofAddr ⟨bn, by omega⟩ := by
  simp [Slot.ofBlock, Slot.ofAddr, h]

/-! ### Chunks

Both loops move `m = min left (BSIZE - off % BSIZE)` bytes at a time: a chunk that ends at the end
of block `off / BSIZE` or at the end of the range. -/

/-- A byte of the chunk from `off` lies in block `off / BSIZE`, at `off % BSIZE` plus its distance
from `off`. -/
theorem chunk_pos {off m k : ℕ} (hm : m ≤ BSIZE - off % BSIZE) (h1 : off ≤ k) (h2 : k < off + m) :
    k / BSIZE = off / BSIZE ∧ k % BSIZE = off % BSIZE + (k - off) := by
  simp only [BSIZE] at *
  omega

/-- `memmove(bp->data + off % BSIZE, src, m)` read at a byte `k` of block `off / BSIZE`. -/
theorem place_chunk (buf src : Buf) {off m k : ℕ} (hk : k / BSIZE = off / BSIZE) :
    place buf (off % BSIZE) m src (k % BSIZE) =
      if off ≤ k ∧ k < off + m then src (k - off) else buf (k % BSIZE) := by
  simp only [BSIZE] at *
  by_cases hc : off ≤ k ∧ k < off + m
  · rw [if_pos hc, place_of_mem (by omega) (by omega)]
    congr 1
    omega
  · rw [if_neg hc]
    by_cases hlt : k < off
    · exact place_of_lt (by omega)
    · exact place_of_ge (by omega)

/-- The values at `[0, n)`, read as a first chunk of `m` and the rest. -/
theorem map_range_split {α : Type*} (f : ℕ → α) {m n : ℕ} (hm : m ≤ n) :
    (List.range m).map f ++ (List.range (n - m)).map (fun k => f (m + k)) =
      (List.range n).map f := by
  obtain ⟨r, rfl⟩ := Nat.exists_eq_add_of_le hm
  rw [Nat.add_sub_cancel_left, List.range_add, List.map_append, List.map_map]
  rfl

theorem ofList_drop (l : List ℕ) (m x : ℕ) : ofList (l.drop m) x = ofList l (m + x) := by
  simp only [ofList, List.getD_eq_getElem?_getD, List.getElem?_drop]

namespace Disk

/-- Block `bn` of inode `i`'s data as `bmap` finds it without allocating: `0` for none. -/
def blockAddr (d : Disk) (i bn : ℕ) : ℕ :=
  if h : bn < MAXFILE then d.slotAddr i (Slot.ofBlock ⟨bn, h⟩) else 0

/-- Byte `k` of inode `i`'s data: `0` in a block that is not there. -/
def fileByte (d : Disk) (i k : ℕ) : ℕ :=
  if d.blockAddr i (k / BSIZE) = 0 then 0 else d (d.blockAddr i (k / BSIZE)) (k % BSIZE)

theorem blockAddr_of_lt {d : Disk} {i bn : ℕ} (h : bn < MAXFILE) :
    d.blockAddr i bn = d.slotAddr i (Slot.ofBlock ⟨bn, h⟩) := dif_pos h

/-- A mapped block sits in the slot of its block number. -/
theorem exists_slot_of_blockAddr {d : Disk} {i bn : ℕ} (hz : d.blockAddr i bn ≠ 0) :
    ∃ hbn : bn < MAXFILE, d.blockAddr i bn = d.slotAddr i (Slot.ofBlock ⟨bn, hbn⟩) := by
  by_cases hbn : bn < MAXFILE
  · exact ⟨hbn, dif_pos hbn⟩
  · exact absurd (dif_neg hbn) hz

/-- The same slots give the same blocks. -/
theorem blockAddr_congr {d d' : Disk} {j : ℕ} (h : ∀ t, d'.slotAddr j t = d.slotAddr j t)
    (bn : ℕ) : d'.blockAddr j bn = d.blockAddr j bn := by
  unfold blockAddr
  split
  · exact h _
  · rfl

/-- A byte of a file whose block is kept, with its contents. -/
theorem fileByte_congr {d d' : Disk} {j k : ℕ}
    (hslot : d'.blockAddr j (k / BSIZE) = d.blockAddr j (k / BSIZE))
    (hblk : d.blockAddr j (k / BSIZE) ≠ 0 →
      d' (d.blockAddr j (k / BSIZE)) = d (d.blockAddr j (k / BSIZE))) :
    d'.fileByte j k = d.fileByte j k := by
  unfold fileByte
  rw [hslot]
  split_ifs with hz
  · rfl
  · rw [hblk hz]

/-- A byte of a mapped block. -/
theorem fileByte_of_blockAddr {d : Disk} {i k b : ℕ} (hb : d.blockAddr i (k / BSIZE) = b)
    (hz : b ≠ 0) : d.fileByte i k = d b (k % BSIZE) := by
  rw [fileByte, hb, if_neg hz]

/-- The bytes the loop of `readi` copies out of block `b`, the block of `off / BSIZE`: the file's
bytes `[off, off + m)`. -/
theorem chunk_bytes {d : Disk} {i off m b : ℕ} (hb : d.blockAddr i (off / BSIZE) = b) (hz : b ≠ 0)
    (hm : m ≤ BSIZE - off % BSIZE) :
    (List.range m).map (fun k => d b (off % BSIZE + k)) =
      (List.range m).map fun k => d.fileByte i (off + k) := by
  refine List.map_congr_left fun k hk => ?_
  have hk := List.mem_range.mp hk
  obtain ⟨hdiv, hmod⟩ := chunk_pos hm (Nat.le_add_right off k) (by omega)
  rw [fileByte_of_blockAddr (hdiv ▸ hb) hz, hmod, Nat.add_sub_cancel_left]

/-- A byte of a file whose missing block is now a zeroed one. -/
theorem fileByte_of_zero {d d' : Disk} {j k : ℕ} (hz : d.blockAddr j (k / BSIZE) = 0)
    (hnew : d' (d'.blockAddr j (k / BSIZE)) = zero) : d'.fileByte j k = d.fileByte j k := by
  unfold fileByte
  rw [hz, if_pos rfl]
  split_ifs
  · rfl
  · rw [hnew]
    rfl

/-- What a `bmap` or a write of a data block keeps of a disk: the block-ownership invariant,
every inode's type and size, and every block already mapped. -/
structure Keeps (d d' : Disk) : Prop where
  inv : BlockInv d'
  type : ∀ j < NINODES, (d'.inode j).type = (d.inode j).type
  size : ∀ j < NINODES, (d'.inode j).size = (d.inode j).size
  mapped : ∀ j < NINODES, ∀ bn, d.blockAddr j bn ≠ 0 → d'.blockAddr j bn = d.blockAddr j bn

theorem Keeps.refl {d : Disk} (h : BlockInv d) : Keeps d d :=
  ⟨h, fun _ _ => rfl, fun _ _ => rfl, fun _ _ _ _ => rfl⟩

theorem Keeps.trans {d₁ d₂ d₃ : Disk} (h₁ : Keeps d₁ d₂) (h₂ : Keeps d₂ d₃) : Keeps d₁ d₃ where
  inv := h₂.inv
  type j hj := (h₂.type j hj).trans (h₁.type j hj)
  size j hj := (h₂.size j hj).trans (h₁.size j hj)
  mapped j hj bn hb := by
    rw [h₂.mapped j hj bn (by rw [h₁.mapped j hj bn hb]; exact hb), h₁.mapped j hj bn hb]

/-- What `writei` leaves: what its loop leaves (`Written`), with inode `i`'s size grown to the end
of the range. -/
structure WriteiPost (d d' : Disk) (i : ℕ) (src : List ℕ) (off n : ℕ) : Prop where
  inv : BlockInv d'
  type : ∀ j < NINODES, (d'.inode j).type = (d.inode j).type
  size : ∀ j < NINODES, (d'.inode j).size =
    if j = i then max (d.inode i).size (off + n) else (d.inode j).size
  bytes : ∀ j < NINODES, ∀ k, d'.fileByte j k =
    if j = i ∧ off ≤ k ∧ k < off + n then ofList src (k - off) else d.fileByte j k
  mapped : ∀ k, off ≤ k → k < off + n → d'.blockAddr i (k / BSIZE) ≠ 0

/-- Every file's bytes are those of `d`. -/
def SameBytes (d d' : Disk) : Prop := ∀ j < NINODES, ∀ k, d'.fileByte j k = d.fileByte j k

theorem SameBytes.trans {d₁ d₂ d₃ : Disk} (h₁ : SameBytes d₁ d₂) (h₂ : SameBytes d₂ d₃) :
    SameBytes d₁ d₃ := fun j hj k => (h₂ j hj k).trans (h₁ j hj k)

/-- What the loop of `writei` leaves: bytes `[off, off + left)` of inode `i` are `src`'s, every
other byte of every file is kept, and every block of the range is mapped. -/
structure Written (d d' : Disk) (i : ℕ) (src : List ℕ) (off left : ℕ) : Prop where
  keeps : Keeps d d'
  bytes : ∀ j < NINODES, ∀ k, d'.fileByte j k =
    if j = i ∧ off ≤ k ∧ k < off + left then ofList src (k - off) else d.fileByte j k
  mapped : ∀ k, off ≤ k → k < off + left → d'.blockAddr i (k / BSIZE) ≠ 0

end Disk

namespace BlockInv

variable {d d' : Disk} {b : ℕ}

/-- A mapped block of a file is a block of the data area. -/
theorem blockAddr_data (h : BlockInv d) {j bn : ℕ} (hj : j < NINODES) (hz : d.blockAddr j bn ≠ 0) :
    nmeta ≤ d.blockAddr j bn ∧ d.blockAddr j bn < FSSIZE := by
  obtain ⟨hbn, hs⟩ := exists_slot_of_blockAddr hz
  rw [hs] at hz ⊢
  exact h.data j hj _ hz

/-- Two mapped blocks of files are one only for the same block of the same file. -/
theorem blockAddr_inj (h : BlockInv d) {j j' bn bn' : ℕ} (hj : j < NINODES) (hj' : j' < NINODES)
    (hz : d.blockAddr j bn ≠ 0) (heq : d.blockAddr j bn = d.blockAddr j' bn') :
    j = j' ∧ bn = bn' := by
  obtain ⟨hbn, hs⟩ := exists_slot_of_blockAddr hz
  obtain ⟨hbn', hs'⟩ := exists_slot_of_blockAddr (heq ▸ hz)
  rw [hs] at hz heq
  rw [hs'] at heq
  obtain ⟨hjj, hst⟩ := h.unique j hj j' hj' _ _ hz heq
  exact ⟨hjj, Fin.ext_iff.mp (Slot.ofBlock_inj hst)⟩

/-- A mapped block of a file is no inode's indirect block. -/
theorem blockAddr_ne_indirect (h : BlockInv d) {j j' bn : ℕ} (hj : j < NINODES)
    (hj' : j' < NINODES) (hz : d.blockAddr j bn ≠ 0) : d.blockAddr j bn ≠ d.slotAddr j' .indirect := by
  obtain ⟨hbn, hs⟩ := exists_slot_of_blockAddr hz
  rw [hs] at hz ⊢
  intro heq
  exact Slot.ofBlock_ne_indirect _ (h.unique j hj j' hj' _ _ hz heq).2

/-- A mapped block of a file is not the block `balloc` hands out. -/
theorem blockAddr_ne_balloc (h : BlockInv d) (hb : d.balloc = .ok (d', b)) {j bn : ℕ}
    (hj : j < NINODES) (hz : d.blockAddr j bn ≠ 0) : d.blockAddr j bn ≠ b := by
  obtain ⟨hbn, hs⟩ := exists_slot_of_blockAddr hz
  rw [hs]
  exact h.balloc_fresh hb hj _

/-- **A write to a data block** that is no inode's indirect block keeps the invariant, every inode
and every mapped block. -/
theorem keeps_update (h : BlockInv d) {x : ℕ} (f : Buf) (hx : nmeta ≤ x)
    (hfree : ∀ j < NINODES, d.slotAddr j .indirect ≠ x) : Keeps d (update d x f) := by
  have hv := sameViews_update f hx hfree
  have hinode : ∀ j < NINODES, Disk.inode (update d x f) j = d.inode j := fun j hj =>
    inode_update_of_ne f (by have := IBLOCK_lt_nmeta hj; omega)
  exact ⟨h.of_sameViews hv, fun j hj => by rw [hinode j hj], fun j hj => by rw [hinode j hj],
    fun j hj bn _ => blockAddr_congr (hv.slotAddr j hj) bn⟩

/-- `balloc` keeps every file: the block it marks and zeroes is in no slot. -/
theorem balloc_keeps (h : BlockInv d) (hb : d.balloc = .ok (d', b)) :
    Keeps d d' ∧ SameBytes d d' := by
  obtain ⟨hlt, -, -, hd'⟩ := balloc_eq_ok hb
  have hge := (h.balloc_data hb).1
  have hinode : ∀ j < NINODES, d'.inode j = d.inode j := fun j hj => by
    have hI := IBLOCK_lt_nmeta hj
    have hB : BBLOCK b ≠ IBLOCK j := by
      rw [(BBLOCK_of_lt hlt).1]
      exact (IBLOCK_lt_bmapstart hj).ne'
    rw [hd', inode_update_of_ne _ (by omega), markUsed, inode_update_of_ne _ hB]
  have hslots : ∀ j < NINODES, ∀ bn, d'.blockAddr j bn = d.blockAddr j bn := fun j hj bn =>
    blockAddr_congr (h.balloc_slotAddr hb hj) bn
  refine ⟨⟨h.balloc hb, fun j hj => by rw [hinode j hj], fun j hj => by rw [hinode j hj],
    fun j hj bn _ => hslots j hj bn⟩, fun j hj k => fileByte_congr (hslots j hj _) fun hz => ?_⟩
  -- a mapped block is neither the new block nor the bitmap
  have hdata := h.blockAddr_data hj hz
  exact balloc_of_ne hb (h.blockAddr_ne_balloc hb hj hz) (by have := bmapstart_lt_nmeta; omega)

/-- The block `allocAddr` stores into `addrs[k]` goes to a block of the data area; `iupdate` writes
inode `i`'s block alone. -/
theorem setAddr_apply_of_ne {d : Disk} {i x a : ℕ} {k : Fin (NDIRECT + 1)} (hx : x ≠ IBLOCK i) :
    d.setAddr i k a x = d x :=
  update_of_ne hx _ _

/-- **`allocAddr` keeps every file**: a block it allocates is zeroed and goes into an empty
address. -/
theorem allocAddr_keeps (h : BlockInv d) {i a : ℕ} {k : Fin (NDIRECT + 1)} (hi : i < NINODES)
    (ha : d.allocAddr i k = .ok (d', a)) : Keeps d d' ∧ SameBytes d d' := by
  rcases allocAddr_eq_ok ha with ⟨-, rfl, -⟩ | ⟨hz, d0, hb, rfl⟩
  · exact ⟨Keeps.refl h, fun _ _ _ => rfl⟩
  have hslots := h.allocAddr_slots hi hz hb
  obtain ⟨hk0, -⟩ := h.balloc_keeps hb
  obtain ⟨hge, hlt⟩ := h.balloc_data hb
  have hfits := setAddr_fits d0 i k (a := a) (Nat.lt_trans hlt (by decide))
  -- the record of inode `i` changes in `addrs[k]` alone
  have hinode : ∀ j < NINODES, ((d0.setAddr i k a).inode j).type = (d.inode j).type ∧
      ((d0.setAddr i k a).inode j).size = (d.inode j).size := by
    intro j hj
    by_cases hji : j = i
    · subst hji
      rw [setAddr, inode_setInode _ _ hfits]
      exact ⟨hk0.type j hj, hk0.size j hj⟩
    · rw [setAddr, inode_setInode_of_ne _ _ hji]
      exact ⟨hk0.type j hj, hk0.size j hj⟩
  -- a block number whose slot is `addrs[k]` had no block
  have hempty : ∀ bn (hbn : bn < MAXFILE), Slot.ofBlock ⟨bn, hbn⟩ = Slot.ofAddr k →
      d.blockAddr i bn = 0 := fun bn hbn hs => by
    rw [blockAddr_of_lt hbn, hs, slotAddr_ofAddr, hz]
  refine ⟨⟨(h.allocAddr hi ha).1, fun j hj => (hinode j hj).1, fun j hj => (hinode j hj).2,
    fun j hj bn hb' => ?_⟩, fun j hj k' => ?_⟩
  · obtain ⟨hbn, -⟩ := exists_slot_of_blockAddr hb'
    rw [blockAddr_of_lt hbn, blockAddr_of_lt hbn, hslots j hj, if_neg]
    rintro ⟨rfl, hs⟩
    exact hb' (hempty bn hbn hs)
  · by_cases hbn : k' / BSIZE < MAXFILE
    · by_cases hc : j = i ∧ Slot.ofBlock ⟨k' / BSIZE, hbn⟩ = Slot.ofAddr k
      · -- the new block: zeroed, where there was none
        obtain ⟨rfl, hs⟩ := hc
        refine fileByte_of_zero (hempty _ hbn hs) ?_
        rw [blockAddr_of_lt hbn, hslots j hj, if_pos ⟨rfl, hs⟩,
          setAddr_apply_of_ne (by have := IBLOCK_lt_nmeta hi; omega), balloc_self hb]
      · refine fileByte_congr (by rw [blockAddr_of_lt hbn, blockAddr_of_lt hbn, hslots j hj,
          if_neg hc]) fun hz' => ?_
        have hdata := h.blockAddr_data hj hz'
        rw [setAddr_apply_of_ne (by have := IBLOCK_lt_nmeta hi; omega)]
        exact balloc_of_ne hb (h.blockAddr_ne_balloc hb hj hz')
          (by have := bmapstart_lt_nmeta; omega)
    · exact fileByte_congr (by simp [blockAddr, hbn]) fun hz' => absurd (by simp [blockAddr, hbn]) hz'

/-- **Storing a fresh block into an empty entry** of inode `i`'s indirect block `ind` keeps every
file. -/
theorem storeEntry_keeps (h : BlockInv d) {i ind : ℕ} {j : Fin NINDIRECT} {d2 : Disk}
    (hi : i < NINODES) (hind : d.slotAddr i .indirect = ind) (hnz : ind ≠ 0)
    (hzero : d.slotAddr i (.entry j) = 0) (hb : d.balloc = .ok (d2, b)) :
    Keeps d (update d2 ind (setLE (d ind) (4 * j) 4 b)) ∧
      SameBytes d (update d2 ind (setLE (d ind) (4 * j) 4 b)) := by
  have hslots := h.storeEntry_slots (j := j) hi hind hnz hb
  obtain ⟨hk2, -⟩ := h.balloc_keeps hb
  have hdata := h.data i hi .indirect (hind ▸ hnz)
  rw [hind] at hdata
  have hbind : b ≠ ind := fun heq => h.balloc_fresh hb hi .indirect (hind.trans heq.symm)
  have hinode : ∀ j' < NINODES, Disk.inode (update d2 ind (setLE (d ind) (4 * j) 4 b)) j' =
      d2.inode j' := fun j' hj' => inode_update_of_ne _ (by have := IBLOCK_lt_nmeta hj'; omega)
  have hempty : ∀ bn (hbn : bn < MAXFILE), Slot.ofBlock ⟨bn, hbn⟩ = .entry j →
      d.blockAddr i bn = 0 := fun bn hbn hs => by
    rw [blockAddr_of_lt hbn, hs, hzero]
  refine ⟨⟨(h.storeEntry hi hind hnz hb).1, fun j' hj' => by rw [hinode j' hj', hk2.type j' hj'],
    fun j' hj' => by rw [hinode j' hj', hk2.size j' hj'], fun j' hj' bn hb' => ?_⟩,
    fun j' hj' k' => ?_⟩
  · obtain ⟨hbn, -⟩ := exists_slot_of_blockAddr hb'
    rw [blockAddr_of_lt hbn, blockAddr_of_lt hbn, hslots j' hj', if_neg]
    rintro ⟨rfl, hs⟩
    exact hb' (hempty bn hbn hs)
  · by_cases hbn : k' / BSIZE < MAXFILE
    · by_cases hc : j' = i ∧ Slot.ofBlock ⟨k' / BSIZE, hbn⟩ = .entry j
      · obtain ⟨rfl, hs⟩ := hc
        refine fileByte_of_zero (hempty _ hbn hs) ?_
        rw [blockAddr_of_lt hbn, hslots j' hj', if_pos ⟨rfl, hs⟩, update_of_ne hbind,
          balloc_self hb]
      · refine fileByte_congr (by rw [blockAddr_of_lt hbn, blockAddr_of_lt hbn, hslots j' hj',
          if_neg hc]) fun hz' => ?_
        have hx := h.blockAddr_data hj' hz'
        rw [update_of_ne (hind ▸ h.blockAddr_ne_indirect hj' hi hz')]
        exact balloc_of_ne hb (h.blockAddr_ne_balloc hb hj' hz')
          (by have := bmapstart_lt_nmeta; omega)
    · exact fileByte_congr (by simp [blockAddr, hbn]) fun hz' => absurd (by simp [blockAddr, hbn]) hz'

end BlockInv

/-- `balloc` either hands out a block or, with none free, panics. -/
theorem Disk.balloc_cases (d : Disk) :
    d.balloc = .error (.panic "balloc: out of blocks") ∨ ∃ d' b, d.balloc = .ok (d', b) := by
  unfold Disk.balloc
  split
  · rename_i b _
    obtain ⟨d', hz⟩ : ∃ d', (d.markUsed b.val).bzero b.val = .ok d' :=
      ⟨_, bzero_eq_ok.mpr ⟨b.isLt, rfl⟩⟩
    rw [hz]
    exact .inr ⟨d', b.val, rfl⟩
  · exact .inl rfl

/-- `balloc` runs out of blocks exactly when the free map shows every block in use. -/
theorem Disk.balloc_eq_error_iff (d : Disk) :
    d.balloc = .error (.panic "balloc: out of blocks") ↔ ∀ b < FSSIZE, d.used b = true := by
  unfold Disk.balloc
  constructor
  · intro he b hb
    cases hf : firstIdx sb.size (fun b => !d.used b) with
    | none =>
      have := (firstIdx_eq_none_iff _).mp hf ⟨b, hb⟩
      simpa using this
    | some c =>
      rw [hf] at he
      dsimp only at he
      obtain ⟨d', hz⟩ : ∃ d', (d.markUsed c.val).bzero c.val = .ok d' :=
        ⟨_, bzero_eq_ok.mpr ⟨c.isLt, rfl⟩⟩
      rw [hz] at he
      cases he
  · intro hall
    rw [(firstIdx_eq_none_iff _).mpr fun b => by simp [hall b.val b.isLt]]

/-- `allocAddr` either returns an address or panics in `balloc`. -/
theorem Disk.allocAddr_cases (d : Disk) (i : ℕ) (k : Fin (NDIRECT + 1)) :
    d.allocAddr i k = .error (.panic "balloc: out of blocks") ∨
      ∃ d' a, d.allocAddr i k = .ok (d', a) := by
  unfold Disk.allocAddr
  split
  · rcases d.balloc_cases with he | ⟨d0, a, hb⟩
    · rw [he]
      exact .inl rfl
    · rw [hb]
      exact .inr ⟨_, _, rfl⟩
  · exact .inr ⟨_, _, rfl⟩

namespace BlockInv

variable {d : Disk}

/-- **`bmap`** returns the block of `bn`, allocating it when it is missing, and keeps every file;
it fails only when `balloc` runs out of blocks. -/
theorem bmap_cases (h : BlockInv d) {i bn : ℕ} (hi : i < NINODES) (hbn : bn < MAXFILE) :
    d.bmap i bn = .error (.panic "balloc: out of blocks") ∨
      ∃ d' b, d.bmap i bn = .ok (d', b) ∧ Keeps d d' ∧ SameBytes d d' ∧ d'.blockAddr i bn = b ∧
        b ≠ 0 := by
  by_cases hd : bn < NDIRECT
  · -- a direct block
    rw [Disk.bmap, dif_pos hd]
    rcases d.allocAddr_cases i ⟨bn, by omega⟩ with he | ⟨d', a, ha⟩
    · exact .inl he
    obtain ⟨hk, hs⟩ := h.allocAddr_keeps hi ha
    obtain ⟨-, hslot, hnz⟩ := h.allocAddr hi ha
    refine .inr ⟨d', a, ha, hk, hs, ?_, hnz⟩
    rw [blockAddr_of_lt hbn, Slot.ofBlock_of_lt hd]
    exact hslot
  · -- an entry of the indirect block, which is allocated first if missing
    have hj : bn - NDIRECT < NINDIRECT := by simp only [MAXFILE] at hbn; omega
    have hofs : Slot.ofBlock ⟨bn, hbn⟩ = .entry ⟨bn - NDIRECT, hj⟩ := by simp [Slot.ofBlock, hd]
    rw [Disk.bmap, dif_neg hd, if_pos hj]
    rcases d.allocAddr_cases i (Fin.last NDIRECT) with he | ⟨d1, ind, ha⟩
    · rw [he]
      exact .inl rfl
    obtain ⟨hk1, hs1⟩ := h.allocAddr_keeps hi ha
    obtain ⟨hinv1, hslot1, hnz1⟩ := h.allocAddr hi ha
    rw [show Slot.ofAddr (Fin.last NDIRECT) = .indirect from dif_neg (by simp)] at hslot1
    have hlt := (hinv1.data i hi .indirect (hslot1 ▸ hnz1)).2
    rw [hslot1] at hlt
    have hent : d1.slotAddr i (.entry ⟨bn - NDIRECT, hj⟩) = getLE (d1 ind) (4 * (bn - NDIRECT)) 4 := by
      rw [slotAddr_entry, hslot1, if_neg hnz1]
      rfl
    rw [ha, except_ok_bind]
    dsimp only
    rw [bread_eq_ok.mpr ⟨hlt, rfl⟩, except_ok_bind]
    by_cases hz : getLE (d1 ind) (4 * (bn - NDIRECT)) 4 = 0
    · rw [if_pos hz]
      rcases d1.balloc_cases with he | ⟨d2, a, hb⟩
      · rw [he]
        exact .inl rfl
      obtain ⟨hk2, hs2⟩ := hinv1.storeEntry_keeps (j := ⟨bn - NDIRECT, hj⟩) hi hslot1 hnz1
        (hent.trans hz) hb
      obtain ⟨-, hslot2⟩ := hinv1.storeEntry (j := ⟨bn - NDIRECT, hj⟩) hi hslot1 hnz1 hb
      rw [hb, except_ok_bind]
      refine .inr ⟨_, a, rfl, hk1.trans hk2, hs1.trans hs2, ?_, ?_⟩
      · rw [blockAddr_of_lt hbn, hofs]
        exact hslot2
      · have := (hinv1.balloc_data hb).1
        have : 0 < nmeta := by decide
        omega
    · rw [if_neg hz]
      refine .inr ⟨d1, _, rfl, hk1, hs1, ?_, hz⟩
      rw [blockAddr_of_lt hbn, hofs, hent]

/-- **`bmap` of a mapped block** returns it and changes nothing. -/
theorem bmap_of_mapped (h : BlockInv d) {i bn : ℕ} (hi : i < NINODES) (hz : d.blockAddr i bn ≠ 0) :
    d.bmap i bn = .ok (d, d.blockAddr i bn) := by
  obtain ⟨hbn, hs⟩ := exists_slot_of_blockAddr hz
  by_cases hd : bn < NDIRECT
  · rw [hs, Slot.ofBlock_of_lt hd, slotAddr_ofAddr] at hz ⊢
    rw [Disk.bmap, dif_pos hd, Disk.allocAddr, if_neg hz]
    rfl
  · have hj : bn - NDIRECT < NINDIRECT := by simp only [MAXFILE] at hbn; omega
    have hofs : Slot.ofBlock ⟨bn, hbn⟩ = .entry ⟨bn - NDIRECT, hj⟩ := by simp [Slot.ofBlock, hd]
    rw [hs, hofs, slotAddr_entry] at hz ⊢
    have hind : d.slotAddr i .indirect ≠ 0 := fun h0 => hz (by rw [if_pos h0])
    rw [if_neg hind] at hz ⊢
    have hlt := (h.data i hi .indirect hind).2
    -- the source reads the addresses through `ip->addrs`
    have hind' : (d.inode i).addrs (Fin.last NDIRECT) ≠ 0 := hind
    have hlt' : (d.inode i).addrs (Fin.last NDIRECT) < FSSIZE := hlt
    have hz' : getLE (d ((d.inode i).addrs (Fin.last NDIRECT))) (4 * (bn - NDIRECT)) 4 ≠ 0 := hz
    rw [Disk.bmap, dif_neg hd, if_pos hj, Disk.allocAddr, if_neg hind', pure_bind]
    dsimp only
    rw [bread_eq_ok.mpr ⟨hlt', rfl⟩, except_ok_bind, if_neg hz']
    rfl

/-- **Writing block `b` of inode `i`** (`log_write(bp)` after the `memmove`): the bytes of that
block are the new contents, every other byte of every file is kept. -/
theorem write_block (h : BlockInv d) {i bn b : ℕ} (hi : i < NINODES) (hb : d.blockAddr i bn = b)
    (hz : b ≠ 0) (f : Buf) :
    Keeps d (update d b f) ∧ ∀ j < NINODES, ∀ k, Disk.fileByte (update d b f) j k =
      if j = i ∧ k / BSIZE = bn then f (k % BSIZE) else d.fileByte j k := by
  subst hb
  have hdata := h.blockAddr_data hi hz
  have hfree : ∀ j < NINODES, d.slotAddr j .indirect ≠ d.blockAddr i bn := fun j hj heq =>
    h.blockAddr_ne_indirect hi hj hz heq.symm
  have hslot : ∀ j < NINODES, ∀ bn',
      Disk.blockAddr (update d (d.blockAddr i bn) f) j bn' = d.blockAddr j bn' := fun j hj =>
    blockAddr_congr ((sameViews_update f hdata.1 hfree).slotAddr j hj)
  refine ⟨h.keeps_update f hdata.1 hfree, fun j hj k => ?_⟩
  split_ifs with hc
  · obtain ⟨rfl, hk⟩ := hc
    rw [fileByte_of_blockAddr (by rw [hslot j hj, hk]) hz, update_self]
  · refine fileByte_congr (hslot j hj _) fun hz' => update_of_ne (fun heq => hc ?_) _ _
    exact h.blockAddr_inj hj hi hz' heq

/-- **The loop of `writei`** writes `src` into bytes `[off, off + left)` of inode `i`, chunk by
chunk, keeping every other byte; it fails only when `bmap` runs out of blocks. -/
theorem writeLoop_cases (h : BlockInv d) {i : ℕ} (hi : i < NINODES) (src : List ℕ) (off left : ℕ)
    (hend : off + left ≤ MAXFILE * BSIZE) :
    d.writeLoop i src off left = .error (.panic "balloc: out of blocks") ∨
      ∃ d', d.writeLoop i src off left = .ok d' ∧ Written d d' i src off left := by
  induction left using Nat.strong_induction_on generalizing d src off with
  | _ left ih =>
  rw [Disk.writeLoop]
  by_cases hleft : left = 0
  · subst hleft
    refine .inr ⟨d, rfl, Keeps.refl h, fun j _ k => ?_, fun k h1 h2 => absurd h2 (by omega)⟩
    rw [if_neg (by omega)]
  rw [if_neg hleft]
  have hbn : off / BSIZE < MAXFILE := by simp only [BSIZE, MAXFILE] at hend ⊢; omega
  rcases h.bmap_cases hi hbn with he | ⟨d1, b, hb, hk1, hs1, hblk, hnz⟩
  · rw [he]
    exact .inl rfl
  have hlt := (hk1.inv.blockAddr_data hi (hblk ▸ hnz)).2
  rw [hblk] at hlt
  rw [hb, except_ok_bind]
  dsimp only
  rw [bread_eq_ok.mpr ⟨hlt, rfl⟩, except_ok_bind]
  -- the chunk: `m` bytes of block `off / BSIZE`, then the rest of the range
  set m := min left (BSIZE - off % BSIZE) with hm
  have hmle : m ≤ BSIZE - off % BSIZE := min_le_right _ _
  have hm0 : 0 < m := by simp only [BSIZE] at hm ⊢; omega
  obtain ⟨hk2, hbytes2⟩ := hk1.inv.write_block hi hblk hnz (place (d1 b) (off % BSIZE) m (ofList src))
  rcases ih (left - m) (by omega) hk2.inv (src.drop m) (off + m) (by omega) with he | ⟨d', hrun, hw⟩
  · exact .inl he
  refine .inr ⟨d', hrun, hk1.trans (hk2.trans hw.keeps), fun j hj k => ?_, fun k h1 h2 => ?_⟩
  · rw [hw.bytes j hj k, hbytes2 j hj k]
    by_cases hji : j = i
    swap
    · simp only [hji, false_and, if_false]
      exact hs1 j hj k
    subst hji
    by_cases hrest : off + m ≤ k ∧ k < off + left
    · -- written by the rest of the loop
      rw [if_pos ⟨rfl, hrest.1, by omega⟩, if_pos ⟨rfl, by omega, hrest.2⟩, ofList_drop]
      congr 1
      omega
    rw [if_neg fun hc => hrest ⟨hc.2.1, by omega⟩]
    by_cases hdiv : k / BSIZE = off / BSIZE
    · -- block `off / BSIZE`: the chunk, or a byte the `memmove` leaves
      rw [if_pos ⟨rfl, hdiv⟩, place_chunk _ _ hdiv]
      by_cases hchunk : off ≤ k ∧ k < off + m
      · rw [if_pos hchunk, if_pos ⟨rfl, hchunk.1, by omega⟩]
      · rw [if_neg hchunk, if_neg (by omega), ← hs1 j hj k,
          fileByte_of_blockAddr (hdiv ▸ hblk) hnz]
    · -- another block, which holds no byte of the chunk
      have hout : ¬(off ≤ k ∧ k < off + m) := fun hc => hdiv (chunk_pos hmle hc.1 hc.2).1
      rw [if_neg (by omega), if_neg (by omega)]
      exact hs1 j hj k
  · by_cases hk : k < off + m
    · -- block `off / BSIZE`, mapped by `bmap` and kept by the rest of the loop
      have h2 : Disk.blockAddr (update d1 b (place (d1 b) (off % BSIZE) m (ofList src))) i
          (off / BSIZE) = b := by
        rw [hk2.mapped i hi _ (by rw [hblk]; exact hnz), hblk]
      rw [(chunk_pos hmle h1 hk).1, hw.keeps.mapped i hi _ (by rw [h2]; exact hnz), h2]
      exact hnz
    · exact hw.mapped k (by omega) (by omega)

/-- **The loop of `readi`** returns bytes `[off, off + left)` of inode `i`.  `bmap` allocates a
block for a missing one, zeroed, so every file's bytes stay; it fails only when `bmap` runs out of
blocks. -/
theorem readLoop_cases (h : BlockInv d) {i : ℕ} (hi : i < NINODES) (off left : ℕ)
    (hend : off + left ≤ MAXFILE * BSIZE) :
    d.readLoop i off left = .error (.panic "balloc: out of blocks") ∨
      ∃ d', d.readLoop i off left =
          .ok (d', (List.range left).map fun k => d.fileByte i (off + k)) ∧
        Keeps d d' ∧ SameBytes d d' := by
  induction left using Nat.strong_induction_on generalizing d off with
  | _ left ih =>
  rw [Disk.readLoop]
  by_cases hleft : left = 0
  · subst hleft
    exact .inr ⟨d, rfl, Keeps.refl h, fun _ _ _ => rfl⟩
  rw [if_neg hleft]
  have hbn : off / BSIZE < MAXFILE := by simp only [BSIZE, MAXFILE] at hend ⊢; omega
  rcases h.bmap_cases hi hbn with he | ⟨d1, b, hb, hk1, hs1, hblk, hnz⟩
  · rw [he]
    exact .inl rfl
  have hlt := (hk1.inv.blockAddr_data hi (hblk ▸ hnz)).2
  rw [hblk] at hlt
  rw [hb, except_ok_bind]
  dsimp only
  rw [bread_eq_ok.mpr ⟨hlt, rfl⟩, except_ok_bind]
  set m := min left (BSIZE - off % BSIZE) with hm
  have hmle : m ≤ BSIZE - off % BSIZE := min_le_right _ _
  have hm0 : 0 < m := by simp only [BSIZE] at hm ⊢; omega
  rcases ih (left - m) (by omega) hk1.inv (off + m) (by omega) with he | ⟨d', hrun, hk', hs'⟩
  · rw [he]
    exact .inl rfl
  rw [hrun, except_ok_bind]
  refine .inr ⟨d', ?_, hk1.trans hk', hs1.trans hs'⟩
  -- the chunk of block `off / BSIZE`, then the rest, both read from `d1`, whose bytes are `d`'s
  have hread : ∀ k, d1.fileByte i k = d.fileByte i k := hs1 i hi
  rw [chunk_bytes hblk hnz hmle]
  simp only [hread, Nat.add_assoc]
  rw [map_range_split (fun k => d.fileByte i (off + k)) (min_le_left _ _)]
  rfl

/-- **The loop of `readi` over mapped blocks** allocates nothing: it returns the bytes and leaves
the disk as it is. -/
theorem readLoop_mapped (h : BlockInv d) {i : ℕ} (hi : i < NINODES) (off left : ℕ)
    (hmapped : ∀ k, off ≤ k → k < off + left → d.blockAddr i (k / BSIZE) ≠ 0) :
    d.readLoop i off left = .ok (d, (List.range left).map fun k => d.fileByte i (off + k)) := by
  induction left using Nat.strong_induction_on generalizing off with
  | _ left ih =>
  rw [Disk.readLoop]
  by_cases hleft : left = 0
  · subst hleft
    rfl
  rw [if_neg hleft]
  have hnz := hmapped off le_rfl (by omega)
  have hlt := (h.blockAddr_data hi hnz).2
  rw [h.bmap_of_mapped hi hnz, except_ok_bind]
  dsimp only
  rw [bread_eq_ok.mpr ⟨hlt, rfl⟩, except_ok_bind]
  set m := min left (BSIZE - off % BSIZE) with hm
  have hmle : m ≤ BSIZE - off % BSIZE := min_le_right _ _
  have hm0 : 0 < m := by simp only [BSIZE] at hm ⊢; omega
  rw [ih (left - m) (by omega) (off + m) fun k h1 h2 => hmapped k (by omega) (by omega),
    except_ok_bind]
  dsimp only
  rw [chunk_bytes rfl hnz hmle]
  simp only [Nat.add_assoc]
  rw [map_range_split (fun k => d.fileByte i (off + k)) (min_le_left _ _)]
  rfl

/-- **`ip->size = sz; iupdate(ip)`** changes the size of inode `i` alone: every block and every
byte of every file stays. -/
theorem setSize (h : BlockInv d) {i sz : ℕ} (hi : i < NINODES) (hsz : sz < 2 ^ 32) :
    BlockInv (d.setInode i { d.inode i with size := sz }) ∧
      (∀ j < NINODES, ((d.setInode i { d.inode i with size := sz }).inode j).type =
          (d.inode j).type ∧
        ((d.setInode i { d.inode i with size := sz }).inode j).size =
          if j = i then sz else (d.inode j).size) ∧
      SameBytes d (d.setInode i { d.inode i with size := sz }) ∧
      ∀ j < NINODES, ∀ bn, (d.setInode i { d.inode i with size := sz }).blockAddr j bn =
        d.blockAddr j bn := by
  have hfits0 : (d.inode i).Fits := dinodeAt_fits _ _
  have hfits : ({ d.inode i with size := sz } : DInode).Fits :=
    ⟨hfits0.type, hfits0.major, hfits0.minor, hfits0.nlink, hsz, hfits0.addrs⟩
  have hv := h.sameViews_setInode hi hfits rfl
  have hslots : ∀ j < NINODES, ∀ bn, (d.setInode i { d.inode i with size := sz }).blockAddr j bn =
      d.blockAddr j bn := fun j hj => blockAddr_congr (hv.slotAddr j hj)
  refine ⟨h.of_sameViews hv, fun j hj => ?_, fun j hj k => fileByte_congr (hslots j hj _) fun hz => ?_,
    hslots⟩
  · by_cases hji : j = i
    · subst hji
      rw [inode_setInode _ _ hfits, if_pos rfl]
      exact ⟨rfl, rfl⟩
    · rw [inode_setInode_of_ne _ _ hji, if_neg hji]
      exact ⟨rfl, rfl⟩
  · -- a data block is not the block of the inodes
    have hdata := (h.blockAddr_data hj hz).1
    exact update_of_ne (by have := IBLOCK_lt_nmeta hi; omega) _ _

/-- **`writei` of a file or directory** within `MAXFILE` blocks writes `src` into `[off, off + n)`,
keeps every other byte of every file and grows the size to `off + n`; it fails only when `bmap`
runs out of blocks. -/
theorem writei_cases (h : BlockInv d) {i : ℕ} (hi : i < NINODES) (hdev : (d.inode i).type ≠ T_DEV)
    (src : List ℕ) {off n : ℕ} (hoff : off ≤ (d.inode i).size) (hend : off + n ≤ MAXFILE * BSIZE) :
    d.writei i src off n = .error (.panic "balloc: out of blocks") ∨
      ∃ d', d.writei i src off n = .ok (d', n) ∧ WriteiPost d d' i src off n := by
  have hsmall : off + n < 2 ^ 32 := by
    simp only [MAXFILE, NDIRECT, NINDIRECT, BSIZE] at hend
    omega
  have hwrap : wrap (off + n) = off + n := Nat.mod_eq_of_lt hsmall
  rw [Disk.writei]
  dsimp only
  rw [if_neg hdev, if_neg (by rw [hwrap]; omega), if_neg (by omega)]
  rcases h.writeLoop_cases hi src off n hend with he | ⟨d1, hrun, hw⟩
  · rw [he]
    exact .inl rfl
  rw [hrun, except_ok_bind]
  by_cases hgrow : 0 < n ∧ (d.inode i).size < off + n
  · -- the range ends past the file: `ip->size = off + n` and `iupdate`
    rw [if_pos hgrow]
    obtain ⟨hinv, hinode, hbytes, hslots⟩ := hw.keeps.inv.setSize hi hsmall
    refine .inr ⟨_, rfl, ⟨hinv, fun j hj => ?_, fun j hj => ?_, fun j hj k => ?_, fun k h1 h2 => ?_⟩⟩
    · rw [(hinode j hj).1, hw.keeps.type j hj]
    · rw [(hinode j hj).2]
      split_ifs with hji
      · omega
      · exact hw.keeps.size j hj
    · rw [hbytes j hj k, hw.bytes j hj k]
    · rw [hslots i hi]
      exact hw.mapped k h1 h2
  · rw [if_neg hgrow]
    refine .inr ⟨d1, rfl, ⟨hw.keeps.inv, hw.keeps.type, fun j hj => ?_, hw.bytes, hw.mapped⟩⟩
    rw [hw.keeps.size j hj]
    split_ifs with hji
    · subst hji
      omega
    · rfl

/-- **`readi` of a file or directory** from an offset within the file, with no 32-bit wrap, returns
`min n (size - off)` bytes of the file.  `bmap` allocates a block for a missing one, so it fails
when that runs out of blocks. -/
theorem readi_cases (h : BlockInv d) {i : ℕ} (hi : i < NINODES) (hdev : (d.inode i).type ≠ T_DEV)
    (hsize : (d.inode i).size ≤ MAXFILE * BSIZE) {off n : ℕ} (c : ℤ × List ℕ)
    (hoff : off ≤ (d.inode i).size) (hwrap : off + n < UINT) :
    d.readi i off n c = .error (.panic "balloc: out of blocks") ∨
      ∃ d', d.readi i off n c = .ok (d', (min n ((d.inode i).size - off) : ℕ),
          (List.range (min n ((d.inode i).size - off))).map fun k => d.fileByte i (off + k)) ∧
        Keeps d d' ∧ SameBytes d d' := by
  have hw : wrap (off + n) = off + n := Nat.mod_eq_of_lt hwrap
  -- `if(off + n > ip->size) n = ip->size - off`
  have hn : (if (d.inode i).size < off + n then (d.inode i).size - off else n) =
      min n ((d.inode i).size - off) := by
    split_ifs <;> omega
  rw [Disk.readi]
  dsimp only
  rw [if_neg hdev, if_neg (by rw [hw]; omega), hw, hn]
  rcases h.readLoop_cases hi off (min n ((d.inode i).size - off)) (by omega) with
    he | ⟨d', hrun, hk, hs⟩
  · rw [he]
    exact .inl rfl
  · rw [hrun]
    exact .inr ⟨d', rfl, hk, hs⟩

/-- **`readi` of a mapped range within the file** returns its bytes and leaves the disk alone. -/
theorem readi_mapped (h : BlockInv d) {i : ℕ} (hi : i < NINODES) (hdev : (d.inode i).type ≠ T_DEV)
    {off n : ℕ} (c : ℤ × List ℕ) (hend : off + n ≤ (d.inode i).size) (hwrap : off + n < UINT)
    (hmapped : ∀ k, off ≤ k → k < off + n → d.blockAddr i (k / BSIZE) ≠ 0) :
    d.readi i off n c = .ok (d, n, (List.range n).map fun k => d.fileByte i (off + k)) := by
  have hw : wrap (off + n) = off + n := Nat.mod_eq_of_lt hwrap
  rw [Disk.readi]
  dsimp only
  rw [if_neg hdev, if_neg (by rw [hw]; omega), hw, if_neg (by omega),
    h.readLoop_mapped hi off n hmapped]
  rfl

/-- **With every block in use**, `bmap` of a missing block panics in `balloc`. -/
theorem bmap_of_full (h : BlockInv d) {i bn : ℕ} (hi : i < NINODES) (hbn : bn < MAXFILE)
    (hfull : ∀ b < FSSIZE, d.used b = true) (hz : d.blockAddr i bn = 0) :
    d.bmap i bn = .error (.panic "balloc: out of blocks") := by
  have he := (Disk.balloc_eq_error_iff d).mpr hfull
  rw [blockAddr_of_lt hbn] at hz
  by_cases hd : bn < NDIRECT
  · rw [Slot.ofBlock_of_lt hd, slotAddr_ofAddr] at hz
    rw [Disk.bmap, dif_pos hd, Disk.allocAddr, if_pos hz, he]
    rfl
  have hj : bn - NDIRECT < NINDIRECT := by simp only [MAXFILE] at hbn; omega
  have hofs : Slot.ofBlock ⟨bn, hbn⟩ = .entry ⟨bn - NDIRECT, hj⟩ := by simp [Slot.ofBlock, hd]
  rw [hofs, slotAddr_entry] at hz
  rw [Disk.bmap, dif_neg hd, if_pos hj, Disk.allocAddr]
  by_cases hind : d.slotAddr i .indirect = 0
  · -- no indirect block: allocating one runs out
    have hind' : (d.inode i).addrs (Fin.last NDIRECT) = 0 := hind
    rw [if_pos hind', he]
    rfl
  · -- an indirect block whose entry is `0`: allocating the data block runs out
    rw [if_neg hind] at hz
    have hlt : (d.inode i).addrs (Fin.last NDIRECT) < FSSIZE := (h.data i hi .indirect hind).2
    have hind' : (d.inode i).addrs (Fin.last NDIRECT) ≠ 0 := hind
    have hz' : getLE (d ((d.inode i).addrs (Fin.last NDIRECT))) (4 * (bn - NDIRECT)) 4 = 0 := hz
    rw [if_neg hind', pure_bind]
    dsimp only
    rw [bread_eq_ok.mpr ⟨hlt, rfl⟩, except_ok_bind, if_pos hz', he]
    rfl

/-- **With every block in use**, a write that starts in a missing block of a file panics in
`balloc`. -/
theorem writei_of_full (h : BlockInv d) {i : ℕ} (hi : i < NINODES)
    (hdev : (d.inode i).type ≠ T_DEV) (src : List ℕ) {off n : ℕ} (hoff : off ≤ (d.inode i).size)
    (hend : off + n ≤ MAXFILE * BSIZE) (hn : 0 < n) (hfull : ∀ b < FSSIZE, d.used b = true)
    (hz : d.blockAddr i (off / BSIZE) = 0) :
    d.writei i src off n = .error (.panic "balloc: out of blocks") := by
  have hsmall : off + n < 2 ^ 32 := by
    simp only [MAXFILE, NDIRECT, NINDIRECT, BSIZE] at hend
    omega
  have hbn : off / BSIZE < MAXFILE := by simp only [BSIZE, MAXFILE] at hend ⊢; omega
  have hwrap : wrap (off + n) = off + n := Nat.mod_eq_of_lt hsmall
  rw [Disk.writei]
  dsimp only
  rw [if_neg hdev, if_neg (by rw [hwrap]; omega), if_neg (by omega), Disk.writeLoop,
    if_neg (by omega), h.bmap_of_full hi hbn hfull hz]
  rfl

/-- A disk whose inodes hold no block satisfies the invariant once its free map marks the
metadata blocks. -/
theorem of_no_blocks (hmeta : ∀ b < nmeta, d.used b = true)
    (hnone : ∀ i < NINODES, ∀ k, (d.inode i).addrs k = 0) : BlockInv d := by
  have hzero : ∀ i < NINODES, ∀ s, d.slotAddr i s = 0 := by
    intro i hi s
    cases s with
    | direct k => exact hnone i hi _
    | indirect => exact hnone i hi _
    | entry j => rw [slotAddr_entry, slotAddr_indirect, hnone i hi, if_pos rfl]
  exact ⟨hmeta, fun i hi s hs => absurd (hzero i hi s) hs,
    fun i hi s hs => absurd (hzero i hi s) hs, fun i hi _ _ s _ hs => absurd (hzero i hi s) hs⟩

end BlockInv

/-- **`readi` past the end of a file, or over a range that wraps** in 32 bits, returns `-1`. -/
theorem Disk.readi_out_of_range {d : Disk} {i : ℕ} (hdev : (d.inode i).type ≠ T_DEV)
    (hsize : (d.inode i).size ≤ MAXFILE * BSIZE) {off n : ℕ} (c : ℤ × List ℕ) (hn : n < UINT)
    (hout : (d.inode i).size < off ∨ UINT ≤ off + n) : d.readi i off n c = .ok (d, -1, []) := by
  -- `off + n < off` in 32 bits: with `off` within the file, that is a sum of `2 ^ 32` or more
  have hwrap : (d.inode i).size < off ∨ wrap (off + n) < off := by
    simp only [wrap, UINT, MAXFILE, NDIRECT, NINDIRECT, BSIZE] at hsize hn hout ⊢
    omega
  rw [Disk.readi]
  dsimp only
  rw [if_neg hdev, if_pos hwrap]

/-- A disk with one empty file, inode 1, and the free map `bitmap`; every other block is zero. -/
def fileDisk (bitmap : Buf) : Disk :=
  Disk.setInode (fun b => if b = sb.bmapstart then bitmap else zero) 1 (freshInode T_FILE)

theorem fileDisk_inode_one (bitmap : Buf) : (fileDisk bitmap).inode 1 = freshInode T_FILE :=
  inode_setInode _ _ (freshInode_fits _)

theorem fileDisk_addrs (bitmap : Buf) {j : ℕ} (hj : j < NINODES) (k : Fin (NDIRECT + 1)) :
    ((fileDisk bitmap).inode j).addrs k = 0 := by
  by_cases hj1 : j = 1
  · subst hj1
    rw [fileDisk_inode_one]
    rfl
  · have hb : IBLOCK j ≠ sb.bmapstart := (IBLOCK_lt_bmapstart hj).ne
    rw [fileDisk, inode_setInode_of_ne _ _ hj1]
    simp [Disk.inode, dinodeAt, hb]

theorem fileDisk_used (bitmap : Buf) {b : ℕ} (hb : b < FSSIZE) :
    (fileDisk bitmap).used b = bit bitmap b := by
  obtain ⟨hB, hmod⟩ := BBLOCK_of_lt hb
  rw [fileDisk, used_setInode (by decide), Disk.used, hB, if_pos rfl, hmod]

theorem fileDisk_blockInv {bitmap : Buf} (hmeta : ∀ b < nmeta, bit bitmap b = true) :
    BlockInv (fileDisk bitmap) :=
  BlockInv.of_no_blocks (fun b hb => by rw [fileDisk_used _ (lt_trans hb (by decide))]; exact hmeta b hb)
    fun _ hj k => fileDisk_addrs _ hj k

end Xv6Lab
