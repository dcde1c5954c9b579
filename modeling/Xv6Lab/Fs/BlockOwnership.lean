import Xv6Lab.Fs.Fs

/-!
# Block ownership in the kernel's file system

Every block number an inode of the superblock keeps — in a direct address, in its indirect
address, or in a nonzero entry of its indirect block — is a `Slot` of that inode, and
`Disk.slotAddr d i s` reads it as `bmap` and `itrunc` do.  `BlockInv d` is the ownership
invariant over those slots:

* `meta_used` — the free map marks the metadata blocks, so `balloc` never hands one out;
* `used` — a referenced block is marked in the free map;
* `data` — a referenced block lies in the data area `[nmeta, FSSIZE)`;
* `unique` — a nonzero block number sits in one slot of one inode only.

The results:

* the frame rules (`slotAddr_update`, `sameViews_update`): a write to a block that no slot reads
  through keeps every view;
* the three ways a routine changes the views, each preserving the invariant: only marking blocks
  (`BlockInv.of_sameSlots`), filling one slot with a fresh marked block (`BlockInv.assign`), and
  dropping references (`BlockInv.of_sub`);
* `BlockInv.balloc_fresh` — `balloc` never returns a referenced block;
* one lemma per routine (`BlockInv.allocAddr`, `BlockInv.bmap`, `BlockInv.writeLoop`,
  `BlockInv.itrunc`, `BlockInv.ialloc`, …), and from them `BlockInv.fsStep` and the run lemma
  `BlockInv.reachable`: from a disk with the invariant, every sequence of `ialloc`, `bmap`,
  `writei` and `iput` keeps it.
-/

namespace Xv6Lab

open Function Bytes Run

/-- A place in an inode that holds a block number. -/
inductive Slot where
  /-- `addrs[k]`, `k < NDIRECT`. -/
  | direct (k : Fin NDIRECT)
  /-- `addrs[NDIRECT]`, the indirect block. -/
  | indirect
  /-- Entry `j` of the indirect block. -/
  | entry (j : Fin NINDIRECT)
  deriving DecidableEq

/-- The slot of `addrs[k]`. -/
def Slot.ofAddr (k : Fin (NDIRECT + 1)) : Slot :=
  if h : k.val < NDIRECT then .direct ⟨k, h⟩ else .indirect

/-- The block number in slot `s` of an inode, the entries of its indirect block read from `d`;
with no indirect block every entry reads `0`. -/
def DInode.addrOf (din : DInode) (d : Disk) : Slot → ℕ
  | .direct k => din.addrs k.castSucc
  | .indirect => din.addrs (Fin.last NDIRECT)
  | .entry j =>
    if din.addrs (Fin.last NDIRECT) = 0 then 0 else d.entry (din.addrs (Fin.last NDIRECT)) j

theorem DInode.addrOf_ofAddr (din : DInode) (d : Disk) (k : Fin (NDIRECT + 1)) :
    din.addrOf d (Slot.ofAddr k) = din.addrs k := by
  unfold Slot.ofAddr
  split
  · rfl
  · rename_i hk
    have hlast : k = Fin.last NDIRECT := Fin.ext (by have := k.isLt; simp only [Fin.val_last]; omega)
    rw [hlast]
    rfl

/-- **Frame rule** for a record's slots: a write to a block other than its indirect block. -/
theorem DInode.addrOf_update (din : DInode) {d : Disk} {x : ℕ} (f : Buf)
    (hx : din.addrs (Fin.last NDIRECT) ≠ x) (s : Slot) :
    din.addrOf (update d x f) s = din.addrOf d s := by
  cases s with
  | direct k => rfl
  | indirect => rfl
  | entry j =>
    simp only [addrOf]
    split
    · rfl
    · exact Disk.entry_update_of_ne f (Ne.symm hx) j

/-- Direct and indirect slots are the record's own addresses. -/
theorem DInode.addrOf_congr_addrs {din din' : DInode} (h : din.addrs = din'.addrs) (d : Disk)
    (s : Slot) : din.addrOf d s = din'.addrOf d s := by
  cases s <;> simp only [addrOf, h]

/-- A direct slot. -/
def Slot.isDirect : Slot → Bool
  | .direct _ => true
  | _ => false

/-- Storing `a` into `addrs[k]` changes slot `ofAddr k` alone: for a direct address, or for the
indirect address of an inode that had none, when the new indirect block reads all zero. -/
theorem DInode.addrOf_setAddr (din : DInode) (d : Disk) {k : Fin (NDIRECT + 1)} {a : ℕ}
    (hk : k.val < NDIRECT ∨ (k = Fin.last NDIRECT ∧ din.addrs k = 0 ∧ ∀ j, d.entry a j = 0))
    (s : Slot) :
    ({ din with addrs := update din.addrs k a } : DInode).addrOf d s =
      if s = Slot.ofAddr k then a else din.addrOf d s := by
  rcases hk with hk | ⟨rfl, hz, hblk⟩
  · -- a direct address: the indirect block and its entries are untouched
    have hofs : Slot.ofAddr k = .direct ⟨k, hk⟩ := dif_pos hk
    have hlast : Fin.last NDIRECT ≠ k := fun h => by
      rw [← h, Fin.val_last] at hk
      exact Nat.lt_irrefl _ hk
    rw [hofs]
    cases s with
    | direct k' => simp only [addrOf, update_apply, Slot.direct.injEq, Fin.ext_iff, Fin.val_castSucc]
    | indirect => simp [addrOf, update_of_ne hlast]
    | entry j => simp [addrOf, update_of_ne hlast]
  · -- the indirect address, from `0` to a block whose entries read `0`
    have hofs : Slot.ofAddr (Fin.last NDIRECT) = .indirect := dif_neg (by simp)
    rw [hofs]
    cases s with
    | direct k' => simp [addrOf]
    | indirect => simp [addrOf]
    | entry j =>
      by_cases ha : a = 0
      · simp [addrOf, ha, hz]
      · simp [addrOf, ha, hz, hblk]

/-- Clearing `addrs[NDIRECT]` empties the indirect slot and every entry. -/
theorem DInode.addrOf_clearIndirect (din : DInode) (d : Disk) (s : Slot) :
    ({ din with addrs := update din.addrs (Fin.last NDIRECT) 0 } : DInode).addrOf d s =
      if s.isDirect then din.addrOf d s else 0 := by
  cases s with
  | direct k => simp [addrOf, Slot.isDirect]
  | indirect => simp [addrOf, Slot.isDirect]
  | entry j => simp [addrOf, Slot.isDirect]

namespace Disk

/-- Slot `s` of inode `i`. -/
def slotAddr (d : Disk) (i : ℕ) (s : Slot) : ℕ := (d.inode i).addrOf d s

theorem slotAddr_indirect (d : Disk) (i : ℕ) :
    d.slotAddr i .indirect = (d.inode i).addrs (Fin.last NDIRECT) := rfl

theorem slotAddr_entry (d : Disk) (i : ℕ) (j : Fin NINDIRECT) :
    d.slotAddr i (.entry j) =
      if d.slotAddr i .indirect = 0 then 0 else d.entry (d.slotAddr i .indirect) j := rfl

theorem slotAddr_ofAddr (d : Disk) (i : ℕ) (k : Fin (NDIRECT + 1)) :
    d.slotAddr i (Slot.ofAddr k) = (d.inode i).addrs k :=
  DInode.addrOf_ofAddr _ _ k

/-- **Frame rule**: a write to a block that is neither inode `i`'s block nor its indirect block
keeps its slots. -/
theorem slotAddr_update {d : Disk} {x i : ℕ} (f : Buf) (hI : x ≠ IBLOCK i)
    (hind : d.slotAddr i .indirect ≠ x) (s : Slot) :
    Disk.slotAddr (update d x f) i s = d.slotAddr i s := by
  unfold slotAddr
  rw [inode_update_of_ne f hI]
  exact DInode.addrOf_update _ f hind s

/-- `iupdate` of another inode keeps the slots of inode `j`, unless its block is `j`'s indirect
block. -/
theorem slotAddr_setInode_of_ne {d : Disk} {i j : ℕ} (din : DInode) (hji : j ≠ i)
    (hind : d.slotAddr j .indirect ≠ IBLOCK i) (s : Slot) :
    (d.setInode i din).slotAddr j s = d.slotAddr j s := by
  unfold slotAddr
  rw [inode_setInode_of_ne d din hji]
  exact DInode.addrOf_update _ _ hind s

/-- The slots of the inode `iupdate` wrote are those of the record written. -/
theorem slotAddr_setInode_self {d : Disk} {i : ℕ} {din : DInode} (hfits : din.Fits)
    (hind : din.addrs (Fin.last NDIRECT) ≠ IBLOCK i) (s : Slot) :
    (d.setInode i din).slotAddr i s = din.addrOf d s := by
  unfold slotAddr
  rw [inode_setInode d i hfits]
  exact DInode.addrOf_update _ _ hind s

/-- The slots after `iupdate` of inode `i`, when no inode's indirect block is `i`'s block. -/
theorem slotAddr_setInode {d : Disk} {i : ℕ} {din : DInode} (hfits : din.Fits)
    (hind : din.addrs (Fin.last NDIRECT) ≠ IBLOCK i)
    (hother : ∀ j < NINODES, j ≠ i → d.slotAddr j .indirect ≠ IBLOCK i) {j : ℕ}
    (hj : j < NINODES) (t : Slot) :
    (d.setInode i din).slotAddr j t = if j = i then din.addrOf d t else d.slotAddr j t := by
  by_cases hji : j = i
  · rw [if_pos hji, hji]
    exact slotAddr_setInode_self hfits hind t
  · rw [if_neg hji]
    exact slotAddr_setInode_of_ne din hji (hother j hj hji) t

/-- What the ownership facts read of a disk: the slots of the superblock's inodes and the free
map's bits of the disk's blocks. -/
structure SameViews (d d' : Disk) : Prop where
  slotAddr : ∀ i < NINODES, ∀ s, d'.slotAddr i s = d.slotAddr i s
  used : ∀ b < FSSIZE, d'.used b = d.used b

end Disk

theorem IBLOCK_pos (i : ℕ) : 0 < IBLOCK i :=
  Nat.lt_of_lt_of_le (show 0 < sb.inodestart by decide) (Nat.le_add_left _ _)

theorem IBLOCK_lt_nmeta {i : ℕ} (hi : i < NINODES) : IBLOCK i < nmeta :=
  Nat.lt_of_lt_of_le (IBLOCK_lt_bmapstart hi) (by decide)

theorem bmapstart_lt_nmeta : sb.bmapstart < nmeta := by decide

theorem nmeta_lt_FSSIZE : nmeta < FSSIZE := by decide

open Disk

/-- **Frame rule**: a write to a data-area block that is nobody's indirect block keeps every
view. -/
theorem sameViews_update {d : Disk} {x : ℕ} (f : Buf) (hx : nmeta ≤ x)
    (hfree : ∀ i < NINODES, d.slotAddr i .indirect ≠ x) : SameViews d (update d x f) where
  slotAddr i hi s := slotAddr_update f (by have := IBLOCK_lt_nmeta hi; omega) (hfree i hi) s
  used b hb := used_update_of_ne f (by rw [(BBLOCK_of_lt hb).1]; have := bmapstart_lt_nmeta; omega)

/-- **The block-ownership invariant.** -/
structure BlockInv (d : Disk) : Prop where
  /-- The boot block, superblock, log, inode blocks and bitmap are marked in use. -/
  meta_used : ∀ b < nmeta, d.used b = true
  /-- A referenced block is marked in use. -/
  used : ∀ i < NINODES, ∀ s, d.slotAddr i s ≠ 0 → d.used (d.slotAddr i s) = true
  /-- A referenced block lies in the data area. -/
  data : ∀ i < NINODES, ∀ s, d.slotAddr i s ≠ 0 → nmeta ≤ d.slotAddr i s ∧ d.slotAddr i s < FSSIZE
  /-- No block is referenced from two slots. -/
  unique : ∀ i < NINODES, ∀ j < NINODES, ∀ s t, d.slotAddr i s ≠ 0 →
    d.slotAddr i s = d.slotAddr j t → i = j ∧ s = t

namespace BlockInv

variable {d d' : Disk}

/-- A slot holds `0` or a block of the data area. -/
theorem zero_or_data (h : BlockInv d) {i : ℕ} (hi : i < NINODES) (s : Slot) :
    d.slotAddr i s = 0 ∨ nmeta ≤ d.slotAddr i s := by
  by_cases hz : d.slotAddr i s = 0
  · exact .inl hz
  · exact .inr (h.data i hi s hz).1

/-- No slot holds a metadata block other than `0`. -/
theorem slotAddr_ne_of_lt (h : BlockInv d) {i x : ℕ} (hi : i < NINODES) (hx : 0 < x)
    (hx' : x < nmeta) (s : Slot) : d.slotAddr i s ≠ x := by
  rcases h.zero_or_data hi s with hz | hz <;> omega

theorem slotAddr_ne_IBLOCK (h : BlockInv d) {i j : ℕ} (hi : i < NINODES) (hj : j < NINODES)
    (s : Slot) : d.slotAddr i s ≠ IBLOCK j :=
  h.slotAddr_ne_of_lt hi (IBLOCK_pos j) (IBLOCK_lt_nmeta hj) s

/-- A block the free map shows free is in no slot. -/
theorem slotAddr_ne_of_free (h : BlockInv d) {i b : ℕ} (hi : i < NINODES)
    (hb : d.used b = false) (s : Slot) : d.slotAddr i s ≠ b := by
  intro heq
  by_cases hz : d.slotAddr i s = 0
  · have h0 := h.meta_used 0 (by decide)
    rw [← hz, heq, hb] at h0
    cases h0
  · have hu := h.used i hi s hz
    rw [heq, hb] at hu
    cases hu

/-- **Dropping references**: a disk whose nonzero slots are slots of `d` keeps the invariant
once the metadata blocks and the blocks it still references are marked. -/
theorem of_sub (h : BlockInv d)
    (hslots : ∀ i < NINODES, ∀ s, d'.slotAddr i s ≠ 0 → d'.slotAddr i s = d.slotAddr i s)
    (hmeta : ∀ b < nmeta, d'.used b = true)
    (hused : ∀ i < NINODES, ∀ s, d'.slotAddr i s ≠ 0 → d'.used (d'.slotAddr i s) = true) :
    BlockInv d' where
  meta_used := hmeta
  used := hused
  data i hi s hz := by
    have he := hslots i hi s hz
    rw [he] at hz ⊢
    exact h.data i hi s hz
  unique i hi j hj s t hz heq := by
    have ht : d'.slotAddr j t ≠ 0 := heq ▸ hz
    rw [hslots i hi s hz, hslots j hj t ht] at heq
    rw [hslots i hi s hz] at hz
    exact h.unique i hi j hj s t hz heq

/-- **Only marking blocks**: the same slots and a free map that only gains marks. -/
theorem of_sameSlots (h : BlockInv d) (hslots : ∀ i < NINODES, ∀ s, d'.slotAddr i s = d.slotAddr i s)
    (hused : ∀ b < FSSIZE, d.used b = true → d'.used b = true) : BlockInv d' :=
  h.of_sub (fun i hi s _ => hslots i hi s)
    (fun b hb => hused b (Nat.lt_trans hb nmeta_lt_FSSIZE) (h.meta_used b hb))
    (fun i hi s hz => by
      rw [hslots i hi s] at hz ⊢
      exact hused _ (h.data i hi s hz).2 (h.used i hi s hz))

theorem of_sameViews (h : BlockInv d) (hv : SameViews d d') : BlockInv d' :=
  h.of_sameSlots hv.slotAddr fun b hb hu => by rw [hv.used b hb]; exact hu

/-- **Filling one slot** of inode `i` with a block `a` of the data area that no slot held and
that is now marked. -/
theorem assign (h : BlockInv d) {i a : ℕ} {s : Slot}
    (ha : nmeta ≤ a ∧ a < FSSIZE) (hfresh : ∀ j < NINODES, ∀ t, d.slotAddr j t ≠ a)
    (hslots : ∀ j < NINODES, ∀ t, d'.slotAddr j t = if j = i ∧ t = s then a else d.slotAddr j t)
    (hused : ∀ b < FSSIZE, d.used b = true → d'.used b = true) (ha_used : d'.used a = true) :
    BlockInv d' where
  meta_used b hb := hused b (Nat.lt_trans hb nmeta_lt_FSSIZE) (h.meta_used b hb)
  used j hj t hz := by
    rw [hslots j hj t] at hz ⊢
    split
    · exact ha_used
    · rename_i hjt
      rw [if_neg hjt] at hz
      exact hused _ (h.data j hj t hz).2 (h.used j hj t hz)
  data j hj t hz := by
    rw [hslots j hj t] at hz ⊢
    split
    · exact ha
    · rename_i hjt
      rw [if_neg hjt] at hz
      exact h.data j hj t hz
  unique j hj j' hj' t t' hz heq := by
    rw [hslots j hj t, hslots j' hj' t'] at heq
    rw [hslots j hj t] at hz
    by_cases h1 : j = i ∧ t = s
    · by_cases h2 : j' = i ∧ t' = s
      · exact ⟨h1.1.trans h2.1.symm, h1.2.trans h2.2.symm⟩
      · rw [if_pos h1, if_neg h2] at heq
        exact absurd heq.symm (hfresh j' hj' t')
    · rw [if_neg h1] at hz heq
      by_cases h2 : j' = i ∧ t' = s
      · rw [if_pos h2] at heq
        exact absurd heq (hfresh j hj t)
      · rw [if_neg h2] at heq
        exact h.unique j hj j' hj' t t' hz heq

/-- A write to the bitmap keeps every slot. -/
theorem slotAddr_update_bmap (h : BlockInv d) (f : Buf) {i : ℕ} (hi : i < NINODES) (s : Slot) :
    Disk.slotAddr (update d sb.bmapstart f) i s = d.slotAddr i s :=
  slotAddr_update f (IBLOCK_lt_bmapstart hi).ne'
    (h.slotAddr_ne_of_lt hi (by decide) bmapstart_lt_nmeta _) s

/-- **Emptying slots** of inode `i`: the slots `S` of inode `i` read `0`, every other slot is
kept, and the free map keeps the bit of every block those slots did not hold. -/
theorem erase (h : BlockInv d) {i : ℕ} (hi : i < NINODES) (S : Slot → Prop)
    (hgone : ∀ t, S t → d'.slotAddr i t = 0)
    (hkeep : ∀ j < NINODES, ∀ t, ¬(j = i ∧ S t) → d'.slotAddr j t = d.slotAddr j t)
    (hused : ∀ c < FSSIZE, (∀ t, S t → d.slotAddr i t ≠ 0 → d.slotAddr i t ≠ c) →
      d'.used c = d.used c) : BlockInv d' := by
  -- a slot still nonzero is one that was kept
  have hslots : ∀ j < NINODES, ∀ t, d'.slotAddr j t ≠ 0 → d'.slotAddr j t = d.slotAddr j t := by
    intro j hj t hz
    refine hkeep j hj t fun ⟨hji, ht⟩ => hz ?_
    rw [hji]
    exact hgone t ht
  refine h.of_sub hslots (fun b hb => ?_) (fun j hj t hz => ?_)
  · rw [hused b (Nat.lt_trans hb nmeta_lt_FSSIZE) fun t _ hz => ?_]
    · exact h.meta_used b hb
    · have := (h.data i hi t hz).1
      omega
  · have hz' := hz
    rw [hslots j hj t hz] at hz' ⊢
    rw [hused _ (h.data j hj t hz').2 fun t' ht' hz'' heq => ?_]
    · exact h.used j hj t hz'
    · -- the block of an emptied slot is in no other slot
      obtain ⟨rfl, rfl⟩ := h.unique i hi j hj t' t hz'' heq
      exact hz (hgone t' ht')

/-! ### `balloc` -/

/-- A write to the bitmap block of a block of the disk keeps every slot. -/
theorem slotAddr_update_BBLOCK (h : BlockInv d) {b : ℕ} (hb : b < FSSIZE) (f : Buf) {i : ℕ}
    (hi : i < NINODES) (s : Slot) : Disk.slotAddr (update d (BBLOCK b) f) i s = d.slotAddr i s := by
  rw [(BBLOCK_of_lt hb).1]
  exact h.slotAddr_update_bmap f hi s

variable {b : ℕ}

/-- `balloc` hands out a block of the data area. -/
theorem balloc_data (h : BlockInv d) (hb : d.balloc = .ok (d', b)) : nmeta ≤ b ∧ b < FSSIZE := by
  obtain ⟨hlt, hfree, -, -⟩ := balloc_eq_ok hb
  refine ⟨Nat.le_of_not_lt fun hm => ?_, hlt⟩
  rw [h.meta_used b hm] at hfree
  cases hfree

/-- **`balloc` never returns a referenced block.** -/
theorem balloc_fresh (h : BlockInv d) (hb : d.balloc = .ok (d', b)) {i : ℕ} (hi : i < NINODES)
    (s : Slot) : d.slotAddr i s ≠ b :=
  h.slotAddr_ne_of_free hi (balloc_eq_ok hb).2.1 s

/-- `balloc` keeps every slot. -/
theorem balloc_slotAddr (h : BlockInv d) (hb : d.balloc = .ok (d', b)) {i : ℕ} (hi : i < NINODES)
    (s : Slot) : d'.slotAddr i s = d.slotAddr i s := by
  obtain ⟨hlt, -, -, rfl⟩ := balloc_eq_ok hb
  have hge := (h.balloc_data hb).1
  have hmark : ∀ t, (d.markUsed b).slotAddr i t = d.slotAddr i t :=
    h.slotAddr_update_BBLOCK hlt _ hi
  have hI : b ≠ IBLOCK i := by
    have := IBLOCK_lt_nmeta hi
    omega
  rw [slotAddr_update zero hI (by rw [hmark]; exact h.balloc_fresh hb hi _), hmark]

/-- `balloc` marks the block it returns and keeps every other bit. -/
theorem balloc_used (h : BlockInv d) (hb : d.balloc = .ok (d', b)) {c : ℕ} (hc : c < FSSIZE) :
    d'.used c = (d.used c || decide (c = b)) := by
  obtain ⟨hlt, -, -, rfl⟩ := balloc_eq_ok hb
  have hge := (h.balloc_data hb).1
  have hB : b ≠ BBLOCK c := by
    rw [(BBLOCK_of_lt hc).1]
    have := bmapstart_lt_nmeta
    omega
  rw [used_update_of_ne zero hB, used_markUsed d hlt hc]

theorem balloc (h : BlockInv d) (hb : d.balloc = .ok (d', b)) : BlockInv d' :=
  h.of_sameSlots (fun _ hi s => h.balloc_slotAddr hb hi s) fun c hc hu => by
    rw [h.balloc_used hb hc, hu, Bool.true_or]

/-! ### `bmap` -/

/-- The slots after `allocAddr` stored a fresh block `a` from `balloc` into the empty `addrs[k]`:
slot `ofAddr k` of inode `i` holds `a`, and every other slot is kept. -/
theorem allocAddr_slots (h : BlockInv d) {i a : ℕ} {k : Fin (NDIRECT + 1)} {d0 : Disk}
    (hi : i < NINODES) (hz : (d.inode i).addrs k = 0) (hb : d.balloc = .ok (d0, a)) :
    ∀ j < NINODES, ∀ t, (d0.setAddr i k a).slotAddr j t =
      if j = i ∧ t = Slot.ofAddr k then a else d.slotAddr j t := by
  have h0 := h.balloc hb
  obtain ⟨hge, hlt⟩ := h.balloc_data hb
  have hIa : a ≠ IBLOCK i := by
    have := IBLOCK_lt_nmeta hi
    omega
  have hrec : (update (d0.inode i).addrs k a) (Fin.last NDIRECT) ≠ IBLOCK i := by
    rw [update_apply]
    split
    · exact hIa
    · exact h0.slotAddr_ne_IBLOCK hi hi .indirect
  -- only `addrs[k]` changes; a new indirect block reads all zero
  have hk : k.val < NDIRECT ∨
      (k = Fin.last NDIRECT ∧ (d0.inode i).addrs k = 0 ∧ ∀ j, d0.entry a j = 0) := by
    by_cases hk : k.val < NDIRECT
    · exact .inl hk
    · have hk' : k = Fin.last NDIRECT := Fin.ext (by have := k.isLt; simp only [Fin.val_last]; omega)
      refine .inr ⟨hk', ?_, fun j => ?_⟩
      · rw [← slotAddr_ofAddr, h.balloc_slotAddr hb hi, slotAddr_ofAddr, hz]
      · rw [Disk.entry, balloc_self hb, getLE_zero]
  intro j hj t
  rw [setAddr, slotAddr_setInode (setAddr_fits d0 i k (Nat.lt_trans hlt (by decide))) hrec
    (fun j hj _ => h0.slotAddr_ne_IBLOCK hj hi _) hj]
  by_cases hji : j = i
  · rw [if_pos hji, hji, DInode.addrOf_setAddr _ _ hk t]
    by_cases ht : t = Slot.ofAddr k
    · rw [if_pos ht, if_pos ⟨rfl, ht⟩]
    · rw [if_neg ht, if_neg fun h => ht h.2]
      exact h.balloc_slotAddr hb hi t
  · rw [if_neg hji, if_neg fun h => hji h.1]
    exact h.balloc_slotAddr hb hj t

/-- **`allocAddr` under the invariant**: the address it returns sits in slot `ofAddr k` and is
not `0`. -/
theorem allocAddr (h : BlockInv d) {i a : ℕ} {k : Fin (NDIRECT + 1)} (hi : i < NINODES)
    (ha : d.allocAddr i k = .ok (d', a)) :
    BlockInv d' ∧ d'.slotAddr i (Slot.ofAddr k) = a ∧ a ≠ 0 := by
  rcases allocAddr_eq_ok ha with ⟨hnz, rfl, rfl⟩ | ⟨hz, d0, hb, rfl⟩
  · exact ⟨h, slotAddr_ofAddr _ i k, hnz⟩
  · -- a fresh block from `balloc`, stored into `addrs[k]`
    obtain ⟨hge, hlt⟩ := h.balloc_data hb
    have hslots := h.allocAddr_slots hi hz hb
    refine ⟨h.assign ⟨hge, hlt⟩ (fun j hj t => h.balloc_fresh hb hj t) hslots
      (fun c hc hu => ?_) ?_, ?_, ?_⟩
    · rw [setAddr, used_setInode hi, h.balloc_used hb hc, hu, Bool.true_or]
    · rw [setAddr, used_setInode hi, h.balloc_used hb hlt, decide_eq_true rfl, Bool.or_true]
    · rw [hslots i hi, if_pos ⟨rfl, rfl⟩]
    · exact Nat.ne_of_gt (Nat.lt_of_lt_of_le (by decide) hge)

/-- The slots after a fresh block `b` from `balloc` was stored into entry `j` of inode `i`'s
indirect block `ind`, through the copy of `ind` read before the allocation: that entry holds `b`,
and every other slot is kept. -/
theorem storeEntry_slots (h : BlockInv d) {i ind : ℕ} {j : Fin NINDIRECT} {d2 : Disk}
    (hi : i < NINODES) (hind : d.slotAddr i .indirect = ind) (hnz : ind ≠ 0)
    (hb : d.balloc = .ok (d2, b)) :
    ∀ j' < NINODES, ∀ t, Disk.slotAddr (update d2 ind (setLE (d ind) (4 * j) 4 b)) j' t =
      if j' = i ∧ t = .entry j then b else d.slotAddr j' t := by
  obtain ⟨hge, hlt⟩ := h.balloc_data hb
  have hdata := h.data i hi .indirect (hind ▸ hnz)
  rw [hind] at hdata
  have hIind : ∀ j' < NINODES, ind ≠ IBLOCK j' := fun j' hj' => by
    have := IBLOCK_lt_nmeta hj'
    omega
  intro j' hj' t
  by_cases hji : j' = i
  · -- inode `i`: its record is untouched, its indirect block now holds `b` at `j`
    subst hji
    have hrec : Disk.inode (update d2 ind (setLE (d ind) (4 * j) 4 b)) j' = d2.inode j' :=
      inode_update_of_ne _ (hIind j' hj')
    cases t with
    | direct k =>
      rw [if_neg (by simp), ← h.balloc_slotAddr hb hj']
      unfold slotAddr
      rw [hrec]
      rfl
    | indirect =>
      rw [if_neg (by simp), ← h.balloc_slotAddr hb hj']
      unfold slotAddr
      rw [hrec]
      rfl
    | entry j'' =>
      have hind' : Disk.slotAddr (update d2 ind (setLE (d ind) (4 * j) 4 b)) j' .indirect = ind := by
        unfold slotAddr
        rw [hrec]
        exact (h.balloc_slotAddr hb hj' .indirect).trans hind
      rw [slotAddr_entry, hind', if_neg hnz, Disk.entry, update_self]
      by_cases hjj : j'' = j
      · subst hjj
        rw [getLE_setLE _ _ (Nat.lt_trans hlt (by decide)), if_pos ⟨rfl, rfl⟩]
      · have hv : (j'' : ℕ) ≠ j := fun h => hjj (Fin.ext h)
        rw [getLE_setLE_of_disjoint (by omega), if_neg fun h => hjj (Slot.entry.inj h.2),
          slotAddr_entry, hind, if_neg hnz]
        rfl
  · -- another inode: `ind` is neither its block nor its indirect block
    rw [if_neg fun h => hji h.1]
    have hother : d2.slotAddr j' .indirect ≠ ind := by
      rw [h.balloc_slotAddr hb hj']
      intro heq
      exact hji (h.unique j' hj' i hi .indirect .indirect (heq ▸ hnz) (heq.trans hind.symm)).1
    rw [slotAddr_update _ (hIind j' hj') hother, h.balloc_slotAddr hb hj']

/-- Storing a fresh block `b` from `balloc` into the empty entry `j` of inode `i`'s indirect
block `ind`, through the copy of `ind` read before the allocation, fills that entry alone. -/
theorem storeEntry (h : BlockInv d) {i ind : ℕ} {j : Fin NINDIRECT} {d2 : Disk} (hi : i < NINODES)
    (hind : d.slotAddr i .indirect = ind) (hnz : ind ≠ 0) (hb : d.balloc = .ok (d2, b)) :
    BlockInv (update d2 ind (setLE (d ind) (4 * j) 4 b)) ∧
      Disk.slotAddr (update d2 ind (setLE (d ind) (4 * j) 4 b)) i (.entry j) = b := by
  obtain ⟨hge, hlt⟩ := h.balloc_data hb
  have hdata := h.data i hi .indirect (hind ▸ hnz)
  rw [hind] at hdata
  have hslots := h.storeEntry_slots (j := j) hi hind hnz hb
  have hB : ∀ c < FSSIZE, ind ≠ BBLOCK c := fun c hc => by
    rw [(BBLOCK_of_lt hc).1]
    have := bmapstart_lt_nmeta
    omega
  refine ⟨h.assign ⟨hge, hlt⟩ (fun j' hj' t => h.balloc_fresh hb hj' t) hslots
    (fun c hc hu => ?_) ?_, ?_⟩
  · rw [used_update_of_ne _ (hB c hc), h.balloc_used hb hc, hu, Bool.true_or]
  · rw [used_update_of_ne _ (hB b hlt), h.balloc_used hb hlt, decide_eq_true rfl, Bool.or_true]
  · rw [hslots i hi, if_pos ⟨rfl, rfl⟩]

/-- **`bmap` under the invariant**: the block it returns is nonzero and sits in a slot of inode
`i` that holds data (a direct address or an entry of the indirect block). -/
theorem bmap (h : BlockInv d) {i bn : ℕ} (hi : i < NINODES) (hb : d.bmap i bn = .ok (d', b)) :
    BlockInv d' ∧ b ≠ 0 ∧ ∃ s, s ≠ .indirect ∧ d'.slotAddr i s = b := by
  rcases bmap_eq_ok hb with ⟨hbn, ha⟩ | ⟨-, hj, d1, ind, ha, -, hcase⟩
  · -- a direct block
    obtain ⟨h', hs, hnz⟩ := h.allocAddr hi ha
    exact ⟨h', hnz, _, by simp [Slot.ofAddr, hbn], hs⟩
  · -- an entry of the indirect block `ind`, loaded or allocated first
    obtain ⟨h1, hs1, hnz1⟩ := h.allocAddr hi ha
    rw [show Slot.ofAddr (Fin.last NDIRECT) = .indirect from dif_neg (by simp)] at hs1
    have hent : d1.slotAddr i (.entry ⟨bn - NDIRECT, hj⟩) = d1.entry ind (bn - NDIRECT) := by
      rw [slotAddr_entry, hs1, if_neg hnz1]
    rcases hcase with ⟨hnz, rfl, rfl⟩ | ⟨-, d2, hb2, rfl⟩
    · exact ⟨h1, hnz, _, by simp, hent⟩
    · obtain ⟨h2, hs2⟩ := h1.storeEntry (j := ⟨bn - NDIRECT, hj⟩) hi hs1 hnz1 hb2
      obtain ⟨hge, -⟩ := h1.balloc_data hb2
      exact ⟨h2, Nat.ne_of_gt (Nat.lt_of_lt_of_le (by decide) hge), _, by simp, hs2⟩

/-! ### `writei` -/

/-- `iupdate` of a record with inode `i`'s own addresses keeps every view. -/
theorem sameViews_setInode (h : BlockInv d) {i : ℕ} (hi : i < NINODES) {din : DInode}
    (hfits : din.Fits) (haddrs : din.addrs = (d.inode i).addrs) :
    SameViews d (d.setInode i din) where
  slotAddr j hj t := by
    have hind : din.addrs (Fin.last NDIRECT) ≠ IBLOCK i := by
      rw [haddrs]
      exact h.slotAddr_ne_IBLOCK hi hi .indirect
    rw [slotAddr_setInode hfits hind (fun j hj _ => h.slotAddr_ne_IBLOCK hj hi _) hj]
    split
    · rename_i hji
      rw [hji]
      exact DInode.addrOf_congr_addrs haddrs d t
    · rfl
  used b _ := used_setInode hi d din b

/-- The loop of `writei` keeps the invariant: each block it writes holds data of inode `i`, so
no slot reads through it. -/
theorem writeLoop (h : BlockInv d) {i : ℕ} (hi : i < NINODES) (src : List ℕ) (off left : ℕ)
    (hw : d.writeLoop i src off left = .ok d') : BlockInv d' := by
  induction left using Nat.strong_induction_on generalizing d src off with
  | _ left ih =>
    rw [Disk.writeLoop] at hw
    split at hw
    · cases hw
      exact h
    · rename_i hleft
      obtain ⟨⟨d1, b⟩, h1, h2⟩ := except_bind_eq_ok.mp hw
      obtain ⟨buf, h3, h4⟩ := except_bind_eq_ok.mp h2
      obtain ⟨-, rfl⟩ := bread_eq_ok.mp h3
      obtain ⟨hinv1, hnz, s, hs, hsb⟩ := h.bmap hi h1
      -- block `b` is in a data slot of inode `i`, so it is nobody's indirect block
      have hfree : ∀ j < NINODES, d1.slotAddr j .indirect ≠ b := fun j hj heq =>
        hs (hinv1.unique j hj i hi .indirect s (heq ▸ hnz) (heq.trans hsb.symm)).2.symm
      have hv := sameViews_update (place (d1 b) (off % BSIZE) (min left (BSIZE - off % BSIZE))
        (ofList src)) (hsb ▸ (hinv1.data i hi s (hsb ▸ hnz)).1) hfree
      exact ih _ (by simp only [BSIZE]; omega) (hinv1.of_sameViews hv) _ _ h4

/-- **`writei` keeps the invariant.** -/
theorem writei (h : BlockInv d) {i : ℕ} (hi : i < NINODES) {src : List ℕ} {off n : ℕ} {r : ℤ}
    (hw : d.writei i src off n = .ok (d', r)) : BlockInv d' := by
  unfold Disk.writei at hw
  dsimp only at hw
  -- a device, or a write the checks refuse, leaves the disk alone
  by_cases hdev : (d.inode i).type = T_DEV
  · rw [if_pos hdev] at hw
    cases hw
    exact h
  rw [if_neg hdev] at hw
  by_cases hoff : (d.inode i).size < off ∨ wrap (off + n) < off
  · rw [if_pos hoff] at hw
    cases hw
    exact h
  rw [if_neg hoff] at hw
  by_cases hmax : MAXFILE * BSIZE < off + n
  · rw [if_pos hmax] at hw
    cases hw
    exact h
  rw [if_neg hmax] at hw
  obtain ⟨d1, h1, h2⟩ := except_bind_eq_ok.mp hw
  have hinv1 := h.writeLoop hi src off n h1
  split at h2
  · -- the file grew: `ip->size = off` and `iupdate`
    cases h2
    have hfits := dinodeAt_fits (d1 (IBLOCK i)) (slotOf i)
    refine hinv1.of_sameViews (hinv1.sameViews_setInode hi
      ⟨hfits.type, hfits.major, hfits.minor, hfits.nlink, ?_, hfits.addrs⟩ rfl)
    simp only [MAXFILE, NDIRECT, NINDIRECT, BSIZE] at hmax ⊢
    omega
  · cases h2
    exact hinv1

/-! ### `ialloc`, `itrunc` and `iput` -/

/-- **`ialloc` keeps the invariant**: the inode it hands out holds no block. -/
theorem ialloc (h : BlockInv d) {type i : ℕ} (ha : d.ialloc type = .ok (d', i)) : BlockInv d' := by
  obtain ⟨-, hi, -, rfl⟩ := ialloc_eq_ok ha
  have hfresh : ∀ t, (freshInode type).addrOf d t = 0 := fun t => by
    cases t <;> simp [DInode.addrOf, freshInode]
  have hslots : ∀ j < NINODES, ∀ t, (d.setInode i (freshInode type)).slotAddr j t =
      if j = i then (freshInode type).addrOf d t else d.slotAddr j t :=
    fun j hj t => slotAddr_setInode (freshInode_fits type) (IBLOCK_pos i).ne
      (fun j hj _ => h.slotAddr_ne_IBLOCK hj hi _) hj t
  refine h.erase hi (fun _ => True) (fun t _ => by rw [hslots i hi, if_pos rfl, hfresh])
    (fun j hj t hjt => ?_) (fun c _ _ => used_setInode hi d _ c)
  rw [hslots j hj, if_neg fun hji => hjt ⟨hji, trivial⟩]

/-- Freeing direct block `k` of inode `i` and clearing its address keeps the invariant. -/
theorem freeDirect (h : BlockInv d) {i : ℕ} (hi : i < NINODES) (k : Fin NDIRECT)
    (hnz : (d.inode i).addrs k.castSucc ≠ 0) :
    BlockInv ((d.markFree ((d.inode i).addrs k.castSucc)).setAddr i k.castSucc 0) := by
  have hlt : (d.inode i).addrs k.castSucc < FSSIZE := (h.data i hi (.direct k) hnz).2
  have hmark : ∀ j < NINODES, ∀ t,
      (d.markFree ((d.inode i).addrs k.castSucc)).slotAddr j t = d.slotAddr j t :=
    fun j hj t => h.slotAddr_update_BBLOCK hlt _ hj t
  have hrec : (update ((d.markFree ((d.inode i).addrs k.castSucc)).inode i).addrs k.castSucc 0)
      (Fin.last NDIRECT) ≠ IBLOCK i := by
    rw [update_of_ne (Fin.castSucc_lt_last k).ne', ← slotAddr_indirect, hmark i hi]
    exact h.slotAddr_ne_IBLOCK hi hi _
  have hofs : Slot.ofAddr k.castSucc = .direct k := dif_pos k.isLt
  have hslots : ∀ j < NINODES, ∀ t,
      ((d.markFree ((d.inode i).addrs k.castSucc)).setAddr i k.castSucc 0).slotAddr j t =
        if j = i ∧ t = .direct k then 0 else d.slotAddr j t := by
    intro j hj t
    rw [setAddr, slotAddr_setInode (setAddr_fits _ i _ (by decide)) hrec
      (fun j hj _ => by rw [hmark j hj]; exact h.slotAddr_ne_IBLOCK hj hi _) hj]
    by_cases hji : j = i
    · rw [if_pos hji, hji, DInode.addrOf_setAddr _ _ (.inl k.isLt) t, hofs]
      by_cases ht : t = .direct k
      · rw [if_pos ht, if_pos ⟨rfl, ht⟩]
      · rw [if_neg ht, if_neg fun h => ht h.2]
        exact hmark i hi t
    · rw [if_neg hji, if_neg fun h => hji h.1]
      exact hmark j hj t
  refine h.erase hi (· = .direct k) (fun t ht => by rw [hslots i hi, if_pos ⟨rfl, ht⟩])
    (fun j hj t hjt => by rw [hslots j hj, if_neg hjt]) fun c hc hne => ?_
  have hca : c ≠ (d.inode i).addrs k.castSucc := fun heq => hne _ rfl hnz heq.symm
  rw [setAddr, used_setInode hi, used_markFree d hlt hc, decide_eq_false hca, Bool.not_false,
    Bool.and_true]

/-- The first loop of `itrunc` keeps the invariant. -/
theorem itruncDirect (h : BlockInv d) {i : ℕ} (hi : i < NINODES) (ks : List (Fin NDIRECT))
    (ht : d.itruncDirect i ks = .ok d') : BlockInv d' := by
  induction ks generalizing d with
  | nil =>
    cases ht
    exact h
  | cons k ks ih =>
    rw [Disk.itruncDirect] at ht
    split at ht
    · rename_i hnz
      obtain ⟨d1, h1, h2⟩ := except_bind_eq_ok.mp ht
      obtain ⟨-, -, rfl⟩ := bfree_eq_ok.mp h1
      exact ih (h.freeDirect hi k hnz) h2
    · exact ih h ht

/-- Freeing the entries of inode `i`'s indirect block, then the block itself, and clearing
`addrs[NDIRECT]` keeps the invariant. -/
theorem freeIndirect (h : BlockInv d) {i : ℕ} (hi : i < NINODES)
    (hnz : d.slotAddr i .indirect ≠ 0) {d3 d4 : Disk}
    (he : d.itruncEntries (d (d.slotAddr i .indirect)) (List.range NINDIRECT) = .ok d3)
    (hf : d3.bfree (d.slotAddr i .indirect) = .ok d4) :
    BlockInv (d4.setAddr i (Fin.last NDIRECT) 0) := by
  obtain ⟨-, hlt⟩ := h.data i hi .indirect hnz
  -- the entries the loop reads are the entry slots of inode `i`
  have hent : ∀ j (hj : j < NINDIRECT),
      getLE (d (d.slotAddr i .indirect)) (4 * j) 4 = d.slotAddr i (.entry ⟨j, hj⟩) :=
    fun j hj => by rw [slotAddr_entry, if_neg hnz]; rfl
  have hlt_e : ∀ j ∈ List.range NINDIRECT, getLE (d (d.slotAddr i .indirect)) (4 * j) 4 < FSSIZE := by
    intro j hj
    rw [hent j (List.mem_range.mp hj)]
    by_cases hz : d.slotAddr i (.entry ⟨j, List.mem_range.mp hj⟩) = 0
    · rw [hz]
      decide
    · exact (h.data i hi _ hz).2
  obtain ⟨hx3, hu3⟩ := itruncEntries_frame hlt_e he
  obtain ⟨-, -, rfl⟩ := bfree_eq_ok.mp hf
  -- all of it wrote the bitmap only
  have hd4 : d3.markFree (d.slotAddr i .indirect) =
      update d sb.bmapstart (d3.markFree (d.slotAddr i .indirect) sb.bmapstart) := by
    funext x
    by_cases hx : x = sb.bmapstart
    · rw [hx, update_self]
    · rw [update_of_ne hx, markFree_of_ne d3 (by rw [(BBLOCK_of_lt hlt).1]; exact hx), hx3 x hx]
  have hmark : ∀ j < NINODES, ∀ t,
      (d3.markFree (d.slotAddr i .indirect)).slotAddr j t = d.slotAddr j t := by
    intro j hj t
    rw [hd4]
    exact h.slotAddr_update_bmap _ hj t
  have hrec : (update ((d3.markFree (d.slotAddr i .indirect)).inode i).addrs (Fin.last NDIRECT) 0)
      (Fin.last NDIRECT) ≠ IBLOCK i := by
    rw [update_self]
    exact (IBLOCK_pos i).ne
  have hslots : ∀ j < NINODES, ∀ t,
      ((d3.markFree (d.slotAddr i .indirect)).setAddr i (Fin.last NDIRECT) 0).slotAddr j t =
        if j = i then (if t.isDirect then d.slotAddr i t else 0) else d.slotAddr j t := by
    intro j hj t
    rw [setAddr, slotAddr_setInode (setAddr_fits _ i _ (by decide)) hrec
      (fun j hj _ => by rw [hmark j hj]; exact h.slotAddr_ne_IBLOCK hj hi _) hj]
    by_cases hji : j = i
    · rw [if_pos hji, if_pos hji, DInode.addrOf_clearIndirect]
      split
      · exact hmark i hi t
      · rfl
    · rw [if_neg hji, if_neg hji]
      exact hmark j hj t
  refine h.erase hi (fun t => t.isDirect = false)
    (fun t ht => by rw [hslots i hi, if_pos rfl, if_neg (by rw [ht]; decide)])
    (fun j hj t hjt => ?_) fun c hc hne => ?_
  · rw [hslots j hj]
    by_cases hji : j = i
    · rw [if_pos hji, hji]
      have ht : t.isDirect = true := by
        cases hd : t.isDirect
        · exact absurd ⟨hji, hd⟩ hjt
        · rfl
      rw [if_pos ht]
    · rw [if_neg hji]
  · -- no other slot held the indirect block or one of its entries
    have hcind : c ≠ d.slotAddr i .indirect := fun heq => hne .indirect rfl hnz heq.symm
    rw [setAddr, used_setInode hi, used_markFree d3 hlt hc, decide_eq_false hcind, Bool.not_false,
      Bool.and_true]
    refine hu3 c hc fun j hj hz => ?_
    rw [hent j (List.mem_range.mp hj)] at hz ⊢
    exact hne _ rfl hz

/-- **`itrunc` keeps the invariant.** -/
theorem itrunc (h : BlockInv d) {i : ℕ} (hi : i < NINODES) (ht : d.itrunc i = .ok d') :
    BlockInv d' := by
  unfold Disk.itrunc at ht
  obtain ⟨d1, h1, h2⟩ := except_bind_eq_ok.mp ht
  have hinv1 := h.itruncDirect hi _ h1
  -- the indirect block, if any, then `ip->size = 0; iupdate(ip)`
  obtain ⟨d2, hinv2, h3⟩ : ∃ d2, BlockInv d2 ∧
      d2.setInode i { d2.inode i with size := 0 } = d' := by
    dsimp only at h2
    split at h2
    · rename_i hnz
      obtain ⟨buf, hb, h4⟩ := except_bind_eq_ok.mp h2
      obtain ⟨-, rfl⟩ := bread_eq_ok.mp hb
      obtain ⟨d3, he, h5⟩ := except_bind_eq_ok.mp h4
      obtain ⟨d4, hf, h6⟩ := except_bind_eq_ok.mp h5
      exact ⟨_, hinv1.freeIndirect hi hnz he hf, Except.ok.inj h6⟩
    · exact ⟨d1, hinv1, Except.ok.inj h2⟩
  subst h3
  have hfits : (d2.inode i).Fits := dinodeAt_fits _ _
  exact hinv2.of_sameViews (hinv2.sameViews_setInode hi
    ⟨hfits.type, hfits.major, hfits.minor, hfits.nlink, Nat.two_pow_pos _, hfits.addrs⟩ rfl)

/-- **`iput` keeps the invariant.** -/
theorem iput (h : BlockInv d) {i : ℕ} (hi : i < NINODES) (hp : d.iput i = .ok d') :
    BlockInv d' := by
  unfold Disk.iput at hp
  split at hp
  · obtain ⟨d1, h1, h2⟩ := except_bind_eq_ok.mp hp
    have hinv1 := h.itrunc hi h1
    cases h2
    have hfits : (d1.inode i).Fits := dinodeAt_fits _ _
    exact hinv1.of_sameViews (hinv1.sameViews_setInode hi
      ⟨Nat.two_pow_pos _, hfits.major, hfits.minor, hfits.nlink, hfits.size, hfits.addrs⟩ rfl)
  · cases hp
    exact h

/-! ### Runs -/

/-- **Every file-system call keeps the invariant.** -/
theorem fsStep (h : BlockInv d) {op : FsOp} (hs : Xv6Lab.fsStep d op = some d') : BlockInv d' := by
  cases op with
  | ialloc type =>
    obtain ⟨⟨d1, i⟩, h1, rfl⟩ := except_map_eq_ok.mp (except_toOption_eq_some.mp hs)
    exact h.ialloc h1
  | bmap i bn =>
    simp only [Xv6Lab.fsStep] at hs
    split at hs
    · rename_i hi
      obtain ⟨⟨d1, b⟩, h1, rfl⟩ := except_map_eq_ok.mp (except_toOption_eq_some.mp hs)
      obtain ⟨_, -, h2⟩ := except_bind_eq_ok.mp h1
      exact (h.bmap hi h2).1
    · cases hs
  | writei i src off n =>
    simp only [Xv6Lab.fsStep] at hs
    split at hs
    · rename_i hi
      obtain ⟨⟨d1, r⟩, h1, rfl⟩ := except_map_eq_ok.mp (except_toOption_eq_some.mp hs)
      obtain ⟨_, -, h2⟩ := except_bind_eq_ok.mp h1
      exact h.writei hi h2
    · cases hs
  | iput i =>
    simp only [Xv6Lab.fsStep] at hs
    split at hs
    · rename_i hi
      exact h.iput hi (except_toOption_eq_some.mp hs)
    · cases hs

/-- **The run lemma**: a disk reached by file-system calls from one with the invariant has it. -/
theorem reachable (h : Reachable Xv6Lab.fsStep BlockInv d) : BlockInv d :=
  Reachable.induction BlockInv (fun _ h0 => h0) (fun _ _ _ hs ht => hs.fsStep ht) h

end BlockInv

/-- **Block ownership along every run** of `ialloc`, `bmap`, `writei` and `iput` from a disk
with the invariant: every block an inode references is marked and lies in the data area, no
block is referenced twice, and `balloc` never returns a referenced block. -/
theorem block_ownership {d : Disk} (h : Run.Reachable fsStep BlockInv d) :
    BlockInv d ∧ ∀ d' b, d.balloc = .ok (d', b) → ∀ i < NINODES, ∀ s, d.slotAddr i s ≠ b := by
  have hinv := BlockInv.reachable h
  exact ⟨hinv, fun _ _ hb i hi s => hinv.balloc_fresh hb hi s⟩

end Xv6Lab
