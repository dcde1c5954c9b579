import Xv6Lab.User.Umalloc
import Xv6Lab.Lib.Walk
import Mathlib

/-!
# The free list of `umalloc.c`

The allocator's free list, read from the headers in memory: `base`, a header of size `0`, then
the free blocks in address order, each ending before the next one begins, the last one linked
back to `base` (`FreeList`).  The blocks are the list `bs` of (address, units) pairs.

* `FreeList.freeScan_gap` — from `freep`, the search of `free` stops at the free block right
  below the block it puts back, given a round for each free block;
* `insertAfter_cells`, `gapped_insertAfter` — the list with a block put back covers the old
  free memory and the block, and stays in address order with its gaps;
* `FreeList.free_insert` — `free` of a block in a gap of the free list leaves a free list: the
  old one with the block inserted and merged with the neighbours it touches;
* `FreeList.morecore_grows` — `morecore` with room below `KERNBASE` leaves a free list that
  covers the old free memory and the new block from `sbrk`;
* `FreeList.mallocLoop_fit` — where the block after `prevp` fits, `malloc`'s loop carves the
  request from its tail and leaves a free list without the carved memory;
* `FreeList.malloc_first_fit` — from `freep`, the loop passes over the blocks too small for the
  request and carves it from the first one that fits.
-/

namespace Xv6Lab.Umalloc

open Function Walk

theorem HSIZE_eq : HSIZE = 8 := rfl

theorem KERNBASE_lt_UINT : KERNBASE < UINT := by decide

/-! ### Blocks and the free list -/

/-- The end of a block of `b.2` units at `b.1`. -/
def blockEnd (b : ℕ × ℕ) : ℕ := b.1 + HSIZE * b.2

/-- The headers of a list of blocks: each holds its block's size, and its `ptr` the address of
the block after it, the last one's `z`. -/
def Linked (mem : ℕ → Header) : List (ℕ × ℕ) → ℕ → Prop
  | [], _ => True
  | b :: bs, z =>
    (mem b.1).size = b.2 ∧ (mem b.1).ptr = (bs.map Prod.fst).headD z ∧ Linked mem bs z

/-- Blocks in address order, each ending before the next one begins. -/
def Gapped (bs : List (ℕ × ℕ)) : Prop := bs.IsChain fun x y => blockEnd x < y.1

/-- The free list of a heap: `base`, of size `0`, then the free blocks `bs`, of at least a unit
each, in address order with a gap after each, the last one linked back to `base`; the blocks lie
below the process's size, which stays below `KERNBASE`, and `freep` is on the list. -/
structure FreeList (h : Heap) (bs : List (ℕ × ℕ)) : Prop where
  linked : Linked h.mem ((h.base, 0) :: bs) h.base
  gapped : Gapped ((h.base, 0) :: bs)
  pos : ∀ b ∈ bs, 0 < b.2
  below : ∀ b ∈ bs, blockEnd b ≤ h.sz
  base_pos : 0 < h.base
  base_lt : h.base < h.sz
  sz_lt : h.sz < KERNBASE
  freep : h.freep ∈ h.base :: bs.map Prod.fst

variable {mem mem' : ℕ → Header}

@[simp] theorem linked_nil (z : ℕ) : Linked mem [] z := trivial

@[simp] theorem linked_cons {b : ℕ × ℕ} {bs : List (ℕ × ℕ)} {z : ℕ} :
    Linked mem (b :: bs) z ↔
      (mem b.1).size = b.2 ∧ (mem b.1).ptr = (bs.map Prod.fst).headD z ∧ Linked mem bs z :=
  Iff.rfl

/-- A list of headers cut in two: the first part ends at the second part's first block. -/
theorem linked_append {l r : List (ℕ × ℕ)} {z : ℕ} :
    Linked mem (l ++ r) z ↔ Linked mem l ((r.map Prod.fst).headD z) ∧ Linked mem r z := by
  induction l with
  | nil => simp
  | cons b l ih =>
    have hhead : ((l ++ r).map Prod.fst).headD z =
        (l.map Prod.fst).headD ((r.map Prod.fst).headD z) := by
      cases l <;> rfl
    rw [List.cons_append, linked_cons, linked_cons, ih, hhead, and_assoc, and_assoc]

/-- The headers of a list read only the blocks' own headers. -/
theorem linked_congr {l : List (ℕ × ℕ)} (z : ℕ) (h : ∀ b ∈ l, mem' b.1 = mem b.1) :
    Linked mem' l z ↔ Linked mem l z := by
  induction l with
  | nil => simp
  | cons b l ih =>
    rw [linked_cons, linked_cons, h b (by simp), ih fun c hc => h c (List.mem_cons_of_mem _ hc)]

/-- The header of a block inside a linked list holds its size and points at the block after it. -/
theorem Linked.mid {l₁ l₂ : List (ℕ × ℕ)} {c : ℕ × ℕ} {z : ℕ} (h : Linked mem (l₁ ++ c :: l₂) z) :
    (mem c.1).size = c.2 ∧ (mem c.1).ptr = (l₂.map Prod.fst).headD z :=
  let ⟨h₁, h₂, _⟩ := (linked_append.mp h).2
  ⟨h₁, h₂⟩

/-- The header of the block at address `x`, where the addresses are `n₁ ++ x :: n₂`, points at
the first of `n₂`, or at `z` after the last block. -/
theorem Linked.ptr_of_nodes {l : List (ℕ × ℕ)} {z : ℕ} (h : Linked mem l z) {n₁ n₂ : List ℕ}
    {x : ℕ} (hl : l.map Prod.fst = n₁ ++ x :: n₂) : (mem x).ptr = n₂.headD z := by
  obtain ⟨l₁, l', rfl, -, hl'⟩ := List.map_eq_append_iff.mp hl
  obtain ⟨c, l₂, rfl, rfl, rfl⟩ := List.map_eq_cons_iff.mp hl'
  exact (h.mid).2

/-- The headers from `a` on, read as pointers, are a path through the blocks to `z`. -/
theorem Linked.path {a : ℕ × ℕ} {bs : List (ℕ × ℕ)} {z : ℕ} (h : Linked mem (a :: bs) z) :
    Path (fun x => (mem x).ptr) a.1 (bs.map Prod.fst) z := by
  induction bs generalizing a with
  | nil => exact h.2.1
  | cons b bs ih => exact ⟨h.2.1, ih h.2.2⟩

theorem blockEnd_eq (b : ℕ × ℕ) : blockEnd b = b.1 + 8 * b.2 := rfl

/-- Gapped blocks are gapped pairwise, each ending before every later one begins. -/
theorem Gapped.pairwise {bs : List (ℕ × ℕ)} (h : Gapped bs) :
    bs.Pairwise fun x y => blockEnd x < y.1 := by
  have : Trans (fun x y : ℕ × ℕ => blockEnd x < y.1) (fun x y : ℕ × ℕ => blockEnd x < y.1)
      (fun x y : ℕ × ℕ => blockEnd x < y.1) := ⟨fun h₁ h₂ => by rw [blockEnd_eq] at *; omega⟩
  exact List.isChain_iff_pairwise.mp h

/-- The addresses of gapped blocks increase. -/
theorem Gapped.sorted {bs : List (ℕ × ℕ)} (h : Gapped bs) : (bs.map Prod.fst).Pairwise (· < ·) :=
  List.pairwise_map.mpr (h.pairwise.imp fun hxy => by rw [blockEnd_eq] at hxy; omega)

/-! ### The search of `free` -/

/-- The test of `free`'s search at `p`: `bp` between `p` and the next block, or past the point
where the list wraps back to lower addresses. -/
def scanStop (mem : ℕ → Header) (bp p : ℕ) : Bool :=
  decide ((p < bp ∧ bp < (mem p).ptr) ∨ ((mem p).ptr ≤ p ∧ (p < bp ∨ bp < (mem p).ptr)))

/-- `free`'s search is the walk along the `ptr` links that stops at `scanStop`. -/
theorem freeScan_eq (mem : ℕ → Header) (bp fuel p : ℕ) :
    freeScan mem bp fuel p = walkUntil (fun a => (mem a).ptr) (scanStop mem bp) fuel p := by
  induction fuel generalizing p with
  | zero => rfl
  | succ fuel ih =>
    rw [freeScan, walkUntil, scanStop, ih]
    by_cases h₁ : p < bp ∧ bp < (mem p).ptr
    · simp [h₁]
    · by_cases h₂ : (mem p).ptr ≤ p ∧ (p < bp ∨ bp < (mem p).ptr)
      · simp [h₂]
      · simp [h₁, h₂]

section Scan

variable {h : Heap} {bs L R : List (ℕ × ℕ)} {p : ℕ × ℕ} {bp : ℕ}

/-- The addresses on the free list, `base` first. -/
def nodes (h : Heap) (bs : List (ℕ × ℕ)) : List ℕ := h.base :: bs.map Prod.fst

theorem FreeList.sorted (hf : FreeList h bs) : (nodes h bs).Pairwise (· < ·) :=
  hf.gapped.sorted

theorem FreeList.nodup (hf : FreeList h bs) : (nodes h bs).Nodup :=
  hf.sorted.imp ne_of_lt

theorem FreeList.isCycle (hf : FreeList h bs) : IsCycle (fun x => (h.mem x).ptr) (nodes h bs) :=
  ⟨h.base, bs.map Prod.fst, rfl, hf.linked.path⟩

theorem nodes_of_split (hsplit : (h.base, 0) :: bs = L ++ p :: R) :
    nodes h bs = (L ++ p :: R).map Prod.fst := by
  rw [← hsplit]
  rfl

theorem mem_nodes_of_split (hsplit : (h.base, 0) :: bs = L ++ p :: R) : p.1 ∈ nodes h bs := by
  rw [nodes_of_split hsplit]
  simp

/-- A block of the split list other than `base` is a free block. -/
theorem mem_of_split (hsplit : (h.base, 0) :: bs = L ++ p :: R) {c : ℕ × ℕ}
    (hc : c ∈ L ++ p :: R) (hne : c.1 ≠ h.base) : c ∈ bs := by
  rw [← hsplit] at hc
  rcases List.mem_cons.mp hc with rfl | hc
  · exact absurd rfl hne
  · exact hc

/-- The process's size, below `KERNBASE`, is a `uint`. -/
theorem FreeList.sz_lt_uint (hf : FreeList h bs) : h.sz < UINT :=
  lt_trans hf.sz_lt KERNBASE_lt_UINT

/-- Cut at a gap between `p` and the block after it, every address on the list is at most `p`'s
or above the gap. -/
theorem FreeList.nodes_cut (hf : FreeList h bs) (hsplit : (h.base, 0) :: bs = L ++ p :: R)
    (hhi : ∀ q ∈ R.head?, bp < q.1) : ∀ w ∈ nodes h bs, w ≤ p.1 ∨ bp < w := by
  have hsorted := hf.sorted
  rw [nodes_of_split hsplit] at hsorted ⊢
  intro w hw
  simp only [List.map_append, List.map_cons] at hsorted hw
  obtain ⟨-, hR, hLR⟩ := List.pairwise_append.mp hsorted
  rcases List.mem_append.mp hw with hw | hw
  · exact .inl (le_of_lt (hLR w hw p.1 (by simp)))
  rcases List.mem_cons.mp hw with rfl | hw
  · exact .inl le_rfl
  -- above `p`: at or past the first block after it
  cases R with
  | nil => simp at hw
  | cons q R =>
    have hq := hhi q (by simp)
    simp only [List.map_cons, List.mem_cons] at hw
    rcases hw with rfl | hw
    · exact .inr hq
    · have := (List.pairwise_cons.mp (List.pairwise_cons.mp hR).2).1 w hw
      exact .inr (by omega)

/-- **Only the block below the gap stops `free`'s search**: on the free list, `scanStop` holds at
`p` and nowhere else, for a `bp` in the gap after `p`. -/
theorem FreeList.scanStop_iff (hf : FreeList h bs) (hsplit : (h.base, 0) :: bs = L ++ p :: R)
    (hlo : p.1 < bp) (hhi : ∀ q ∈ R.head?, bp < q.1) {z : ℕ} (hz : z ∈ nodes h bs) :
    scanStop h.mem bp z = true ↔ z = p.1 := by
  have hcut := hf.nodes_cut hsplit hhi
  have hsorted := hf.sorted
  have hpmem := mem_nodes_of_split hsplit
  -- `base` heads the list, so it is at most `p`'s address
  have hbase : h.base ≤ p.1 := by
    rcases List.mem_cons.mp hpmem with h1 | h1
    · omega
    · exact le_of_lt ((List.pairwise_cons.mp hsorted).1 _ h1)
  -- the header of `p` points above the gap, or back at `base`
  have hptrP : (h.mem p.1).ptr = (R.map Prod.fst).headD h.base := by
    have hl := hf.linked
    rw [hsplit] at hl
    exact hl.mid.2
  -- the header at `z` points at the next address up, or back at `base` from the last
  obtain ⟨n₁, n₂, hnz⟩ := List.append_of_mem hz
  have hptr : (h.mem z).ptr = n₂.headD h.base := hf.linked.ptr_of_nodes hnz
  rw [hnz] at hsorted hpmem
  obtain ⟨-, hn₂, hlt⟩ := List.pairwise_append.mp hsorted
  have hafter : ∀ w ∈ n₂, z < w := (List.pairwise_cons.mp hn₂).1
  by_cases hzp : z = p.1
  · subst hzp
    simp only [iff_true, scanStop, decide_eq_true_eq, hptrP]
    cases R with
    | nil => exact .inr ⟨hbase, .inl hlo⟩
    | cons q R => exact .inl ⟨hlo, hhi q (by simp)⟩
  simp only [hzp, iff_false, scanStop, decide_eq_true_eq, hptr, not_or, not_and]
  rcases hcut z hz with hzle | hzgt
  · -- below `p`: `p` comes later, so the next address up is at most `p`'s
    have hzlt : z < p.1 := lt_of_le_of_ne hzle hzp
    have hpin : p.1 ∈ n₂ := by
      rcases List.mem_append.mp hpmem with h1 | h1
      · exact absurd (hlt _ h1 z (by simp)) (by omega)
      · rcases List.mem_cons.mp h1 with h1 | h1
        · exact absurd h1.symm hzp
        · exact h1
    obtain ⟨w, n₂, rfl⟩ := List.exists_cons_of_ne_nil (List.ne_nil_of_mem hpin)
    have hwp : w ≤ p.1 := by
      rcases List.mem_cons.mp hpin with h1 | h1
      · omega
      · exact le_of_lt ((List.pairwise_cons.mp (List.pairwise_cons.mp hn₂).2).1 _ h1)
    have hzw := hafter w (by simp)
    simp only [List.headD_cons]
    omega
  · cases n₂ with
    | nil =>
      simp only [List.headD_nil]
      omega
    | cons w n₂ =>
      have hzw := hafter w (by simp)
      simp only [List.headD_cons]
      omega

/-- **`free`'s search stops below the gap**: from `freep`, the search for a `bp` in the gap
after the free block `p` stops at `p`, given a round for each block and `base`. -/
theorem FreeList.freeScan_gap (hf : FreeList h bs) (hsplit : (h.base, 0) :: bs = L ++ p :: R)
    (hlo : p.1 < bp) (hhi : ∀ q ∈ R.head?, bp < q.1) {fuel : ℕ} (hfuel : bs.length < fuel) :
    freeScan h.mem bp fuel h.freep = some p.1 := by
  have hpmem := mem_nodes_of_split hsplit
  rw [freeScan_eq]
  exact hf.isCycle.walkUntil_eq hf.nodup hf.freep hpmem
    ((hf.scanStop_iff hsplit hlo hhi hpmem).mpr rfl)
    (fun z hz hs => (hf.scanStop_iff hsplit hlo hhi hz).mp hs) (by simp [nodes]; omega)

end Scan

/-! ### Putting a block back -/

/-- The block `b` with the block after it, when `b` ends where that one begins. -/
def joinNext (b : ℕ × ℕ) : List (ℕ × ℕ) → (ℕ × ℕ) × List (ℕ × ℕ)
  | q :: R => if blockEnd b = q.1 then ((b.1, b.2 + q.2), R) else (b, q :: R)
  | [] => (b, [])

/-- The block `p` with the block `c` after it, when `p` ends where `c` begins. -/
def joinPrev (L : List (ℕ × ℕ)) (p c : ℕ × ℕ) (R : List (ℕ × ℕ)) : List (ℕ × ℕ) :=
  if blockEnd p = c.1 then L ++ (p.1, p.2 + c.2) :: R else L ++ p :: c :: R

/-- What `free` makes of the list `L ++ p :: R` when it puts the block `b` back after `p`: `b`
merged with the block after it when they touch, and into `p` when `p` ends where `b` begins. -/
def insertAfter (L : List (ℕ × ℕ)) (p b : ℕ × ℕ) (R : List (ℕ × ℕ)) : List (ℕ × ℕ) :=
  joinPrev L p (joinNext b R).1 (joinNext b R).2

/-- The memory a list of blocks covers. -/
def cells (bs : List (ℕ × ℕ)) : Set ℕ := {x | ∃ c ∈ bs, c.1 ≤ x ∧ x < blockEnd c}

/-- The units a list of blocks holds. -/
def units (bs : List (ℕ × ℕ)) : ℕ := (bs.map Prod.snd).sum

theorem joinNext_cases (b : ℕ × ℕ) (R : List (ℕ × ℕ)) :
    (∃ q R', R = q :: R' ∧ blockEnd b = q.1 ∧ joinNext b R = ((b.1, b.2 + q.2), R')) ∨
      ((∀ q ∈ R.head?, blockEnd b ≠ q.1) ∧ joinNext b R = (b, R)) := by
  cases R with
  | nil => exact .inr ⟨by simp, rfl⟩
  | cons q R =>
    by_cases hq : blockEnd b = q.1
    · exact .inl ⟨q, R, rfl, hq, by rw [joinNext, if_pos hq]⟩
    · exact .inr ⟨by simpa using hq, by rw [joinNext, if_neg hq]⟩

theorem joinNext_fst (b : ℕ × ℕ) (R : List (ℕ × ℕ)) : (joinNext b R).1.1 = b.1 := by
  rcases joinNext_cases b R with ⟨q, R', rfl, hq, hj⟩ | ⟨-, hj⟩ <;> rw [hj]

@[simp] theorem cells_nil : cells [] = ∅ := by
  simp [cells]

theorem cells_cons (c : ℕ × ℕ) (bs : List (ℕ × ℕ)) :
    cells (c :: bs) = {x | c.1 ≤ x ∧ x < blockEnd c} ∪ cells bs := by
  ext x
  simp [cells]

theorem cells_append (l r : List (ℕ × ℕ)) : cells (l ++ r) = cells l ∪ cells r := by
  ext x
  simp only [cells, List.mem_append, Set.mem_ofPred_eq, Set.mem_union]
  constructor
  · rintro ⟨c, hc | hc, h⟩
    exacts [.inl ⟨c, hc, h⟩, .inr ⟨c, hc, h⟩]
  · rintro (⟨c, hc, h⟩ | ⟨c, hc, h⟩)
    exacts [⟨c, .inl hc, h⟩, ⟨c, .inr hc, h⟩]

/-- Two blocks that touch cover what one block of their units together covers. -/
theorem cells_join {b q : ℕ × ℕ} (h : blockEnd b = q.1) :
    {x | b.1 ≤ x ∧ x < blockEnd (b.1, b.2 + q.2)} =
      {x | b.1 ≤ x ∧ x < blockEnd b} ∪ {x | q.1 ≤ x ∧ x < blockEnd q} := by
  ext x
  simp only [Set.mem_ofPred_eq, Set.mem_union]
  simp only [blockEnd_eq] at *
  omega

theorem joinNext_cells (b : ℕ × ℕ) (R : List (ℕ × ℕ)) :
    cells ((joinNext b R).1 :: (joinNext b R).2) = cells (b :: R) ∧
      units ((joinNext b R).1 :: (joinNext b R).2) = units (b :: R) := by
  rcases joinNext_cases b R with ⟨q, R', rfl, hq, hj⟩ | ⟨-, hj⟩
  · rw [hj]
    constructor
    · rw [cells_cons, cells_cons, cells_cons, cells_join hq, Set.union_assoc]
    · simp only [units, List.map_cons, List.sum_cons]
      omega
  · rw [hj]
    exact ⟨rfl, rfl⟩

theorem joinPrev_cells (L : List (ℕ × ℕ)) (p c : ℕ × ℕ) (R : List (ℕ × ℕ)) :
    cells (joinPrev L p c R) = cells (L ++ p :: c :: R) ∧
      units (joinPrev L p c R) = units (L ++ p :: c :: R) := by
  rw [joinPrev]
  split_ifs with hp
  · constructor
    · rw [cells_append, cells_append, cells_cons, cells_join hp, cells_cons, cells_cons,
        Set.union_assoc]
    · simp only [units, List.map_append, List.map_cons, List.sum_append, List.sum_cons]
      omega
  · exact ⟨rfl, rfl⟩

/-- **Putting a block back covers it**: the list `free` leaves covers the old free memory and
the block, and holds their units. -/
theorem insertAfter_cells (L : List (ℕ × ℕ)) (p b : ℕ × ℕ) (R : List (ℕ × ℕ)) :
    cells (insertAfter L p b R) = cells (L ++ p :: R) ∪ cells [b] ∧
      units (insertAfter L p b R) = units (L ++ p :: R) + b.2 := by
  obtain ⟨hc, hu⟩ := joinPrev_cells L p (joinNext b R).1 (joinNext b R).2
  obtain ⟨hc', hu'⟩ := joinNext_cells b R
  rw [insertAfter, hc, hu, cells_append, cells_cons, hc', cells_append, cells_cons, cells_cons,
    cells_cons, cells_nil]
  refine ⟨by rw [Set.union_empty]; ac_rfl, ?_⟩
  simp only [units, List.map_append, List.map_cons, List.sum_append, List.sum_cons] at hu' ⊢
  omega

/-- A chain of gapped blocks reads only the end of its first block. -/
theorem gapped_cons_of_end {x y : ℕ × ℕ} (l : List (ℕ × ℕ)) (h : blockEnd x = blockEnd y) :
    Gapped (x :: l) ↔ Gapped (y :: l) := by
  simp only [Gapped, List.isChain_cons, h]

/-- A chain of gapped blocks reads only the address of its last block. -/
theorem gapped_concat_of_fst (L : List (ℕ × ℕ)) {x y : ℕ × ℕ} (h : x.1 = y.1) :
    Gapped (L ++ [x]) ↔ Gapped (L ++ [y]) := by
  simp only [Gapped, List.isChain_append, List.isChain_singleton, List.head?_cons,
    Option.mem_def, Option.some.injEq]
  constructor <;> rintro ⟨h₁, -, h₂⟩ <;> exact ⟨h₁, trivial, fun a ha c hc => by subst hc; simpa [h] using h₂ a ha _ rfl⟩

theorem gapped_joinNext {b : ℕ × ℕ} {R : List (ℕ × ℕ)} (hR : Gapped R)
    (hhi : ∀ q ∈ R.head?, blockEnd b ≤ q.1) :
    Gapped ((joinNext b R).1 :: (joinNext b R).2) := by
  rcases joinNext_cases b R with ⟨q, R', rfl, hq, hj⟩ | ⟨hne, hj⟩
  · -- merged: the block ends where `q` did
    rw [hj, gapped_cons_of_end R' (y := q) (by simp only [blockEnd_eq] at *; omega)]
    exact hR
  · rw [hj]
    refine List.isChain_cons.mpr ⟨fun q hq => lt_of_le_of_ne (hhi q hq) (hne q hq), hR⟩

/-- **Putting a block back keeps the list gapped**, for a block in the gap after `p`. -/
theorem gapped_insertAfter {L R : List (ℕ × ℕ)} {p b : ℕ × ℕ} (hg : Gapped (L ++ p :: R))
    (hlo : blockEnd p ≤ b.1) (hhi : ∀ q ∈ R.head?, blockEnd b ≤ q.1) :
    Gapped (insertAfter L p b R) := by
  obtain ⟨hL, hR⟩ := List.isChain_split.mp hg
  have hj := gapped_joinNext (List.isChain_cons.mp hR).2 hhi
  have hfst := joinNext_fst b R
  rw [insertAfter, joinPrev]
  split_ifs with hp
  · -- merged into `p`: the block ends where the joined block does
    have hL' : Gapped (L ++ [(p.1, p.2 + (joinNext b R).1.2)]) :=
      (gapped_concat_of_fst L (x := p) (y := (p.1, p.2 + (joinNext b R).1.2)) rfl).mp hL
    refine List.isChain_split.mpr ⟨hL', ?_⟩
    refine (gapped_cons_of_end _ ?_).mpr hj
    simp only [blockEnd_eq] at *
    omega
  · refine List.isChain_append_cons_cons.mpr ⟨hL, ?_, hj⟩
    rw [hfst] at hp ⊢
    exact lt_of_le_of_ne hlo hp

/-! ### `free` -/

/-- The headers after the first `if` of `free`: the block at `bp` points past the block after
`p`, merged with it where the two touch. -/
def joinUpper (m : ℕ → Header) (bp p : ℕ) : ℕ → Header :=
  if hdrAdd bp (m bp).size = (m p).ptr then
    let m := setSize m bp (wrap ((m bp).size + (m (m p).ptr).size))
    setPtr m bp (m (m p).ptr).ptr
  else setPtr m bp (m p).ptr

/-- The headers after the second `if` of `free`: `p` points at `bp`, or takes it in where the
two touch. -/
def joinLower (m : ℕ → Header) (bp p : ℕ) : ℕ → Header :=
  if hdrAdd p (m p).size = bp then
    let m := setSize m p (wrap ((m p).size + (m bp).size))
    setPtr m p (m bp).ptr
  else setPtr m p bp

/-- `free` is its search followed by the two `if`s. -/
theorem free_eq (fuel : ℕ) (h : Heap) (ap : ℕ) :
    free fuel h ap = (freeScan h.mem (usub ap HSIZE) fuel h.freep).map fun p =>
      { h with mem := joinLower (joinUpper h.mem (usub ap HSIZE) p) (usub ap HSIZE) p,
               freep := p } := by
  rw [free]
  cases freeScan h.mem (usub ap HSIZE) fuel h.freep <;> rfl

/-- Setting a header's size and then its pointer writes the whole header. -/
theorem setPtr_setSize (m : ℕ → Header) (a s v : ℕ) :
    setPtr (setSize m a s) a v = update m a ⟨v, s⟩ := by
  simp [setPtr, setSize]

theorem setPtr_eq {m : ℕ → Header} {a v s : ℕ} (h : (m a).size = s) :
    setPtr m a v = update m a ⟨v, s⟩ := by
  simp [setPtr, ← h]

theorem setSize_of_ne {m : ℕ → Header} {a x : ℕ} (s : ℕ) (h : x ≠ a) : setSize m a s x = m x :=
  update_of_ne h _ _

theorem setPtr_of_ne {m : ℕ → Header} {a x : ℕ} (v : ℕ) (h : x ≠ a) : setPtr m a v x = m x :=
  update_of_ne h _ _

theorem joinUpper_eq {m : ℕ → Header} {b : ℕ × ℕ} {p z : ℕ} {R : List (ℕ × ℕ)}
    (hb : (m b.1).size = b.2) (hpos : 0 < b.2) (hpb : p ≠ b.1)
    (hp : (m p).ptr = (R.map Prod.fst).headD z) (hR : Linked m R z) (hz : blockEnd b ≠ z)
    (hbig : blockEnd b < UINT) (hq : ∀ q ∈ R.head?, blockEnd q < UINT) :
    joinUpper m b.1 p =
      update m b.1 ⟨((joinNext b R).2.map Prod.fst).headD z, (joinNext b R).1.2⟩ := by
  have hend : hdrAdd b.1 (m b.1).size = blockEnd b := by rw [hb]; exact wrap_of_lt hbig
  rcases joinNext_cases b R with ⟨q, R', rfl, hbq, hj⟩ | ⟨hne, hj⟩
  · -- `b` ends where the block after `p` begins: the two become one block
    have hqb : q.1 ≠ b.1 := by rw [← hbq, blockEnd_eq]; omega
    obtain ⟨hqs, hqp, -⟩ := linked_cons.mp hR
    have hsum : wrap (b.2 + q.2) = b.2 + q.2 := by
      have := hq q (by simp)
      simp only [blockEnd_eq] at *
      exact wrap_of_lt (by omega)
    simp only [List.map_cons, List.headD_cons] at hp
    rw [hj, joinUpper, if_pos (by rw [hend, hp, hbq])]
    simp only [setSize_of_ne _ hpb, setSize_of_ne _ hqb, hp, hqp, hb, hqs, hsum, setPtr_setSize]
  · -- apart: `b` points at the block `p` pointed at
    have hnm : hdrAdd b.1 (m b.1).size ≠ (m p).ptr := by
      rw [hend, hp]
      cases R with
      | nil => exact hz
      | cons q R => exact hne q rfl
    rw [hj, joinUpper, if_neg hnm, setPtr_eq hb, hp]

theorem joinLower_eq {m : ℕ → Header} {p b : ℕ × ℕ} {v s : ℕ} (hpb : p.1 ≠ b.1)
    (hp : (m p.1).size = p.2) (hbm : m b.1 = ⟨v, s⟩) (hbig : p.1 + HSIZE * (p.2 + s) < UINT) :
    joinLower m b.1 p.1 =
      if blockEnd p = b.1 then update m p.1 ⟨v, p.2 + s⟩ else update m p.1 ⟨b.1, p.2⟩ := by
  rw [HSIZE_eq] at hbig
  have hend : hdrAdd p.1 (m p.1).size = blockEnd p := by
    rw [hp]
    exact wrap_of_lt (by rw [HSIZE_eq]; omega)
  rw [joinLower, hend]
  split_ifs with hmerge
  · have hsum : wrap (p.2 + s) = p.2 + s := wrap_of_lt (by omega)
    simp only [setSize_of_ne _ (Ne.symm hpb), hbm, hp, hsum, setPtr_setSize]
  · exact setPtr_eq hp

theorem insertAfter_cons (a : ℕ × ℕ) (L : List (ℕ × ℕ)) (p b : ℕ × ℕ) (R : List (ℕ × ℕ)) :
    insertAfter (a :: L) p b R = a :: insertAfter L p b R := by
  simp only [insertAfter, joinPrev]
  split_ifs <;> rfl

theorem fst_mem_insertAfter (L : List (ℕ × ℕ)) (p b : ℕ × ℕ) (R : List (ℕ × ℕ)) :
    p.1 ∈ (insertAfter L p b R).map Prod.fst := by
  rw [insertAfter, joinPrev]
  split_ifs <;> simp

/-- The headers `free` writes at `p` and at the block `c` after it link the list it leaves. -/
theorem linked_joinPrev {m : ℕ → Header} {L R : List (ℕ × ℕ)} {p c : ℕ × ℕ} {z : ℕ}
    (hL : Linked m L p.1) (hR : Linked m R z) (hpc : p.1 ≠ c.1)
    (hout : ∀ x ∈ L ++ R, x.1 ≠ p.1 ∧ x.1 ≠ c.1) :
    Linked (if blockEnd p = c.1 then
        update (update m c.1 ⟨(R.map Prod.fst).headD z, c.2⟩) p.1
          ⟨(R.map Prod.fst).headD z, p.2 + c.2⟩
      else update (update m c.1 ⟨(R.map Prod.fst).headD z, c.2⟩) p.1 ⟨c.1, p.2⟩)
      (joinPrev L p c R) z := by
  -- away from `p` and `c` the headers are the old ones
  have hkeep : ∀ (u v : Header), ∀ x ∈ L ++ R,
      update (update m c.1 u) p.1 v x.1 = m x.1 := fun u v x hx => by
    rw [update_of_ne (hout x hx).1, update_of_ne (hout x hx).2]
  have hL' : ∀ u v, Linked (update (update m c.1 u) p.1 v) L p.1 := fun u v =>
    (linked_congr _ fun x hx => hkeep u v x (List.mem_append_left _ hx)).mpr hL
  have hR' : ∀ u v, Linked (update (update m c.1 u) p.1 v) R z := fun u v =>
    (linked_congr _ fun x hx => hkeep u v x (List.mem_append_right _ hx)).mpr hR
  rw [joinPrev]
  split_ifs with hmerge
  · rw [linked_append, linked_cons]
    simp only [List.map_cons, List.headD_cons, update_self]
    exact ⟨hL' _ _, trivial, trivial, hR' _ _⟩
  · rw [linked_append, linked_cons, linked_cons]
    simp only [List.map_cons, List.headD_cons, update_self, update_of_ne (Ne.symm hpc)]
    exact ⟨hL' _ _, trivial, trivial, trivial, trivial, hR' _ _⟩

/-- A property of blocks that the join of two touching blocks keeps holds of the blocks
`joinNext` leaves. -/
theorem forall_joinNext {P : ℕ × ℕ → Prop} {R : List (ℕ × ℕ)} {b : ℕ × ℕ}
    (hjoin : ∀ x y, P x → P y → blockEnd x = y.1 → P (x.1, x.2 + y.2))
    (hb : P b) (hR : ∀ x ∈ R, P x) :
    ∀ x ∈ (joinNext b R).1 :: (joinNext b R).2, P x := by
  rcases joinNext_cases b R with ⟨q, R', rfl, hq, hj⟩ | ⟨-, hj⟩
  · rw [hj]
    simp only [List.forall_mem_cons] at hR ⊢
    exact ⟨hjoin b q hb hR.1 hq, hR.2⟩
  · rw [hj]
    exact List.forall_mem_cons.mpr ⟨hb, hR⟩

/-- The blocks after the one `joinNext` leaves are a suffix of the old ones, linked as before. -/
theorem joinNext_snd (b : ℕ × ℕ) (R : List (ℕ × ℕ)) :
    (joinNext b R).2 = R ∨ ∃ q, R = q :: (joinNext b R).2 := by
  rcases joinNext_cases b R with ⟨q, R', rfl, -, hj⟩ | ⟨-, hj⟩
  · exact .inr ⟨q, by rw [hj]⟩
  · exact .inl (by rw [hj])

/-- Around the gap after `p`: the blocks before `p` start below it, those after it at or above
the end of the block `b` put back there. -/
theorem gap_sides {L R : List (ℕ × ℕ)} {p b : ℕ × ℕ} (hg : Gapped (L ++ p :: R))
    (hhi : ∀ q ∈ R.head?, blockEnd b ≤ q.1) :
    (∀ x ∈ L, x.1 < p.1) ∧ ∀ x ∈ R, blockEnd b ≤ x.1 := by
  obtain ⟨-, hR, hLR⟩ := List.pairwise_append.mp hg.pairwise
  refine ⟨fun x hx => ?_, fun x hx => ?_⟩
  · have := hLR x hx p (by simp)
    rw [blockEnd_eq] at this
    omega
  · cases R with
    | nil => cases hx
    | cons q R =>
      have hq := hhi q (by simp)
      rcases List.mem_cons.mp hx with rfl | hx
      · exact hq
      · have := (List.pairwise_cons.mp (List.pairwise_cons.mp hR).2).1 x hx
        rw [blockEnd_eq] at this
        omega

theorem FreeList.base_le {h : Heap} {bs : List (ℕ × ℕ)} (hf : FreeList h bs) {z : ℕ}
    (hz : z ∈ nodes h bs) : h.base ≤ z := by
  rcases List.mem_cons.mp hz with rfl | hz
  · exact le_rfl
  · exact le_of_lt ((List.pairwise_cons.mp hf.sorted).1 _ hz)

/-- A property of blocks that the join of two touching blocks keeps holds of every block of the
list `free` leaves. -/
theorem forall_insertAfter {P : ℕ × ℕ → Prop} {L R : List (ℕ × ℕ)} {p b : ℕ × ℕ}
    (hjoin : ∀ x y, P x → P y → blockEnd x = y.1 → P (x.1, x.2 + y.2))
    (hL : ∀ x ∈ L, P x) (hp : P p) (hb : P b) (hR : ∀ x ∈ R, P x) :
    ∀ x ∈ insertAfter L p b R, P x := by
  have hc := forall_joinNext hjoin hb hR
  rw [insertAfter, joinPrev]
  split_ifs with hpc
  · simp only [List.forall_mem_append, List.forall_mem_cons] at hc ⊢
    exact ⟨hL, hjoin p _ hp hc.1 hpc, hc.2⟩
  · simp only [List.forall_mem_append, List.forall_mem_cons] at hc ⊢
    exact ⟨hL, hp, hc⟩

section Free

variable {h : Heap} {bs L R : List (ℕ × ℕ)} {p b : ℕ × ℕ}

/-- The headers after both `if`s of `free`, for a block `b` that starts past `p`'s end: the
block `c` that `joinNext` makes of `b` is written at `b`, and `p` points at it or takes it in. -/
theorem joinLower_joinUpper {m : ℕ → Header} {z : ℕ} (hL : Linked m (p :: R) z)
    (hb : (m b.1).size = b.2) (hpos : 0 < b.2) (hpb : p.1 < b.1) (hz : blockEnd b ≠ z)
    (hbig : blockEnd b < UINT) (hc : blockEnd (joinNext b R).1 < UINT)
    (hq : ∀ q ∈ R.head?, blockEnd q < UINT) (hlo : blockEnd p ≤ b.1) :
    joinLower (joinUpper m b.1 p.1) b.1 p.1 =
      if blockEnd p = b.1 then
        update (update m b.1 ⟨((joinNext b R).2.map Prod.fst).headD z, (joinNext b R).1.2⟩) p.1
          ⟨((joinNext b R).2.map Prod.fst).headD z, p.2 + (joinNext b R).1.2⟩
      else
        update (update m b.1 ⟨((joinNext b R).2.map Prod.fst).headD z, (joinNext b R).1.2⟩) p.1
          ⟨b.1, p.2⟩ := by
  obtain ⟨hps, hpp, hR⟩ := linked_cons.mp hL
  have hc1 := joinNext_fst b R
  have hfit : p.1 + HSIZE * (p.2 + (joinNext b R).1.2) < UINT := by
    rw [blockEnd_eq] at hc hlo
    rw [HSIZE_eq]
    omega
  rw [joinUpper_eq hb hpos (ne_of_lt hpb) hpp hR hz hbig hq,
    joinLower_eq (ne_of_lt hpb) (by rw [update_of_ne (ne_of_lt hpb), hps]) (update_self _ _ _) hfit]

/-- Two touching blocks of at least a unit each, below the process's size, join into one. -/
theorem fits_join {sz : ℕ} (x y : ℕ × ℕ) (hx : 0 < x.2 ∧ blockEnd x ≤ sz)
    (hy : 0 < y.2 ∧ blockEnd y ≤ sz) (hxy : blockEnd x = y.1) :
    0 < (x.1, x.2 + y.2).2 ∧ blockEnd (x.1, x.2 + y.2) ≤ sz := by
  simp only [blockEnd_eq] at *
  omega

/-- **`free` puts a block back into the free list**: for a block `b` of `b.2` units whose header
holds its size, lying in the gap after the free block `p` and below the process's size,
`free(b + 1)` stops at `p` and leaves a free list, `insertAfter L p b R`: `b` merged with the
block after it, and into `p`, where they touch.  Only the headers at `p` and at `b` change, and
`freep` is `p`. -/
theorem FreeList.free_insert (hf : FreeList h bs) (hsplit : (h.base, 0) :: bs = L ++ p :: R)
    (hb : (h.mem b.1).size = b.2) (hpos : 0 < b.2) (hlo : blockEnd p ≤ b.1)
    (hhi : ∀ q ∈ R.head?, blockEnd b ≤ q.1) (hsz : blockEnd b ≤ h.sz) {fuel : ℕ}
    (hfuel : bs.length < fuel) :
    ∃ h' bs', free fuel h (b.1 + HSIZE) = some h' ∧ (h.base, 0) :: bs' = insertAfter L p b R ∧
      FreeList h' bs' ∧ h'.freep = p.1 ∧ h'.base = h.base ∧ h'.sz = h.sz ∧
      ∀ a, a ≠ p.1 → a ≠ b.1 → h'.mem a = h.mem a := by
  have hl := hf.linked
  rw [hsplit] at hl
  obtain ⟨hL, hpR⟩ := linked_append.mp hl
  have hg : Gapped (L ++ p :: R) := hsplit ▸ hf.gapped
  obtain ⟨hLlt, hRge⟩ := gap_sides hg hhi
  have hK := hf.sz_lt_uint
  have hbend : b.1 < blockEnd b := by rw [blockEnd_eq]; omega
  -- `b` starts past `p`: `p`'s header holds `p`'s size, and a block at `b` would end past `b`
  have hpb : p.1 < b.1 := by
    by_contra hge
    have heq : p.1 = b.1 := by rw [blockEnd_eq] at hlo; omega
    have hsize : p.2 = b.2 := by rw [← (linked_cons.mp hpR).1, heq, hb]
    rw [blockEnd_eq] at hlo
    omega
  have hbase : h.base ≤ p.1 := hf.base_le (mem_nodes_of_split hsplit)
  -- the blocks after `p` are free blocks, so they fit below the size
  have hRbs : ∀ x ∈ R, x ∈ bs := fun x hx =>
    mem_of_split hsplit (by simp [hx]) (by have := hRge x hx; omega)
  have hGR : ∀ x ∈ R, 0 < x.2 ∧ blockEnd x ≤ h.sz := fun x hx =>
    ⟨hf.pos x (hRbs x hx), hf.below x (hRbs x hx)⟩
  have hfits := forall_joinNext fits_join ⟨hpos, hsz⟩ hGR
  have hc1 := joinNext_fst b R
  have hR2 : ∀ x ∈ (joinNext b R).2, x ∈ R := fun x hx => by
    rcases joinNext_snd b R with hR | ⟨q, hR⟩
    · rwa [hR] at hx
    · rw [hR]
      exact List.mem_cons_of_mem _ hx
  -- the headers `free` leaves, and the list they link
  have hmem := joinLower_joinUpper hpR hb hpos hpb (z := h.base) (by omega) (by omega)
    (lt_of_le_of_lt (hfits _ (by simp)).2 hK)
    (fun q hq => lt_of_le_of_lt (hGR q (List.mem_of_mem_head? hq)).2 hK) hlo
  have hlink := linked_joinPrev (m := h.mem) (c := (joinNext b R).1) (R := (joinNext b R).2) hL
    (by
      rcases joinNext_snd b R with hR | ⟨q, hR⟩
      · rw [hR]
        exact (linked_cons.mp hpR).2.2
      · exact (linked_cons.mp (hR ▸ (linked_cons.mp hpR).2.2)).2.2)
    (by omega)
    (fun x hx => by
      rcases List.mem_append.mp hx with hx | hx
      · have := hLlt x hx
        omega
      · have := hRge x (hR2 x hx)
        omega)
  rw [hc1] at hlink
  -- the list `free` leaves starts with `base`, and its other blocks fit below the size
  obtain ⟨bs', hbs', hgood⟩ : ∃ bs', (h.base, 0) :: bs' = insertAfter L p b R ∧
      ∀ x ∈ bs', 0 < x.2 ∧ blockEnd x ≤ h.sz := by
    cases L with
    | nil =>
      obtain ⟨rfl, rfl⟩ := List.cons.inj hsplit
      refine ⟨(joinNext b bs).1 :: (joinNext b bs).2, ?_, hfits⟩
      rw [insertAfter, joinPrev, if_neg (by rw [hc1, blockEnd_eq]; simp only; omega)]
      rfl
    | cons a L =>
      obtain ⟨rfl, rfl⟩ := List.cons.inj hsplit
      refine ⟨insertAfter L p b R, (insertAfter_cons _ _ _ _ _).symm,
        forall_insertAfter fits_join
          (fun x hx => ⟨hf.pos x (List.mem_append_left _ hx), hf.below x (List.mem_append_left _ hx)⟩)
          ⟨hf.pos p (by simp), hf.below p (by simp)⟩ ⟨hpos, hsz⟩ hGR⟩
  refine ⟨{ h with mem := joinLower (joinUpper h.mem b.1 p.1) b.1 p.1, freep := p.1 }, bs',
    ?_, hbs', ⟨?_, ?_, fun x hx => (hgood x hx).1, fun x hx => (hgood x hx).2, hf.base_pos,
      hf.base_lt, hf.sz_lt, ?_⟩, rfl, rfl, rfl, fun a hap hab => ?_⟩
  · have hap : b.1 + HSIZE < UINT := by
      have hend := hsz
      rw [blockEnd_eq] at hend
      rw [HSIZE_eq]
      omega
    rw [free_eq, usub_of_le (by omega) hap, Nat.add_sub_cancel,
      hf.freeScan_gap hsplit hpb (fun q hq => lt_of_lt_of_le hbend (hhi q hq)) hfuel]
    rfl
  · show Linked _ ((h.base, 0) :: bs') h.base
    rw [hbs', hmem]
    exact hlink
  · rw [hbs']
    exact gapped_insertAfter hg hlo hhi
  · have := fst_mem_insertAfter L p b R
    rw [← hbs'] at this
    simpa using this
  · show joinLower (joinUpper h.mem b.1 p.1) b.1 p.1 a = h.mem a
    rw [hmem]
    split_ifs <;> rw [update_of_ne hap, update_of_ne hab]

end Free

/-! ### `morecore` -/

/-- `sbrk(k)` with room below `KERNBASE` grows the process by `k` bytes and returns the old
size. -/
theorem sbrk_of_room {sz k : ℕ} (hk : 0 < k) (hroom : sz + k < KERNBASE) :
    sbrk sz k = ((sz : ℤ), sz + k) := by
  have hK := KERNBASE_lt_UINT
  have htarget : toUint ((sz : ℤ) + (k : ℤ)) = sz + k := by
    rw [toUint, Int.emod_eq_of_lt (by omega) (by omega)]
    omega
  simp only [sbrk, growSize, htarget, Nat.cast_pos.mpr hk, if_true, not_le.mpr hroom, if_false]
  simp only [show ¬ sz + k < sz by omega, show sz + k ≠ 0 by omega, if_false]

section Morecore

variable {h : Heap} {bs : List (ℕ × ℕ)}

/-- Writing a header past the end of the process's memory keeps the free list. -/
theorem FreeList.setSize_top (hf : FreeList h bs) (nu sz' : ℕ) (hsz : h.sz ≤ sz')
    (hK : sz' < KERNBASE) :
    FreeList { h with mem := setSize h.mem h.sz nu, sz := sz' } bs where
  linked := by
    refine (linked_congr _ fun x hx => setSize_of_ne _ ?_).mpr hf.linked
    rcases List.mem_cons.mp hx with rfl | hx
    · exact ne_of_lt hf.base_lt
    · have := hf.below x hx
      have := hf.pos x hx
      rw [blockEnd_eq] at *
      omega
  gapped := hf.gapped
  pos := hf.pos
  below := fun x hx => le_trans (hf.below x hx) hsz
  base_pos := hf.base_pos
  base_lt := lt_of_lt_of_le hf.base_lt hsz
  sz_lt := hK
  freep := hf.freep

/-- `base`, of size `0`, covers nothing. -/
theorem cells_base (a : ℕ) (l : List (ℕ × ℕ)) : cells ((a, 0) :: l) = cells l := by
  rw [cells_cons]
  ext x
  simp [blockEnd_eq]

theorem units_base (a : ℕ) (l : List (ℕ × ℕ)) : units ((a, 0) :: l) = units l := by
  simp [units]

end Morecore

/-! ### The fitting block of `malloc` -/

/-- A sublist of gapped blocks is gapped. -/
theorem Gapped.sublist {l l' : List (ℕ × ℕ)} (h : Gapped l) (hs : List.Sublist l' l) : Gapped l' := by
  have : Trans (fun x y : ℕ × ℕ => blockEnd x < y.1) (fun x y : ℕ × ℕ => blockEnd x < y.1)
      (fun x y : ℕ × ℕ => blockEnd x < y.1) := ⟨fun h₁ h₂ => by rw [blockEnd_eq] at *; omega⟩
  exact List.isChain_iff_pairwise.mpr (h.pairwise.sublist hs)

/-- A block cut short at its end keeps a list gapped. -/
theorem gapped_shrink {L R : List (ℕ × ℕ)} {c d : ℕ × ℕ} (hg : Gapped (L ++ c :: R))
    (hfst : d.1 = c.1) (hend : blockEnd d ≤ blockEnd c) : Gapped (L ++ d :: R) := by
  obtain ⟨hL, hR⟩ := List.isChain_split.mp hg
  refine List.isChain_split.mpr ⟨(gapped_concat_of_fst L hfst.symm).mp hL, ?_⟩
  refine List.isChain_cons.mpr ⟨fun q hq => ?_, (List.isChain_cons.mp hR).2⟩
  exact lt_of_le_of_lt hend ((List.isChain_cons.mp hR).1 q hq)

/-- A list that starts with `a` keeps starting with it when a block after the first is
replaced. -/
theorem exists_tail {a x : ℕ × ℕ} {bs L M : List (ℕ × ℕ)} (hsplit : a :: bs = L ++ x :: M)
    (M' : List (ℕ × ℕ)) : ∃ bs', a :: bs' = L ++ x :: M' := by
  cases L with
  | nil =>
    obtain ⟨rfl, -⟩ := List.cons.inj hsplit
    exact ⟨M', rfl⟩
  | cons b L =>
    obtain ⟨rfl, -⟩ := List.cons.inj hsplit
    exact ⟨L ++ x :: M', rfl⟩

section Carve

variable {h : Heap} {bs L R : List (ℕ × ℕ)} {x p : ℕ × ℕ}

/-- The blocks of a free list with one block cut short or taken out are free blocks, or the
shortened block. -/
theorem FreeList.fits_of_sub (hf : FreeList h bs) {bs' : List (ℕ × ℕ)} {c : ℕ × ℕ}
    (hg : Gapped ((h.base, 0) :: bs')) (hsub : ∀ y ∈ (h.base, 0) :: bs', y ∈ (h.base, 0) :: bs ∨ y = c)
    (hc : 0 < c.2 ∧ blockEnd c ≤ h.sz) : ∀ y ∈ bs', 0 < y.2 ∧ blockEnd y ≤ h.sz := by
  intro y hy
  have habove : h.base < y.1 := by
    have := (List.pairwise_cons.mp hg.pairwise).1 y hy
    simpa [blockEnd_eq] using this
  rcases hsub y (List.mem_cons_of_mem _ hy) with hy' | rfl
  · rcases List.mem_cons.mp hy' with rfl | hy'
    · exact absurd habove (lt_irrefl _)
    · exact ⟨hf.pos y hy', hf.below y hy'⟩
  · exact hc

/-- A block that every block of a list ends before, or starts after, shares no memory with it. -/
theorem disjoint_cells_of_sep {l : List (ℕ × ℕ)} {a : ℕ × ℕ}
    (h : ∀ c ∈ l, blockEnd c ≤ a.1 ∨ blockEnd a ≤ c.1) : Disjoint (cells l) (cells [a]) := by
  rw [Set.disjoint_left]
  rintro y ⟨c, hc, hcy⟩ ⟨a', ha', hay⟩
  rw [List.mem_singleton] at ha'
  subst ha'
  rcases h c hc with h₁ | h₁ <;> omega

theorem setSize_ptr (m : ℕ → Header) (a v b : ℕ) : (setSize m a v b).ptr = (m b).ptr := by
  by_cases hb : b = a
  · subst hb
    simp [setSize]
  · rw [setSize_of_ne _ hb]

/-- Around the block `p` after `x` on a gapped list: the blocks before `x` end below it, `x` ends
below `p`, and the blocks after `p` start past its end. -/
theorem fit_sides {L R : List (ℕ × ℕ)} {x p : ℕ × ℕ} (hg : Gapped (L ++ x :: p :: R)) :
    (∀ c ∈ L, blockEnd c < x.1) ∧ blockEnd x < p.1 ∧ ∀ c ∈ R, blockEnd p < c.1 := by
  obtain ⟨-, hxpR, hLxpR⟩ := List.pairwise_append.mp hg.pairwise
  obtain ⟨hx, hpR⟩ := List.pairwise_cons.mp hxpR
  exact ⟨fun c hc => hLxpR c hc x (by simp), hx p (by simp), (List.pairwise_cons.mp hpR).1⟩

/-- The two branches of the fitting block in `mallocLoop`, read on the free list. -/
theorem FreeList.carve (hf : FreeList h bs)
    (hsplit : (h.base, 0) :: bs = L ++ x :: p :: R) {n : ℕ} (hn : n ≤ p.2) (hn0 : 0 < n)
    (fuel : ℕ) :
    ∃ h' bs', mallocLoop n (fuel + 1) h x.1 p.1 = some (h', p.1 + HSIZE * (p.2 - n) + HSIZE) ∧
      (h.base, 0) :: bs' = L ++ x :: (if p.2 = n then R else (p.1, p.2 - n) :: R) ∧
      FreeList h' bs' ∧ (h'.mem (p.1 + HSIZE * (p.2 - n))).size = n ∧ h'.freep = x.1 ∧
      h'.base = h.base ∧ h'.sz = h.sz ∧
      cells bs = cells bs' ∪ cells [(p.1 + HSIZE * (p.2 - n), n)] ∧
      Disjoint (cells bs') (cells [(p.1 + HSIZE * (p.2 - n), n)]) := by
  have hl := hf.linked
  rw [hsplit, linked_append, linked_cons, linked_cons] at hl
  obtain ⟨hL, hxs, hxp, hps, hpp, hR⟩ := hl
  simp only [List.map_cons, List.headD_cons] at hL hxp
  have hg : Gapped (L ++ x :: p :: R) := hsplit ▸ hf.gapped
  obtain ⟨hLx, hxlt, hRp⟩ := fit_sides hg
  -- `p` is a free block, not `base`
  have hbase : h.base ≤ x.1 := hf.base_le (mem_nodes_of_split hsplit)
  have hpbs : p ∈ bs :=
    mem_of_split hsplit (by simp) (by rw [blockEnd_eq] at hxlt; omega)
  have hpsz := hf.below p hpbs
  have hK := hf.sz_lt_uint
  have hafit : p.1 + HSIZE * (p.2 - n) + HSIZE < UINT := by
    rw [blockEnd_eq] at hpsz
    rw [HSIZE_eq]
    omega
  have hret : hdrAdd (p.1 + HSIZE * (p.2 - n)) 1 = p.1 + HSIZE * (p.2 - n) + HSIZE :=
    wrap_of_lt (by simpa using hafit)
  -- every block but `p` ends before `p` or starts past it
  have hsep : ∀ c ∈ L ++ x :: R, blockEnd c < p.1 ∨ blockEnd p < c.1 := by
    intro c hc
    simp only [List.mem_append, List.mem_cons] at hc
    rcases hc with hc | rfl | hc
    · have := hLx c hc
      rw [blockEnd_eq] at this hxlt ⊢
      omega
    · exact .inl hxlt
    · exact .inr (hRp c hc)
  have hne : ∀ c ∈ L ++ x :: R, c.1 ≠ p.1 ∧ c.1 ≠ p.1 + HSIZE * (p.2 - n) := fun c hc => by
    have := hsep c hc
    rw [blockEnd_eq, blockEnd_eq] at this
    rw [HSIZE_eq] at *
    omega
  have hsub : ∀ y ∈ L ++ x :: R, y ∈ L ++ x :: p :: R := fun y hy => by
    simp only [List.mem_append, List.mem_cons] at hy ⊢
    tauto
  -- the block after `x` is `p`'s successor, or `p` cut short
  have hlinkL : ∀ m : ℕ → Header, (∀ c ∈ L ++ R, m c.1 = h.mem c.1) →
      Linked m L x.1 ∧ Linked m R h.base := fun m hm =>
    ⟨(linked_congr _ fun c hc => hm c (by simp [hc])).mpr hL,
      (linked_congr _ fun c hc => hm c (by simp [hc])).mpr hR⟩
  have hnex : ∀ c ∈ L ++ R, c.1 ≠ x.1 := fun c hc => by
    have := hsep c (by simp only [List.mem_append, List.mem_cons] at hc ⊢; tauto)
    rcases List.mem_append.mp hc with hc | hc
    · have := hLx c hc
      rw [blockEnd_eq] at this
      omega
    · have := hRp c hc
      rw [blockEnd_eq] at this hxlt
      omega
  by_cases hex : p.2 = n
  · -- a block of exactly `n` units leaves the list
    have hap : (p.1, n) = p := by rw [← hex]
    simp only [show p.2 - n = 0 by omega, Nat.mul_zero, Nat.add_zero, hap]
    obtain ⟨bs', hbs'⟩ := exists_tail hsplit R
    have hg' : Gapped ((h.base, 0) :: bs') := by
      rw [hbs']
      exact hg.sublist (List.Sublist.append_left (List.Sublist.cons_cons x (List.sublist_cons_self p R)) L)
    have hfits := hf.fits_of_sub hg' (c := p) (fun y hy => .inl (by rw [hsplit]; exact hsub y (hbs' ▸ hy)))
      ⟨hf.pos p hpbs, hpsz⟩
    have hmem : setPtr h.mem x.1 (h.mem p.1).ptr =
        update h.mem x.1 ⟨(R.map Prod.fst).headD h.base, x.2⟩ := by
      rw [setPtr_eq hxs, hpp]
    refine ⟨{ h with mem := setPtr h.mem x.1 (h.mem p.1).ptr, freep := x.1 }, bs', ?_,
      by rw [if_pos hex]; exact hbs', ⟨?_, hg', fun y hy => (hfits y hy).1, fun y hy => (hfits y hy).2,
        hf.base_pos, hf.base_lt, hf.sz_lt, ?_⟩, ?_, rfl, rfl, rfl, ?_, ?_⟩
    · simp only [show p.2 - n = 0 by omega, Nat.mul_zero, Nat.add_zero] at hret
      rw [mallocLoop, if_pos (by rw [hps]; exact hn), if_pos (by rw [hps]; exact hex), hret]
    · show Linked _ ((h.base, 0) :: bs') h.base
      have hk := hlinkL (update h.mem x.1 ⟨(R.map Prod.fst).headD h.base, x.2⟩)
        fun c hc => update_of_ne (hnex c hc) _ _
      rw [hbs', hmem, linked_append, linked_cons]
      simp only [List.map_cons, List.headD_cons, update_self]
      exact ⟨hk.1, trivial, trivial, hk.2⟩
    · show x.1 ∈ ((h.base, 0) :: bs').map Prod.fst
      rw [hbs']
      simp
    · show (setPtr h.mem x.1 (h.mem p.1).ptr p.1).size = n
      rw [setPtr_size, hps, hex]
    · rw [← cells_base h.base bs, hsplit, ← cells_base h.base bs', hbs']
      simp only [cells_append, cells_cons, cells_nil, Set.union_empty]
      ac_rfl
    · refine disjoint_cells_of_sep fun c hc => ?_
      have hc' : c ∈ L ++ x :: R := by
        rw [← hbs']
        exact List.mem_cons_of_mem _ hc
      exact (hsep c hc').imp le_of_lt le_of_lt
  · -- a larger block gives its tail and stays, cut short
    have hlt : n < p.2 := by omega
    have hpa : p.1 ≠ p.1 + HSIZE * (p.2 - n) := by
      rw [HSIZE_eq]
      omega
    have hq : hdrAdd p.1 (p.2 - n) = p.1 + HSIZE * (p.2 - n) := wrap_of_lt (by omega)
    have hend : blockEnd (p.1 + HSIZE * (p.2 - n), n) = blockEnd p := by
      rw [blockEnd_eq, blockEnd_eq, HSIZE_eq]
      simp only
      omega
    obtain ⟨bs', hbs'⟩ := exists_tail hsplit ((p.1, p.2 - n) :: R)
    have hg' : Gapped ((h.base, 0) :: bs') := by
      have := gapped_shrink (L := L ++ [x]) (c := p) (d := (p.1, p.2 - n)) (by simpa using hg) rfl
        (by rw [blockEnd_eq, blockEnd_eq]; simp only; omega)
      rw [hbs']
      simpa using this
    have hfits := hf.fits_of_sub hg' (c := (p.1, p.2 - n))
      (fun y hy => by
        rw [hbs'] at hy
        rw [hsplit]
        simp only [List.mem_append, List.mem_cons] at hy ⊢
        tauto)
      ⟨by simp only; omega, le_trans (by rw [blockEnd_eq, blockEnd_eq]; simp only; omega) hpsz⟩
    -- the headers: `p` keeps its link with fewer units, the tail gets a header of `n`
    have hm2 : ∀ c ∈ L ++ x :: R,
        setSize (setSize h.mem p.1 (p.2 - n)) (p.1 + HSIZE * (p.2 - n)) n c.1 = h.mem c.1 :=
      fun c hc => by rw [setSize_of_ne _ (hne c hc).2, setSize_of_ne _ (hne c hc).1]
    have hk := hlinkL (setSize (setSize h.mem p.1 (p.2 - n)) (p.1 + HSIZE * (p.2 - n)) n)
      fun c hc => hm2 c (by simp only [List.mem_append, List.mem_cons] at hc ⊢; tauto)
    refine ⟨⟨setSize (setSize h.mem p.1 (p.2 - n)) (p.1 + HSIZE * (p.2 - n)) n, x.1, h.base,
      h.sz⟩, bs', ?_, by rw [if_neg hex]; exact hbs', ⟨?_, hg', fun y hy => (hfits y hy).1,
        fun y hy => (hfits y hy).2, hf.base_pos, hf.base_lt, hf.sz_lt, ?_⟩, setSize_self _ _ _,
        rfl, rfl, rfl, ?_, ?_⟩
    · rw [mallocLoop, if_pos (by rw [hps]; exact hn), if_neg (by rw [hps]; exact hex)]
      simp only [hps, setSize_self, hq, hret]
    · show Linked _ ((h.base, 0) :: bs') h.base
      rw [hbs', linked_append, linked_cons, linked_cons]
      simp only [List.map_cons, List.headD_cons, hm2 x (by simp), setSize_of_ne _ hpa,
        setSize_self, setSize_ptr]
      exact ⟨hk.1, hxs, hxp, trivial, hpp, hk.2⟩
    · show x.1 ∈ ((h.base, 0) :: bs').map Prod.fst
      rw [hbs']
      simp
    · have hjoin := cells_join (b := (p.1, p.2 - n)) (q := (p.1 + HSIZE * (p.2 - n), n)) rfl
      have hpeq : ((p.1, p.2 - n + n) : ℕ × ℕ) = p := by
        ext
        · rfl
        · simp only
          omega
      simp only at hjoin
      rw [hpeq] at hjoin
      rw [← cells_base h.base bs, hsplit, ← cells_base h.base bs', hbs']
      simp only [cells_append, cells_cons, cells_nil, Set.union_empty]
      rw [hjoin]
      ac_rfl
    · refine disjoint_cells_of_sep fun c hc => ?_
      have hc' : c ∈ L ++ x :: (p.1, p.2 - n) :: R := by
        rw [← hbs']
        exact List.mem_cons_of_mem _ hc
      simp only [List.mem_append, List.mem_cons] at hc'
      rcases hc' with hc' | rfl | rfl | hc'
      · have := hLx c hc'
        rw [blockEnd_eq] at hxlt
        exact .inl (by simp only; omega)
      · exact .inl (by simp only; omega)
      · exact .inl le_rfl
      · rw [hend]
        exact .inr (le_of_lt (hRp c hc'))

/-- **`malloc` carves a fitting block**: where the block `p` after `prevp = x` on the free list
has at least `n` units, the loop of `malloc` takes its last `n` units, the whole block when it
fits exactly.  It returns one header past the carved block, whose header holds `n`, and leaves a
free list with `p` cut short by `n` units, or taken out when nothing is left, and `freep` at
`x`; the free memory is what it was less the carved block, which no free block shares. -/
theorem FreeList.mallocLoop_fit (hf : FreeList h bs)
    (hsplit : (h.base, 0) :: bs = L ++ x :: p :: R) {n : ℕ} (hn : n ≤ p.2) (hn0 : 0 < n)
    (fuel : ℕ) :
    ∃ h' bs', mallocLoop n (fuel + 1) h x.1 p.1 = some (h', p.1 + HSIZE * (p.2 - n) + HSIZE) ∧
      (h.base, 0) :: bs' = L ++ x :: (if p.2 = n then R else (p.1, p.2 - n) :: R) ∧
      FreeList h' bs' ∧ (h'.mem (p.1 + HSIZE * (p.2 - n))).size = n ∧ h'.freep = x.1 ∧
      h'.base = h.base ∧ h'.sz = h.sz ∧
      cells bs = cells bs' ∪ cells [(p.1 + HSIZE * (p.2 - n), n)] ∧
      Disjoint (cells bs') (cells [(p.1 + HSIZE * (p.2 - n), n)]) :=
  hf.carve hsplit hn hn0 fuel

/-- A block too small for the request, other than `freep`, is passed over. -/
theorem mallocLoop_skip {n fuel prevp c : ℕ} (hsmall : (h.mem c).size < n) (hne : c ≠ h.freep) :
    mallocLoop n (fuel + 1) h prevp c = mallocLoop n fuel h c (h.mem c).ptr := by
  rw [mallocLoop, if_neg (by omega), if_neg hne]

/-- From `x`, `malloc`'s loop walks past the blocks `M` that are too small and not `freep`, to the
block `p` after them, given a round for each. -/
theorem FreeList.mallocLoop_walk (hf : FreeList h bs) {M : List (ℕ × ℕ)} {n : ℕ}
    (hsplit : (h.base, 0) :: bs = L ++ x :: (M ++ p :: R)) (hsmall : ∀ c ∈ M, c.2 < n)
    (hne : ∀ c ∈ M, c.1 ≠ h.freep) (fuel : ℕ) :
    mallocLoop n (fuel + M.length + 1) h x.1 (h.mem x.1).ptr =
      mallocLoop n (fuel + 1) h ((x :: M).getLast (List.cons_ne_nil _ _)).1 p.1 := by
  -- induction on the blocks passed over, the block before them moving along
  induction M generalizing L x with
  | nil =>
    have hl := hf.linked
    rw [hsplit] at hl
    simp [hl.mid.2]
  | cons c M ih =>
    have hl := hf.linked
    rw [hsplit] at hl
    have hxc : (h.mem x.1).ptr = c.1 := by simpa using hl.mid.2
    have hcs : (h.mem c.1).size = c.2 := by
      have hl' : Linked h.mem ((L ++ [x]) ++ c :: (M ++ p :: R)) h.base := by simpa using hl
      exact hl'.mid.1
    rw [hxc, show fuel + (c :: M).length + 1 = fuel + M.length + 1 + 1 by simp; omega,
      mallocLoop_skip (by rw [hcs]; exact hsmall c (by simp)) (hne c (by simp)),
      ih (L := L ++ [x]) (by simpa using hsplit) (fun d hd => hsmall d (by simp [hd]))
        (fun d hd => hne d (by simp [hd])), List.getLast_cons_cons]

/-- **`malloc` takes the first block that fits**: where the blocks after `freep = x` up to `p` are
too small for `n` units and `p` holds at least `n`, `malloc`'s loop from `freep`, given a round
for each block passed over, carves the request from `p`'s tail, leaving a free list without the
carved memory. -/
theorem FreeList.malloc_first_fit (hf : FreeList h bs) {M : List (ℕ × ℕ)} {n : ℕ}
    (hsplit : (h.base, 0) :: bs = L ++ x :: (M ++ p :: R)) (hx : h.freep = x.1)
    (hsmall : ∀ c ∈ M, c.2 < n) (hn : n ≤ p.2) (hn0 : 0 < n) (fuel : ℕ) :
    ∃ h' bs', mallocLoop n (fuel + M.length + 1) h h.freep (h.mem h.freep).ptr =
        some (h', p.1 + HSIZE * (p.2 - n) + HSIZE) ∧
      FreeList h' bs' ∧ (h'.mem (p.1 + HSIZE * (p.2 - n))).size = n ∧
      cells bs = cells bs' ∪ cells [(p.1 + HSIZE * (p.2 - n), n)] ∧
      Disjoint (cells bs') (cells [(p.1 + HSIZE * (p.2 - n), n)]) := by
  -- the blocks passed over are not `freep`, the addresses on the list being distinct
  have hne : ∀ c ∈ M, c.1 ≠ h.freep := by
    intro c hc
    have hnd := hf.nodup
    rw [nodes_of_split hsplit, hx] at *
    simp only [List.map_append, List.map_cons, List.nodup_append, List.nodup_cons,
      List.mem_append, List.mem_map, List.mem_cons] at hnd
    intro hcx
    exact hnd.2.1.1 (.inl ⟨c, hc, hcx⟩)
  -- the block before `p` is the last of `x :: M`
  have hsplit' : (h.base, 0) :: bs =
      (L ++ (x :: M).dropLast) ++ (x :: M).getLast (List.cons_ne_nil _ _) :: p :: R := by
    rw [hsplit, List.append_assoc, ← List.cons_append]
    congr 1
    nth_rewrite 1 [← List.dropLast_append_getLast (List.cons_ne_nil x M)]
    simp
  obtain ⟨h', bs', hrun, -, hf', hsize, -, -, -, hcells, hdisj⟩ := hf.carve hsplit' hn hn0 fuel
  refine ⟨h', bs', ?_, hf', hsize, hcells, hdisj⟩
  rw [hx, hf.mallocLoop_walk hsplit hsmall hne fuel, hrun]

end Carve

/-- A heap with `base` at 16, one free block of two units at 64, and a block of three units in
use at 40, which ends where the free one begins. -/
def usedHeap : Heap :=
  ⟨fun a => if a = 16 then ⟨64, 0⟩ else if a = 64 then ⟨16, 2⟩ else if a = 40 then ⟨0, 3⟩
    else ⟨0, 0⟩, 16, 16, 4096⟩

theorem usedHeap_freeList : FreeList usedHeap [(64, 2)] := by
  refine ⟨?_, ?_, ?_, ?_, ?_, ?_, ?_, ?_⟩ <;>
    simp [usedHeap, Gapped, blockEnd, HSIZE, KERNBASE]

theorem usedHeap_free :
    ∃ h' bs', free 2 usedHeap (40 + HSIZE) = some h' ∧
      (usedHeap.base, 0) :: bs' = insertAfter [] (16, 0) (40, 3) [(64, 2)] ∧
      FreeList h' bs' ∧ h'.freep = 16 ∧ h'.base = usedHeap.base ∧ h'.sz = usedHeap.sz ∧
      ∀ a, a ≠ 16 → a ≠ 40 → h'.mem a = usedHeap.mem a :=
  usedHeap_freeList.free_insert (L := []) (p := (16, 0)) (R := [(64, 2)]) (b := (40, 3)) rfl rfl
    (by decide) (by simp [blockEnd, HSIZE]) (by simp [blockEnd, HSIZE])
    (by simp [usedHeap, blockEnd, HSIZE]) (by decide)

theorem usedHeap_malloc :
    ∃ h' bs', mallocLoop 1 1 usedHeap 16 64 = some (h', 64 + HSIZE * (2 - 1) + HSIZE) ∧
      (usedHeap.base, 0) :: bs' = [] ++ (16, 0) :: (if 2 = 1 then [] else [(64, 2 - 1)]) ∧
      FreeList h' bs' ∧ (h'.mem (64 + HSIZE * (2 - 1))).size = 1 ∧ h'.freep = 16 ∧
      h'.base = usedHeap.base ∧ h'.sz = usedHeap.sz ∧
      cells [(64, 2)] = cells bs' ∪ cells [(64 + HSIZE * (2 - 1), 1)] ∧
      Disjoint (cells bs') (cells [(64 + HSIZE * (2 - 1), 1)]) :=
  usedHeap_freeList.mallocLoop_fit (L := []) (x := (16, 0)) (p := (64, 2)) (R := []) rfl
    (by decide) (by decide) 0

/-- A heap with `base` at 16 and two free blocks: one unit at 64, four units at 96. -/
def twoHeap : Heap :=
  ⟨fun a => if a = 16 then ⟨64, 0⟩ else if a = 64 then ⟨96, 1⟩ else if a = 96 then ⟨16, 4⟩
    else ⟨0, 0⟩, 16, 16, 4096⟩

theorem twoHeap_freeList : FreeList twoHeap [(64, 1), (96, 4)] := by
  refine ⟨?_, ?_, ?_, ?_, ?_, ?_, ?_, ?_⟩ <;>
    simp [twoHeap, Gapped, blockEnd, HSIZE, KERNBASE]

theorem twoHeap_malloc :
    ∃ h' bs', mallocLoop 2 (0 + [(64, 1)].length + 1) twoHeap twoHeap.freep
        (twoHeap.mem twoHeap.freep).ptr = some (h', 96 + HSIZE * (4 - 2) + HSIZE) ∧
      FreeList h' bs' ∧ (h'.mem (96 + HSIZE * (4 - 2))).size = 2 ∧
      cells [(64, 1), (96, 4)] = cells bs' ∪ cells [(96 + HSIZE * (4 - 2), 2)] ∧
      Disjoint (cells bs') (cells [(96 + HSIZE * (4 - 2), 2)]) :=
  twoHeap_freeList.malloc_first_fit (L := []) (x := (16, 0)) (M := [(64, 1)]) (p := (96, 4))
    (R := []) rfl rfl (by decide) (by decide) (by decide) 0

end Xv6Lab.Umalloc
