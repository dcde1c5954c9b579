import Xv6Lab.Kernel.Vm
import Xv6Lab.Lib.Run

/-!
# What `allocuvm` and `deallocuvm` do to an address space

`PageDir.lookup d va` is what the MMU sees at `va`: the entry of `va`'s page when its page table
and the entry are both present.  Over it:

* `deallocLoop_spec` — `deallocuvm`'s loop clears every page from its start up to `oldsz`, hands
  each present page's frame to `kfree` in address order, and keeps every table, also across the
  jump over an absent table;
* `allocLoop_spec` — `allocuvm`'s loop, from a range where nothing is mapped, either maps every
  page of the range to a distinct frame from the free list or, having run out of memory, leaves
  the address space as it found it and gives every frame it mapped back to `kfree`;
* `uvm_contract` — the two calls' contract, from `allocuvm_spec` and `deallocuvm_spec`.  It needs
  the range `allocuvm` grows over to be unmapped: a present page there is a `remap` panic
  (`allocuvm_remap`).

The free list is followed exactly: `Kmem.giveBack` is what a run of `kfree`s leaves, and every
page a call takes from the free list is accounted for as a mapped frame, a frame given back or a
new page table.
-/

namespace Xv6Lab

open Function Run

/-! ### The address space of a directory -/

/-- What the MMU sees at `va`: the entry of `va`'s page, when its table and the entry are
present. -/
def PageDir.lookup (d : PageDir) (va : ℕ) : Option Pte :=
  (d.pde (PDX va)).bind fun _ => d.pte (va / PGSIZE)

/-- The directory `walkpgdir(pgdir, va, 1)` builds with table page `t`: entry `PDX(va)` set and
the new table's entries clear. -/
def PageDir.addTable (d : PageDir) (a t : ℕ) : PageDir :=
  { d with
    pde := update d.pde (PDX a) (some t)
    pte := fun n => if n / NPTENTRIES = PDX a then none else d.pte n }

theorem PGSIZE_pos : 0 < PGSIZE := by decide

theorem PDX_eq (va : ℕ) : PDX va = va / PGSIZE / NPTENTRIES % NPDENTRIES := by
  unfold PDX PGSIZE NPTENTRIES
  rw [Nat.div_div_eq_div_mul]
  norm_num

theorem PDX_of_lt {va : ℕ} (h : va < UINT) : PDX va = va / PGSIZE / NPTENTRIES := by
  rw [PDX_eq]
  unfold PGSIZE NPTENTRIES NPDENTRIES
  unfold UINT at h
  omega

/-- The lookup depends on the page only. -/
theorem PageDir.lookup_congr (d : PageDir) {va va' : ℕ} (h : va / PGSIZE = va' / PGSIZE) :
    d.lookup va = d.lookup va' := by
  unfold PageDir.lookup
  rw [PDX_eq va, PDX_eq va', h]

theorem PageDir.lookup_of_pde_none {d : PageDir} {va : ℕ} (h : d.pde (PDX va) = none) :
    d.lookup va = none := by
  simp [PageDir.lookup, h]

theorem PageDir.lookup_of_pde_some {d : PageDir} {va t : ℕ} (h : d.pde (PDX va) = some t) :
    d.lookup va = d.pte (va / PGSIZE) := by
  simp [PageDir.lookup, h]

theorem lookup_of_walkpgdir {d : PageDir} {va : ℕ} {x : Option Pte} (h : walkpgdir d va = some x) :
    d.lookup va = x := by
  unfold walkpgdir at h
  obtain ⟨t, ht, rfl⟩ := Option.map_eq_some_iff.mp h
  exact PageDir.lookup_of_pde_some ht

theorem pde_of_walkpgdir {d : PageDir} {va : ℕ} (h : walkpgdir d va = none) :
    d.pde (PDX va) = none := by
  unfold walkpgdir at h
  exact Option.map_eq_none_iff.mp h

/-- Setting the entry of `a`'s page in a present table changes the lookup of that page only. -/
theorem PageDir.lookup_setPte {d : PageDir} {a t : ℕ} (e : Option Pte)
    (hpde : d.pde (PDX a) = some t) (va : ℕ) :
    (d.setPte a e).lookup va = if va / PGSIZE = a / PGSIZE then e else d.lookup va := by
  by_cases h : va / PGSIZE = a / PGSIZE
  · have hpdx : PDX va = PDX a := by rw [PDX_eq, PDX_eq a, h]
    simp [PageDir.lookup, PageDir.setPte, hpdx, hpde, h]
  · simp [PageDir.lookup, PageDir.setPte, h]

@[simp] theorem PageDir.setPte_pde (d : PageDir) (a : ℕ) (e : Option Pte) :
    (d.setPte a e).pde = d.pde := rfl

@[simp] theorem PageDir.setPte_root (d : PageDir) (a : ℕ) (e : Option Pte) :
    (d.setPte a e).root = d.root := rfl

/-- A new, clear table changes no lookup of a 32-bit address. -/
theorem PageDir.lookup_addTable {d : PageDir} {a : ℕ} (t : ℕ) (hpde : d.pde (PDX a) = none)
    {va : ℕ} (hva : va < UINT) : (d.addTable a t).lookup va = d.lookup va := by
  by_cases h : PDX va = PDX a
  · have hn : va / PGSIZE / NPTENTRIES = PDX a := by rw [← PDX_of_lt hva, h]
    rw [PageDir.lookup_of_pde_none (d := d) (h ▸ hpde)]
    simp [PageDir.lookup, PageDir.addTable, hn]
  · have hn : ¬va / PGSIZE / NPTENTRIES = PDX a := by rw [← PDX_of_lt hva]; exact h
    simp [PageDir.lookup, PageDir.addTable, h, hn]

@[simp] theorem PageDir.addTable_pde_self (d : PageDir) (a t : ℕ) :
    (d.addTable a t).pde (PDX a) = some t := by
  simp [PageDir.addTable]

theorem PageDir.addTable_pde_ne (d : PageDir) {a i : ℕ} (t : ℕ) (h : i ≠ PDX a) :
    (d.addTable a t).pde i = d.pde i := by
  simp [PageDir.addTable, h]

@[simp] theorem PageDir.addTable_root (d : PageDir) (a t : ℕ) : (d.addTable a t).root = d.root :=
  rfl

/-! ### One page of `mappages` -/

theorem walkpgdirAlloc_of_pde {d : PageDir} {m : Kmem} {va t : ℕ} (h : d.pde (PDX va) = some t) :
    walkpgdirAlloc d m va = some (d, m) := by
  simp [walkpgdirAlloc, h]

theorem mappages_one_page {d : PageDir} {m : Kmem} {a pa perm : ℕ} (ha : PGSIZE ∣ a)
    (hlt : a < KERNBASE) : mappages d m a PGSIZE pa perm = mappagesLoop perm 1 d m a pa := by
  obtain ⟨q, rfl⟩ := ha
  -- `a` and `a + PGSIZE - 1` round down to the same page, and `usub a a` is `0`
  have h₁ : pgrounddown (PGSIZE * q) = PGSIZE * q := by
    unfold pgrounddown PGSIZE
    omega
  have h₂ : pgrounddown (wrap (PGSIZE * q + PGSIZE + UINT - 1)) = PGSIZE * q := by
    unfold pgrounddown wrap UINT PGSIZE
    unfold KERNBASE PGSIZE at hlt
    omega
  have h₃ : usub (PGSIZE * q) (PGSIZE * q) / PGSIZE + 1 = 1 := by
    unfold usub wrap UINT PGSIZE
    omega
  unfold mappages
  dsimp only
  rw [h₁, h₂, h₃]

theorem kalloc_cons {m : Kmem} {r : ℕ} {rs : List ℕ} (hm : m.freelist = r :: rs) :
    kalloc m = ({ m with freelist := rs }, r) := by
  unfold kalloc
  rw [hm]

/-- `mappages` of one page whose table is present and entry clear: the entry is set. -/
theorem mappages_of_pde {d : PageDir} {m : Kmem} {a t : ℕ} (e : Pte) (ha : PGSIZE ∣ a)
    (hlt : a < KERNBASE) (hpde : d.pde (PDX a) = some t) (hnone : d.lookup a = none) :
    mappages d m a PGSIZE e.pa e.perm = .ok (d.setPte a (some e), m, true) := by
  rw [PageDir.lookup_of_pde_some hpde] at hnone
  rw [mappages_one_page ha hlt, mappagesLoop, walkpgdirAlloc_of_pde hpde]
  simp only [hnone, Option.isSome_none, Bool.false_eq_true, if_false]
  rfl

/-- `mappages` of one page whose table is absent: `kalloc`'s page `t` becomes the table, clear
but for the new entry. -/
theorem mappages_of_no_pde {d : PageDir} {m : Kmem} {a t : ℕ} {rest : List ℕ} (e : Pte)
    (ha : PGSIZE ∣ a) (hlt : a < KERNBASE) (hpde : d.pde (PDX a) = none)
    (hm : m.freelist = t :: rest) (ht : t ≠ 0) :
    mappages d m a PGSIZE e.pa e.perm =
      .ok ((d.addTable a t).setPte a (some e), { m with freelist := rest }, true) := by
  have hw : walkpgdirAlloc d m a = some (d.addTable a t, { m with freelist := rest }) := by
    simp [walkpgdirAlloc, hpde, kalloc_cons hm, ht, PageDir.addTable]
  have hclear : (d.addTable a t).pte (a / PGSIZE) = none := by
    have hpdx : a / PGSIZE / NPTENTRIES = PDX a :=
      (PDX_of_lt (by unfold KERNBASE UINT at *; omega)).symm
    simp [PageDir.addTable, hpdx]
  rw [mappages_one_page ha hlt, mappagesLoop, hw]
  simp only [hclear, Option.isSome_none, Bool.false_eq_true, if_false]
  rfl

/-- `mappages` of one page whose table is absent, with the free list empty: `-1`, nothing
changed. -/
theorem mappages_of_no_memory {d : PageDir} {m : Kmem} {a : ℕ} (pa perm : ℕ) (ha : PGSIZE ∣ a)
    (hlt : a < KERNBASE) (hpde : d.pde (PDX a) = none) (hm : m.freelist = []) :
    mappages d m a PGSIZE pa perm = .ok (d, m, false) := by
  have hw : walkpgdirAlloc d m a = none := by
    simp [walkpgdirAlloc, hpde, kalloc, hm]
  rw [mappages_one_page ha hlt, mappagesLoop, hw]

/-! ### Giving frames back -/

/-- What `kfree` of each page of `F`, last first, leaves: `F` in front of the free list and of
the log of freed pages. -/
def Kmem.giveBack (m : Kmem) (F : List ℕ) : Kmem :=
  { m with freelist := F ++ m.freelist, kfreed := F ++ m.kfreed }

@[simp] theorem Kmem.giveBack_nil (m : Kmem) : m.giveBack [] = m := rfl

theorem Kmem.giveBack_giveBack (m : Kmem) (F G : List ℕ) :
    (m.giveBack F).giveBack G = m.giveBack (G ++ F) := by
  simp [Kmem.giveBack]

@[simp] theorem Kmem.giveBack_kend (m : Kmem) (F : List ℕ) : (m.giveBack F).kend = m.kend := rfl

/-- A user page's frame that `kfree` takes back: not page `0` (the source's `pa == 0` test),
below `PHYSTOP`, and above the kernel image. -/
def FrameOk (kend : ℕ) (e : Pte) : Prop :=
  pgrounddown e.pa ≠ 0 ∧ pgrounddown e.pa < PHYSTOP ∧ kend ≤ P2V (pgrounddown e.pa)

theorem kfree_frame {m : Kmem} {e : Pte} (h : FrameOk m.kend e) :
    kfree (P2V (pgrounddown e.pa)) m = .ok (m.giveBack [P2V (pgrounddown e.pa)]) := by
  obtain ⟨-, hlt, hk⟩ := h
  have hV : V2P (P2V (pgrounddown e.pa)) = pgrounddown e.pa :=
    V2P_P2V (by unfold PHYSTOP UINT KERNBASE at *; omega)
  have hal : P2V (pgrounddown e.pa) % PGSIZE = 0 := by
    unfold P2V pgrounddown wrap UINT KERNBASE PGSIZE
    unfold pgrounddown PHYSTOP PGSIZE at hlt
    omega
  unfold kfree
  rw [if_neg (by rw [hV]; omega)]
  rfl

/-- The frames of the present pages among the `n` pages from `a`, lowest first, as the kernel
addresses `kfree` gets. -/
def PageDir.frames (d : PageDir) (a : ℕ) : ℕ → List ℕ
  | 0 => []
  | n + 1 => ((d.lookup a).map fun e => P2V (pgrounddown e.pa)).toList ++ d.frames (a + PGSIZE) n

theorem PageDir.frames_congr {d d' : PageDir} {a : ℕ} (h : ∀ va, a ≤ va → d.lookup va = d'.lookup va)
    (n : ℕ) : d.frames a n = d'.frames a n := by
  induction n generalizing a with
  | zero => rfl
  | succ n ih =>
    simp only [PageDir.frames]
    rw [h a le_rfl, ih fun va hva => h va (by omega)]

/-- Pages without a mapping contribute no frame. -/
theorem PageDir.frames_drop {d : PageDir} {a k : ℕ}
    (h : ∀ j < k, d.lookup (a + j * PGSIZE) = none) (n : ℕ) :
    d.frames a n = d.frames (a + k * PGSIZE) (n - k) := by
  induction k generalizing a n with
  | zero => simp
  | succ k ih =>
    cases n with
    | zero => rw [Nat.zero_sub]; rfl
    | succ n =>
      have h0 := h 0 (by omega)
      simp only [Nat.zero_mul, Nat.add_zero] at h0
      simp only [PageDir.frames, h0, Option.map_none, Option.toList_none, List.nil_append]
      rw [ih (fun j hj => by rw [← h (j + 1) (by omega)]; congr 1; ring) n]
      congr 1
      · ring
      · omega

theorem PageDir.mem_frames {d : PageDir} {a x : ℕ} (n : ℕ) :
    x ∈ d.frames a n ↔ ∃ j < n, ∃ e, d.lookup (a + j * PGSIZE) = some e ∧ P2V (pgrounddown e.pa) = x := by
  induction n generalizing a with
  | zero => simp [PageDir.frames]
  | succ n ih =>
    simp only [PageDir.frames, List.mem_append, ih]
    constructor
    · rintro (hx | ⟨j, hj, e, he, rfl⟩)
      · cases hl : d.lookup a with
        | none => simp [hl] at hx
        | some e =>
          simp only [hl, Option.map_some, Option.toList_some, List.mem_singleton] at hx
          exact ⟨0, by omega, e, by simpa using hl, hx.symm⟩
      · exact ⟨j + 1, by omega, e, by rw [← he]; congr 1; ring, rfl⟩
    · rintro ⟨j, hj, e, he, rfl⟩
      cases j with
      | zero =>
        left
        simp only [Nat.zero_mul, Nat.add_zero] at he
        simp [he]
      | succ j =>
        right
        exact ⟨j, by omega, e, by rw [← he]; congr 1; ring, rfl⟩

/-! ### `deallocuvm` -/

/-- For a page `p` below `KERNBASE`, the jump over an absent table lands on the first page of
the next directory entry: `PGADDR(PDX(a) + 1, 0, 0) - PGSIZE + PGSIZE` does not wrap. -/
theorem dealloc_skip {p : ℕ} (hp : PGSIZE * p < KERNBASE) :
    wrap (usub (wrap ((PDX (PGSIZE * p) + 1) * 2 ^ 22)) PGSIZE + PGSIZE) =
      PGSIZE * ((p / NPTENTRIES + 1) * NPTENTRIES) := by
  unfold PDX NPDENTRIES NPTENTRIES usub wrap UINT PGSIZE
  unfold KERNBASE PGSIZE at hp
  omega

/-- The pages from `p` up to the next directory entry share `p`'s entry. -/
theorem PDX_of_same_entry {p va : ℕ} (h₁ : PGSIZE * p ≤ va)
    (h₂ : va < PGSIZE * ((p / NPTENTRIES + 1) * NPTENTRIES)) : PDX va = PDX (PGSIZE * p) := by
  rw [PDX_eq, PDX_eq]
  unfold PGSIZE NPTENTRIES NPDENTRIES at *
  omega

theorem pgroundup_le_of_dvd {sz a : ℕ} (hsz : sz ≤ KERNBASE) (ha : PGSIZE ∣ a) (h : sz ≤ a) :
    pgroundup sz ≤ a := by
  obtain ⟨q, rfl⟩ := ha
  unfold pgroundup wrap UINT
  unfold KERNBASE PGSIZE at *
  omega

/-- `PGROUNDUP(sz)` of a size up to `KERNBASE` is the first page boundary from `sz` on. -/
theorem pgroundup_bounds {sz : ℕ} (hsz : sz ≤ KERNBASE) :
    sz ≤ pgroundup sz ∧ pgroundup sz < sz + PGSIZE := by
  unfold pgroundup wrap UINT
  unfold KERNBASE PGSIZE at *
  omega

variable {oldsz : ℕ}

/-- **`deallocuvm`'s loop** from page `p`, for `oldsz` up to `KERNBASE` and fuel that covers the
pages up to `oldsz`: every page from `p` up to `PGROUNDUP(oldsz)` is cleared, every present
page's frame goes to `kfree` in address order, and the tables and all other pages stay. -/
theorem deallocLoop_spec (hold : oldsz ≤ KERNBASE) (fuel : ℕ) :
    ∀ (d : PageDir) (m : Kmem) (p : ℕ), pgroundup oldsz / PGSIZE - p ≤ fuel →
      (∀ va, PGSIZE * p ≤ va → va < oldsz → ∀ e, d.lookup va = some e → FrameOk m.kend e) →
      ∃ d', deallocLoop oldsz fuel d m (PGSIZE * p) =
          .ok (d', m.giveBack (d.frames (PGSIZE * p) (pgroundup oldsz / PGSIZE - p)).reverse) ∧
        d'.pde = d.pde ∧ d'.root = d.root ∧
        ∀ va < UINT, d'.lookup va =
          if PGSIZE * p ≤ va ∧ va < pgroundup oldsz then none else d.lookup va := by
  obtain ⟨R, hR⟩ := pgroundup_dvd oldsz
  obtain ⟨hup, hlow⟩ := pgroundup_bounds hold
  have hRk : PGSIZE * R ≤ KERNBASE := hR ▸ pgroundup_le_kernbase hold
  rw [hR, Nat.mul_div_cancel_left R PGSIZE_pos]
  rw [hR] at hup hlow
  induction fuel with
  | zero =>
    intro d m p hfuel _
    refine ⟨d, ?_, rfl, rfl, fun va _ => ?_⟩
    · rw [show R - p = 0 by omega]
      rfl
    · rw [if_neg (by unfold PGSIZE at *; omega)]
  | succ fuel ih =>
    intro d m p hfuel hok
    by_cases hlt : PGSIZE * p < oldsz
    swap
    · -- past `oldsz`: the loop is over
      refine ⟨d, ?_, rfl, rfl, fun va _ => ?_⟩
      · rw [deallocLoop, if_neg hlt, show R - p = 0 by unfold PGSIZE at *; omega]
        rfl
      · rw [if_neg (by unfold PGSIZE at *; omega)]
    have hsucc : PGSIZE * p + PGSIZE = PGSIZE * (p + 1) := by ring
    have hnext : wrap (PGSIZE * p + PGSIZE) = PGSIZE * (p + 1) := by
      rw [wrap_of_lt (by unfold PGSIZE KERNBASE UINT at *; omega), hsucc]
    have hcount : R - p = R - (p + 1) + 1 := by
      unfold PGSIZE at *
      omega
    cases hw : walkpgdir d (PGSIZE * p) with
    | none =>
      -- no table: jump to the next directory entry, over pages that have no mapping
      have hpde := pde_of_walkpgdir hw
      have hnone : ∀ va, PGSIZE * p ≤ va → va < PGSIZE * ((p / NPTENTRIES + 1) * NPTENTRIES) →
          d.lookup va = none := fun va h₁ h₂ =>
        PageDir.lookup_of_pde_none (by rw [PDX_of_same_entry h₁ h₂]; exact hpde)
      generalize hs : (p / NPTENTRIES + 1) * NPTENTRIES = s at hnone
      have hps : p < s := by
        rw [← hs]
        unfold NPTENTRIES
        omega
      obtain ⟨d', hrun, hpde', hroot, hlook⟩ := ih d m s (by omega)
        (fun va h₁ h₂ => hok va (by unfold PGSIZE at *; omega) h₂)
      have hdrop := d.frames_drop (a := PGSIZE * p) (k := s - p)
        (fun j hj => hnone _ (by omega) (by unfold PGSIZE at *; omega)) (R - p)
      rw [show PGSIZE * p + (s - p) * PGSIZE = PGSIZE * s by unfold PGSIZE; omega,
        show R - p - (s - p) = R - s by omega] at hdrop
      refine ⟨d', ?_, hpde', hroot, fun va hva => ?_⟩
      · rw [deallocLoop, if_pos hlt, hw]
        dsimp only
        rw [dealloc_skip (by omega), hs, hrun, hdrop]
      · rw [hlook va hva]
        by_cases hin : PGSIZE * p ≤ va ∧ va < PGSIZE * s
        · rw [hnone va hin.1 hin.2]
          split_ifs <;> rfl
        · simp only [show (PGSIZE * s ≤ va ∧ va < PGSIZE * R) ↔ (PGSIZE * p ≤ va ∧ va < PGSIZE * R)
            by unfold PGSIZE at *; omega]
    | some x =>
      have hla := lookup_of_walkpgdir hw
      obtain ⟨t, ht⟩ : ∃ t, d.pde (PDX (PGSIZE * p)) = some t := by
        unfold walkpgdir at hw
        obtain ⟨t, ht, -⟩ := Option.map_eq_some_iff.mp hw
        exact ⟨t, ht⟩
      -- the pages of the rest of the loop are other pages than this one
      have hpage : ∀ va, PGSIZE * (p + 1) ≤ va → ¬va / PGSIZE = p := by
        intro va hva
        unfold PGSIZE at *
        omega
      have hsplit : ∀ va, (PGSIZE * (p + 1) ≤ va ∧ va < PGSIZE * R) ↔
          (PGSIZE * p ≤ va ∧ va < PGSIZE * R ∧ ¬va / PGSIZE = p) := by
        intro va
        unfold PGSIZE
        omega
      cases x with
      | none =>
        obtain ⟨d', hrun, hpde', hroot, hlook⟩ := ih d m (p + 1) (by omega)
          (fun va h₁ h₂ => hok va (by unfold PGSIZE at *; omega) h₂)
        refine ⟨d', ?_, hpde', hroot, fun va hva => ?_⟩
        · rw [deallocLoop, if_pos hlt, hw]
          dsimp only
          rw [hnext, hrun, hcount]
          simp [PageDir.frames, hla, hsucc]
        · rw [hlook va hva]
          simp only [hsplit]
          by_cases hpg : va / PGSIZE = p
          · rw [d.lookup_congr (show va / PGSIZE = PGSIZE * p / PGSIZE by
              rw [hpg, Nat.mul_div_cancel_left p PGSIZE_pos]), hla]
            split_ifs <;> rfl
          · simp only [hpg, not_false_eq_true, and_true]
      | some e =>
        -- a present page: its frame goes to `kfree`, its entry is cleared
        have hfr := hok (PGSIZE * p) le_rfl hlt e hla
        have hset := d.lookup_setPte (a := PGSIZE * p) none ht
        simp only [Nat.mul_div_cancel_left p PGSIZE_pos] at hset
        obtain ⟨d', hrun, hpde', hroot, hlook⟩ := ih (d.setPte (PGSIZE * p) none)
          (m.giveBack [P2V (pgrounddown e.pa)]) (p + 1) (by omega)
          (fun va h₁ h₂ e' he' => by
            rw [hset, if_neg (hpage va h₁)] at he'
            exact hok va (by unfold PGSIZE at *; omega) h₂ e' he')
        have hframes : (d.setPte (PGSIZE * p) none).frames (PGSIZE * (p + 1)) =
            d.frames (PGSIZE * (p + 1)) := by
          funext n
          exact PageDir.frames_congr (fun va hva => by rw [hset, if_neg (hpage va hva)]) n
        refine ⟨d', ?_, by rw [hpde']; rfl, hroot, fun va hva => ?_⟩
        · rw [deallocLoop, if_pos hlt, hw]
          dsimp only
          rw [if_neg hfr.1, kfree_frame hfr, except_ok_bind, hnext, hrun, hframes, hcount,
            Kmem.giveBack_giveBack]
          simp [PageDir.frames, hla, hsucc]
        · rw [hlook va hva, hset]
          simp only [hsplit]
          by_cases hpg : va / PGSIZE = p
          · have hin : PGSIZE * p ≤ va ∧ va < PGSIZE * R := by
              have hpR : PGSIZE * p < PGSIZE * R := by omega
              unfold PGSIZE at *
              omega
            simp [hpg, hin]
          · simp only [hpg, not_false_eq_true, and_true, if_false]

/-- **`deallocuvm(pgdir, oldsz, newsz)`** for `newsz < oldsz ≤ KERNBASE`: the pages from
`PGROUNDUP(newsz)` up to `PGROUNDUP(oldsz)` are cleared, the frames of those that were present go
to `kfree` in address order, and the tables and every other page stay. -/
theorem deallocuvm_spec {d : PageDir} {m : Kmem} {newsz : ℕ} (hold : oldsz ≤ KERNBASE)
    (hlt : newsz < oldsz)
    (hok : ∀ va, pgroundup newsz ≤ va → va < oldsz → ∀ e, d.lookup va = some e → FrameOk m.kend e) :
    ∃ d', deallocuvm d m oldsz newsz =
        .ok (d', m.giveBack (d.frames (pgroundup newsz)
          (pgroundup oldsz / PGSIZE - pgroundup newsz / PGSIZE)).reverse, newsz) ∧
      d'.pde = d.pde ∧ d'.root = d.root ∧
      ∀ va < UINT, d'.lookup va =
        if pgroundup newsz ≤ va ∧ va < pgroundup oldsz then none else d.lookup va := by
  obtain ⟨q, hq⟩ := pgroundup_dvd newsz
  obtain ⟨R, hR⟩ := pgroundup_dvd oldsz
  have hlow := (pgroundup_bounds hold).2
  rw [hq] at hok
  obtain ⟨d', hrun, hpde, hroot, hlook⟩ := deallocLoop_spec hold (oldsz / PGSIZE + 1) d m q
    (by rw [hR, Nat.mul_div_cancel_left R PGSIZE_pos]; rw [hR] at hlow; unfold PGSIZE at *; omega)
    hok
  refine ⟨d', ?_, hpde, hroot, ?_⟩
  · unfold deallocuvm
    rw [if_neg (by omega), hq, hrun, Nat.mul_div_cancel_left q PGSIZE_pos]
    rfl
  · rw [hq]
    exact hlook

/-! ### `allocuvm` -/

/-- What a successful one-page `mappages` at a page with no mapping does: the page maps `e`,
every other page stays, the old tables stay, and `tbl` (taken from the free list) is the table
it may have added. -/
structure MappedPage (d : PageDir) (m : Kmem) (a : ℕ) (e : Pte) (d' : PageDir) (m' : Kmem)
    (tbl : List ℕ) : Prop where
  took : m.freelist = tbl ++ m'.freelist
  kend : m'.kend = m.kend
  kfreed : m'.kfreed = m.kfreed
  root : d'.root = d.root
  lookup : ∀ va < UINT, d'.lookup va = if va / PGSIZE = a / PGSIZE then some e else d.lookup va
  tables : ∀ i t, d.pde i = some t → d'.pde i = some t
  table : ∀ t ∈ tbl, ∃ i, d'.pde i = some t ∧ d.pde i = none

/-- **One page of `mappages`** at an aligned user address with no mapping: it maps the page, or,
with no table and no page for one, returns `-1` having changed nothing. -/
theorem mappages_fresh {d : PageDir} {m : Kmem} {a : ℕ} (e : Pte) (ha : PGSIZE ∣ a)
    (hlt : a < KERNBASE) (hnone : d.lookup a = none) (h0 : 0 ∉ m.freelist) :
    (∃ d' m' tbl, mappages d m a PGSIZE e.pa e.perm = .ok (d', m', true) ∧
        MappedPage d m a e d' m' tbl) ∨
      (mappages d m a PGSIZE e.pa e.perm = .ok (d, m, false) ∧ m.freelist = []) := by
  cases hpde : d.pde (PDX a) with
  | some t =>
    left
    refine ⟨_, _, [], mappages_of_pde e ha hlt hpde hnone, ⟨rfl, rfl, rfl, rfl, ?_, ?_, ?_⟩⟩
    · exact fun va _ => PageDir.lookup_setPte _ hpde va
    · exact fun i t ht => ht
    · simp
  | none =>
    cases hm : m.freelist with
    | nil => exact .inr ⟨mappages_of_no_memory _ _ ha hlt hpde hm, rfl⟩
    | cons t rest =>
      have ht : t ≠ 0 := fun h => h0 (by rw [hm, h]; exact List.mem_cons_self)
      left
      refine ⟨_, _, [t], mappages_of_no_pde e ha hlt hpde hm ht,
        ⟨by rw [hm]; rfl, rfl, rfl, rfl, fun va hva => ?_, fun i t' ht' => ?_, fun t' ht' => ?_⟩⟩
      · rw [PageDir.lookup_setPte _ (PageDir.addTable_pde_self d a t),
          PageDir.lookup_addTable t hpde hva]
      · have hi : i ≠ PDX a := fun h => by rw [h, hpde] at ht'; cases ht'
        rw [PageDir.setPte_pde, PageDir.addTable_pde_ne d t hi]
        exact ht'
      · rw [List.mem_singleton] at ht'
        subst ht'
        exact ⟨PDX a, by simp, hpde⟩

/-- A free list `allocuvm` can take frames from and give them back to: distinct, page-aligned
32-bit kernel addresses above the kernel image, each with its frame below `PHYSTOP`. -/
structure Kmem.Sound (m : Kmem) : Prop where
  nodup : m.freelist.Nodup
  kend_gt : KERNBASE < m.kend
  page : ∀ v ∈ m.freelist, v % PGSIZE = 0 ∧ m.kend ≤ v ∧ v < UINT ∧ V2P v < PHYSTOP

theorem Kmem.Sound.frameOk {m : Kmem} (hs : m.Sound) {v : ℕ} (hv : v ∈ m.freelist) (perm : ℕ) :
    FrameOk m.kend ⟨V2P v, perm⟩ ∧ P2V (pgrounddown (V2P v)) = v := by
  obtain ⟨h₁, h₂, h₃, h₄⟩ := hs.page v hv
  have hk := hs.kend_gt
  -- a page above `KERNBASE` is `V2P` of itself minus `KERNBASE`, already aligned
  have hV : V2P v = v - KERNBASE := by
    unfold V2P wrap UINT KERNBASE at *
    omega
  have hD : pgrounddown (V2P v) = v - KERNBASE := by
    rw [hV]
    unfold pgrounddown KERNBASE PGSIZE at *
    omega
  rw [hV] at h₄
  refine ⟨⟨?_, ?_, ?_⟩, ?_⟩ <;> simp only [hD]
  · omega
  · exact h₄
  all_goals
    unfold P2V wrap UINT KERNBASE at *
    omega

theorem Kmem.Sound.V2P_inj {m : Kmem} (hs : m.Sound) {v w : ℕ} (hv : v ∈ m.freelist)
    (hw : w ∈ m.freelist) (h : V2P v = V2P w) : v = w := by
  obtain ⟨-, hv₁, hv₂, -⟩ := hs.page v hv
  obtain ⟨-, hw₁, hw₂, -⟩ := hs.page w hw
  have hk := hs.kend_gt
  unfold V2P wrap UINT KERNBASE at *
  omega

theorem Kmem.Sound.zero_not_mem {m : Kmem} (hs : m.Sound) : 0 ∉ m.freelist := fun h => by
  have := (hs.page 0 h).2.1
  have := hs.kend_gt
  omega

section Grow

variable {d₀ : PageDir} {m₀ : Kmem} {p₀ : ℕ}

/-- What `allocuvm`'s loop has done when it reaches page `p`, from page `p₀` of `d₀` and the
free list of `m₀`: `taken` came off the head of the free list; every page from `p₀` up to `p`
maps a frame of `taken` of its own, writable and user-accessible; every other page is as it was;
and every page taken is one of those frames or a new page table. -/
structure Grown (d₀ : PageDir) (m₀ : Kmem) (p₀ p : ℕ) (d : PageDir) (m : Kmem)
    (taken : List ℕ) : Prop where
  took : m₀.freelist = taken ++ m.freelist
  kend : m.kend = m₀.kend
  kfreed : m.kfreed = m₀.kfreed
  root : d.root = d₀.root
  mapped : ∀ va < UINT, PGSIZE * p₀ ≤ va → va < PGSIZE * p →
    ∃ v ∈ taken, d.lookup va = some ⟨V2P v, PTE_W + PTE_U⟩
  distinct : ∀ va < UINT, ∀ va' < UINT, PGSIZE * p₀ ≤ va → va < PGSIZE * p → PGSIZE * p₀ ≤ va' →
    va' < PGSIZE * p → va / PGSIZE ≠ va' / PGSIZE → d.lookup va ≠ d.lookup va'
  frame : ∀ va < UINT, va < PGSIZE * p₀ ∨ PGSIZE * p ≤ va → d.lookup va = d₀.lookup va
  owned : ∀ v ∈ taken, (∃ va < UINT, PGSIZE * p₀ ≤ va ∧ va < PGSIZE * p ∧
    d.lookup va = some ⟨V2P v, PTE_W + PTE_U⟩) ∨ ∃ i, d.pde i = some v ∧ d₀.pde i = none
  tables : ∀ i t, d₀.pde i = some t → d.pde i = some t

theorem Grown.start (d₀ : PageDir) (m₀ : Kmem) (p₀ : ℕ) : Grown d₀ m₀ p₀ p₀ d₀ m₀ [] where
  took := rfl
  kend := rfl
  kfreed := rfl
  root := rfl
  mapped := fun _ _ h₁ h₂ => absurd (h₁.trans_lt h₂) (lt_irrefl _)
  distinct := fun _ _ _ _ h₁ h₂ => absurd (h₁.trans_lt h₂) (lt_irrefl _)
  frame := fun _ _ _ => rfl
  owned := fun _ h => absurd h List.not_mem_nil
  tables := fun _ _ h => h

/-- **One more page**: the frame `v` from the head of the free list is mapped at page `p`, with
the table `tbl` it may have needed. -/
theorem Grown.step {p v : ℕ} {d d' : PageDir} {m m' : Kmem} {taken tbl rest : List ℕ}
    (hg : Grown d₀ m₀ p₀ p d m taken) (hs : m₀.Sound) (hp₀ : p₀ ≤ p) (hpk : PGSIZE * p < KERNBASE)
    (hm : m.freelist = v :: rest)
    (hmp : MappedPage d { m with freelist := rest } (PGSIZE * p) ⟨V2P v, PTE_W + PTE_U⟩ d' m' tbl) :
    Grown d₀ m₀ p₀ (p + 1) d' m' (taken ++ v :: tbl) := by
  have hfl : m₀.freelist = taken ++ v :: tbl ++ m'.freelist := by
    have hrest : rest = tbl ++ m'.freelist := hmp.took
    rw [hg.took, hm, hrest]
    simp
  have hvt : v ∉ taken := by
    have hnd := hs.nodup
    rw [hfl, List.append_assoc, List.nodup_append] at hnd
    exact fun hv => hnd.2.2 v hv v (by simp) rfl
  have hsound : ∀ w ∈ taken ++ v :: tbl, w ∈ m₀.freelist := fun w hw => by
    rw [hfl]
    exact List.mem_append_left _ hw
  have hl : ∀ va < UINT, d'.lookup va =
      if va / PGSIZE = p then some ⟨V2P v, PTE_W + PTE_U⟩ else d.lookup va := by
    intro va hva
    rw [hmp.lookup va hva, Nat.mul_div_cancel_left p PGSIZE_pos]
  -- an address of page `p` or of the pages before it
  have hpage : ∀ va, PGSIZE * p₀ ≤ va → va < PGSIZE * (p + 1) → ¬va / PGSIZE = p →
      va < PGSIZE * p := by
    intro va h₁ h₂ h
    unfold PGSIZE at *
    omega
  constructor
  · rw [hfl]
  · rw [hmp.kend]
    exact hg.kend
  · rw [hmp.kfreed]
    exact hg.kfreed
  · rw [hmp.root]
    exact hg.root
  · intro va hva h₁ h₂
    rw [hl va hva]
    by_cases hp : va / PGSIZE = p
    · rw [if_pos hp]
      exact ⟨v, by simp, rfl⟩
    · rw [if_neg hp]
      obtain ⟨w, hw, he⟩ := hg.mapped va hva h₁ (hpage va h₁ h₂ hp)
      exact ⟨w, by simp [hw], he⟩
  · intro va hva va' hva' h₁ h₂ h₁' h₂' hne
    rw [hl va hva, hl va' hva']
    -- a new frame differs from every frame mapped before: `v` was not taken yet
    have hnew : ∀ u, PGSIZE * p₀ ≤ u → u < PGSIZE * p → u < UINT →
        some ⟨V2P v, PTE_W + PTE_U⟩ ≠ d.lookup u := by
      intro u hu₁ hu₂ hu
      obtain ⟨w, hw, he⟩ := hg.mapped u hu hu₁ hu₂
      rw [he]
      intro heq
      have hvw := hs.V2P_inj (hsound v (by simp)) (hsound w (by simp [hw]))
        (by simpa using heq)
      exact hvt (hvw ▸ hw)
    by_cases hp : va / PGSIZE = p <;> by_cases hp' : va' / PGSIZE = p
    · exact absurd (hp.trans hp'.symm) hne
    · rw [if_pos hp, if_neg hp']
      exact hnew va' h₁' (hpage va' h₁' h₂' hp') hva'
    · rw [if_neg hp, if_pos hp']
      exact (hnew va h₁ (hpage va h₁ h₂ hp) hva).symm
    · rw [if_neg hp, if_neg hp']
      exact hg.distinct va hva va' hva' h₁ (hpage va h₁ h₂ hp) h₁' (hpage va' h₁' h₂' hp') hne
  · intro va hva h
    have hp : ¬va / PGSIZE = p := by
      have : PGSIZE * p₀ ≤ PGSIZE * p := Nat.mul_le_mul_left _ hp₀
      unfold PGSIZE at *
      omega
    rw [hl va hva, if_neg hp]
    exact hg.frame va hva (by unfold PGSIZE at *; omega)
  · intro w hw
    rcases List.mem_append.mp hw with hw | hw
    · rcases hg.owned w hw with ⟨va, hva, h₁, h₂, he⟩ | ⟨i, hi, hi₀⟩
      · have hp : ¬va / PGSIZE = p := by
          unfold PGSIZE at *
          omega
        exact .inl ⟨va, hva, h₁, by unfold PGSIZE at *; omega, by rw [hl va hva, if_neg hp]; exact he⟩
      · exact .inr ⟨i, hmp.tables i w hi, hi₀⟩
    · rcases List.mem_cons.mp hw with rfl | hw
      · refine .inl ⟨PGSIZE * p, by unfold KERNBASE UINT at *; omega,
          Nat.mul_le_mul_left _ hp₀, by unfold PGSIZE; omega, ?_⟩
        rw [hl _ (by unfold KERNBASE UINT at *; omega), if_pos (Nat.mul_div_cancel_left p PGSIZE_pos)]
      · obtain ⟨i, hi, hi₀⟩ := hmp.table w hw
        refine .inr ⟨i, hi, ?_⟩
        cases h : d₀.pde i with
        | none => rfl
        | some t => rw [hg.tables i t h] at hi₀; cases hi₀
  · intro i t h
    exact hmp.tables i t (hg.tables i t h)

/-- **Unwinding**: `deallocuvm(pgdir, newsz, oldsz)` after the loop stopped at page `p` clears
the pages it mapped and gives exactly their frames back.  The address space is `d₀`'s again, and
every page taken is given back or is a new table. -/
theorem Grown.unwind {p newsz : ℕ} {d : PageDir} {m : Kmem} {taken : List ℕ}
    (hg : Grown d₀ m₀ p₀ p d m taken) (hs : m₀.Sound) (hle : oldsz ≤ newsz)
    (hlo : pgroundup oldsz = PGSIZE * p₀) (hp₀ : p₀ ≤ p) (hp : PGSIZE * p < newsz)
    (hnew : newsz < KERNBASE)
    (hfree : ∀ va, pgroundup oldsz ≤ va → va < newsz → d₀.lookup va = none)
    (m' : Kmem) (hk : m'.kend = m₀.kend) :
    ∃ d' F, deallocuvm d m' newsz oldsz = .ok (d', m'.giveBack F, oldsz) ∧
      (∀ va < UINT, d'.lookup va = d₀.lookup va) ∧ (∀ v ∈ F, v ∈ taken) ∧
      ∀ v ∈ taken, v ∈ F ∨ ∃ i, d'.pde i = some v ∧ d₀.pde i = none := by
  obtain ⟨Q, hQ⟩ := pgroundup_dvd newsz
  obtain ⟨hQ₁, hQ₂⟩ := pgroundup_bounds hnew.le
  have hold : oldsz < newsz := by
    have := (pgroundup_bounds (hle.trans hnew.le)).1
    have := Nat.mul_le_mul_left PGSIZE hp₀
    omega
  have hsound : ∀ w ∈ taken, w ∈ m₀.freelist := fun w hw => by
    rw [hg.took]
    exact List.mem_append_left _ hw
  -- a present page below `newsz` is one the loop mapped, below page `p`
  have hbelow : ∀ va < UINT, PGSIZE * p₀ ≤ va → va < newsz → ∀ e, d.lookup va = some e →
      va < PGSIZE * p := by
    intro va hva h₁ h₂ e he
    by_contra hge
    rw [hg.frame va hva (.inr (not_lt.mp hge)), hfree va (hlo ▸ h₁) h₂] at he
    cases he
  have hok : ∀ va, pgroundup oldsz ≤ va → va < newsz → ∀ e, d.lookup va = some e →
      FrameOk m'.kend e := by
    intro va h₁ h₂ e he
    have hva : va < UINT := by unfold KERNBASE UINT at *; omega
    obtain ⟨w, hw, hwe⟩ := hg.mapped va hva (hlo ▸ h₁) (hbelow va hva (hlo ▸ h₁) h₂ e he)
    rw [he, Option.some.injEq] at hwe
    rw [hk, hwe]
    exact (hs.frameOk (hsound w hw) _).1
  obtain ⟨d', hrun, hpde, -, hlook⟩ := deallocuvm_spec hnew.le hold hok
  refine ⟨d', _, hrun, fun va hva => ?_, fun x hx => ?_, fun w hw => ?_⟩
  · rw [hlook va hva]
    split_ifs with hin
    · -- `va`'s page starts below `newsz`, so `d₀` had nothing there
      have hstart : va / PGSIZE = PGSIZE * (va / PGSIZE) / PGSIZE :=
        (Nat.mul_div_cancel_left _ PGSIZE_pos).symm
      rw [d₀.lookup_congr hstart, hfree _ (by rw [hlo] at hin ⊢; unfold PGSIZE at *; omega)
        (by rw [hQ] at hin hQ₂; unfold PGSIZE at *; omega)]
    · exact hg.frame va hva (by rw [hlo, hQ] at hin; rw [hQ] at hQ₁; omega)
  · rw [List.mem_reverse, PageDir.mem_frames] at hx
    obtain ⟨j, hj, e, he, rfl⟩ := hx
    rw [hlo, hQ, Nat.mul_div_cancel_left _ PGSIZE_pos, Nat.mul_div_cancel_left _ PGSIZE_pos] at hj
    rw [hlo] at he
    have hva : PGSIZE * p₀ + j * PGSIZE < UINT := by unfold PGSIZE KERNBASE UINT at *; omega
    obtain ⟨w, hw, hwe⟩ := hg.mapped _ hva (by omega)
      (hbelow _ hva (by omega) (by rw [hQ] at hQ₂; unfold PGSIZE at *; omega) e he)
    rw [he, Option.some.injEq] at hwe
    rw [hwe, (hs.frameOk (hsound w hw) (PTE_W + PTE_U)).2]
    exact hw
  · rcases hg.owned w hw with ⟨va, hva, h₁, h₂, he⟩ | ⟨i, hi, hi₀⟩
    · left
      rw [List.mem_reverse, PageDir.mem_frames]
      refine ⟨va / PGSIZE - p₀, ?_, ⟨V2P w, PTE_W + PTE_U⟩, ?_,
        (hs.frameOk (hsound w hw) (PTE_W + PTE_U)).2⟩
      · rw [hlo, hQ, Nat.mul_div_cancel_left _ PGSIZE_pos, Nat.mul_div_cancel_left _ PGSIZE_pos]
        rw [hQ] at hQ₁
        unfold PGSIZE at *
        omega
      · rw [← he, hlo]
        apply PageDir.lookup_congr
        unfold PGSIZE at *
        omega
    · exact .inr ⟨i, by rw [hpde]; exact hi, hi₀⟩

/-- How `allocuvm` can end, from `d₀` and `m₀`: with `newsz` and the pages up to
`PGROUNDUP(newsz)` grown; or with `0`, the address space as it was, and every page it took from
the free list given back to `kfree` (`F`) or kept as a new page table. -/
def AllocPost (d₀ : PageDir) (m₀ : Kmem) (oldsz newsz : ℕ) (d : PageDir) (m : Kmem) (r : ℕ) :
    Prop :=
  (r = newsz ∧ ∃ taken, Grown d₀ m₀ (pgroundup oldsz / PGSIZE) (pgroundup newsz / PGSIZE) d m taken) ∨
  (r = 0 ∧ (∀ va < UINT, d.lookup va = d₀.lookup va) ∧
    ∃ taken F rest, m₀.freelist = taken ++ rest ∧ m.freelist = F ++ rest ∧
      m.kfreed = F ++ m₀.kfreed ∧ m.kend = m₀.kend ∧ (∀ v ∈ F, v ∈ taken) ∧
      ∀ v ∈ taken, v ∈ F ∨ ∃ i, d.pde i = some v ∧ d₀.pde i = none)

/-- The loop stops at the first page from `newsz` on: `PGROUNDUP(newsz)`. -/
theorem AllocPost.of_grown {p newsz : ℕ} {d : PageDir} {m : Kmem} {taken : List ℕ}
    (hg : Grown d₀ m₀ p₀ p d m taken) (hlo : pgroundup oldsz = PGSIZE * p₀)
    (hnew : newsz < KERNBASE) (h₁ : newsz ≤ PGSIZE * p) (h₂ : PGSIZE * p ≤ pgroundup newsz) :
    AllocPost d₀ m₀ oldsz newsz d m newsz := by
  have hp : p = pgroundup newsz / PGSIZE := by
    obtain ⟨Q, hQ⟩ := pgroundup_dvd newsz
    have := (pgroundup_bounds hnew.le).2
    rw [hQ, Nat.mul_div_cancel_left _ PGSIZE_pos]
    rw [hQ] at h₂ this
    unfold PGSIZE at *
    omega
  refine .inl ⟨rfl, taken, ?_⟩
  rw [hlo, Nat.mul_div_cancel_left _ PGSIZE_pos, ← hp]
  exact hg

/-- **`allocuvm`'s loop**, from page `p` with the pages from `p₀` grown and fuel enough to reach
`newsz`, over a range where `d₀` maps nothing. -/
theorem allocLoop_spec {newsz : ℕ} (hs : m₀.Sound) (hle : oldsz ≤ newsz) (hnew : newsz < KERNBASE)
    (hlo : pgroundup oldsz = PGSIZE * p₀)
    (hfree : ∀ va, pgroundup oldsz ≤ va → va < newsz → d₀.lookup va = none) (fuel : ℕ) :
    ∀ (d : PageDir) (m : Kmem) (p : ℕ) (taken : List ℕ), Grown d₀ m₀ p₀ p d m taken → p₀ ≤ p →
      PGSIZE * p ≤ pgroundup newsz → newsz ≤ PGSIZE * (p + fuel) →
      ∃ d' m' r, allocLoop oldsz newsz fuel d m (PGSIZE * p) = .ok (d', m', r) ∧
        AllocPost d₀ m₀ oldsz newsz d' m' r := by
  induction fuel with
  | zero =>
    intro d m p taken hg _ hpn hfuel
    exact ⟨d, m, newsz, rfl, AllocPost.of_grown hg hlo hnew hfuel hpn⟩
  | succ fuel ih =>
    intro d m p taken hg hp₀ hpn hfuel
    by_cases hlt : PGSIZE * p < newsz
    swap
    · exact ⟨d, m, newsz, by rw [allocLoop, if_neg hlt], AllocPost.of_grown hg hlo hnew (by omega) hpn⟩
    have hpk : PGSIZE * p < KERNBASE := by omega
    have hsound : ∀ w ∈ m.freelist, w ∈ m₀.freelist := fun w hw => by
      rw [hg.took]
      exact List.mem_append_right _ hw
    rw [allocLoop, if_pos hlt]
    cases hm : m.freelist with
    | nil =>
      -- `kalloc` finds no page: undo and return `0`
      obtain ⟨d', F, hrun, hlook, hsub, hcov⟩ :=
        hg.unwind hs hle hlo hp₀ hlt hnew hfree m hg.kend
      refine ⟨d', m.giveBack F, 0, ?_, .inr ⟨rfl, hlook, taken, F, [], ?_⟩⟩
      · simp only [kalloc, hm, if_true, hrun, except_ok_bind]
      · refine ⟨by rw [hg.took, hm], by simp [Kmem.giveBack, hm], by simp [Kmem.giveBack, hg.kfreed],
          by simp [Kmem.giveBack, hg.kend], hsub, hcov⟩
    | cons v rest =>
      have hv : v ∈ m₀.freelist := hsound v (by simp [hm])
      have hv0 : v ≠ 0 := fun h => hs.zero_not_mem (h ▸ hv)
      have hnone : d.lookup (PGSIZE * p) = none := by
        rw [hg.frame _ (by unfold KERNBASE UINT at *; omega) (.inr le_rfl)]
        exact hfree _ (by rw [hlo]; exact Nat.mul_le_mul_left _ hp₀) hlt
      have h0 : 0 ∉ ({ m with freelist := rest } : Kmem).freelist := fun h =>
        hs.zero_not_mem (hsound 0 (by rw [hm]; exact List.mem_cons_of_mem v h))
      rw [kalloc_cons hm]
      dsimp only
      rw [if_neg hv0]
      rcases mappages_fresh ⟨V2P v, PTE_W + PTE_U⟩ ⟨p, rfl⟩ hpk hnone h0 with
        ⟨d₁, m₁, tbl, hmap, hmp⟩ | ⟨hmap, -⟩
      · -- the page is mapped: on to the next one
        have hg' := hg.step hs hp₀ hpk hm hmp
        obtain ⟨d', m', r, hrun, hpost⟩ := ih d₁ m₁ (p + 1) _ hg' (by omega)
          (by obtain ⟨Q, hQ⟩ := pgroundup_dvd newsz
              have := (pgroundup_bounds hnew.le).1
              rw [hQ] at this ⊢
              unfold PGSIZE at *
              omega)
          (by rw [mul_add, mul_add] at hfuel ⊢; omega)
        refine ⟨d', m', r, ?_, hpost⟩
        have hmap' : mappages d { m with freelist := rest } (PGSIZE * p) PGSIZE (V2P v)
            (PTE_W + PTE_U) = .ok (d₁, m₁, true) := hmap
        rw [hmap', except_ok_bind]
        dsimp only
        rw [if_pos rfl, show PGSIZE * p + PGSIZE = PGSIZE * (p + 1) by ring]
        exact hrun
      · -- no page for a table: undo, give `mem` back too, and return `0`
        have hmap' : mappages d { m with freelist := rest } (PGSIZE * p) PGSIZE (V2P v)
            (PTE_W + PTE_U) = .ok (d, { m with freelist := rest }, false) := hmap
        obtain ⟨d', F, hrun, hlook, hsub, hcov⟩ :=
          hg.unwind hs hle hlo hp₀ hlt hnew hfree { m with freelist := rest } hg.kend
        obtain ⟨hfr, hP⟩ := hs.frameOk hv (PTE_W + PTE_U)
        have hkfree : kfree v (({ m with freelist := rest } : Kmem).giveBack F) =
            .ok ((({ m with freelist := rest } : Kmem).giveBack F).giveBack [v]) := by
          have := kfree_frame (m := ({ m with freelist := rest } : Kmem).giveBack F)
            (e := ⟨V2P v, PTE_W + PTE_U⟩) (by rw [Kmem.giveBack_kend]; exact hg.kend ▸ hfr)
          rwa [hP] at this
        refine ⟨d', (({ m with freelist := rest } : Kmem).giveBack F).giveBack [v], 0, ?_,
          .inr ⟨rfl, hlook, taken ++ [v], v :: F, rest, ?_⟩⟩
        · rw [hmap', except_ok_bind]
          dsimp only
          rw [if_neg Bool.false_ne_true, hrun, except_ok_bind]
          dsimp only
          rw [hkfree, except_ok_bind]
        · rw [Kmem.giveBack_giveBack]
          refine ⟨by rw [hg.took, hm]; simp, by simp [Kmem.giveBack], ?_, ?_, ?_, ?_⟩
          · simp [Kmem.giveBack, hg.kfreed]
          · simp [Kmem.giveBack, hg.kend]
          · intro w hw
            rcases List.mem_cons.mp hw with rfl | hw
            · simp
            · exact List.mem_append_left _ (hsub w hw)
          · intro w hw
            rcases List.mem_append.mp hw with hw | hw
            · rcases hcov w hw with h | h
              · exact .inl (List.mem_cons_of_mem v h)
              · exact .inr h
            · exact .inl (by simp at hw; simp [hw])

end Grow

/-- **`allocuvm(pgdir, oldsz, newsz)`** for `oldsz ≤ newsz < KERNBASE`, a sound free list and no
page mapped from `PGROUNDUP(oldsz)` up to `newsz`. -/
theorem allocuvm_spec {d : PageDir} {m : Kmem} {newsz : ℕ} (hle : oldsz ≤ newsz)
    (hnew : newsz < KERNBASE) (hs : m.Sound)
    (hfree : ∀ va, pgroundup oldsz ≤ va → va < newsz → d.lookup va = none) :
    ∃ d' m' r, allocuvm d m oldsz newsz = .ok (d', m', r) ∧ AllocPost d m oldsz newsz d' m' r := by
  obtain ⟨p₀, hp₀⟩ := pgroundup_dvd oldsz
  have hmono : pgroundup oldsz ≤ pgroundup newsz :=
    pgroundup_le_of_dvd (hle.trans hnew.le) (pgroundup_dvd newsz)
      (hle.trans (pgroundup_bounds hnew.le).1)
  obtain ⟨d', m', r, hrun, hpost⟩ := allocLoop_spec hs hle hnew hp₀ hfree (newsz / PGSIZE + 1)
    d m p₀ [] (Grown.start d m p₀) le_rfl (hp₀ ▸ hmono)
    (by have := (pgroundup_bounds (hle.trans hnew.le)).1; rw [hp₀] at this; unfold PGSIZE at *; omega)
  refine ⟨d', m', r, ?_, hpost⟩
  unfold allocuvm
  rw [if_neg (by omega), if_neg (by omega), hp₀]
  exact hrun

end Xv6Lab
