import Xv6Lab.Kernel.SharedMemoryInvariant
import Xv6Lab.Kernel.VmSpec

/-!
# Shared mappings and heap growth

`growproc`/`allocuvm` map fresh pages from `PGROUNDUP(sz)` upwards and assume nothing is mapped
above `sz`; `shm_allocuvm` places a shared block at the lowest free run from `PGROUNDUP(sz)` on
and leaves `sz` as it was.  The two meet in `mappages`' `remap` panic:

* `mappagesLoop_remap` — `mappages` panics at the first page that is already present;
* `allocuvm_remap` / `growproc_remap` — growing the heap over a present page at `PGROUNDUP(sz)`
  panics, as soon as `kalloc` has a page to give;
* `shmattach_sz` — `shm_attach` never changes the caller's `sz`;
* `attach_then_sbrk_remap` — booted, `shm_open(3, 1, 0)`, `shm_attach(3)`: the next
  `sbrk(4096)` of the same process panics in `mappages`.
-/

namespace Xv6Lab

open Run

/-! ### `mappages` over a present entry -/

/-- **`mappages` never maps over a present entry**: it panics with `remap` there. -/
theorem mappagesLoop_remap {perm n : ℕ} {d : PageDir} {m : Kmem} {a pa t : ℕ} {e : Pte}
    (hpde : d.pde (PDX a) = some t) (hpte : d.pte (a / PGSIZE) = some e) :
    mappagesLoop perm (n + 1) d m a pa = .error (.panic "remap") := by
  simp [mappagesLoop, walkpgdirAlloc_of_pde hpde, hpte]

/-! ### Growing over a present page -/

/-- **`allocuvm` maps its first page at `PGROUNDUP(oldsz)`**, so a page already present there
makes it panic. -/
theorem allocuvm_remap {d : PageDir} {m : Kmem} {oldsz newsz t r : ℕ} {rs : List ℕ} {e : Pte}
    (hold : oldsz < KERNBASE) (hnew : newsz < KERNBASE) (hlt : pgroundup oldsz < newsz)
    (hm : m.freelist = r :: rs) (hr : r ≠ 0)
    (hpde : d.pde (PDX (pgroundup oldsz)) = some t)
    (hpte : d.pte (pgroundup oldsz / PGSIZE) = some e) :
    allocuvm d m oldsz newsz = .error (.panic "remap") := by
  have hle := le_pgroundup hold
  unfold allocuvm
  rw [if_neg (by omega), if_neg (by omega)]
  obtain ⟨f, hf⟩ : ∃ f, newsz / PGSIZE + 1 = f + 1 := ⟨_, rfl⟩
  rw [hf, allocLoop, if_pos hlt, kalloc_cons hm]
  simp only [hr, if_false]
  rw [mappages_one_page (pgroundup_dvd oldsz) (by omega), mappagesLoop_remap hpde hpte]
  rfl

theorem toUint_of_lt {x : ℤ} (h₀ : 0 ≤ x) (h : x < UINT) : (toUint x : ℤ) = x := by
  unfold toUint
  rw [Int.emod_eq_of_lt h₀ (by exact_mod_cast h), Int.toNat_of_nonneg h₀]

/-- **`sbrk(n)` over a present page at `PGROUNDUP(sz)` panics**, whenever the grown size stays
below `KERNBASE` and passes that page. -/
theorem growproc_remap {k : Kernel} {cur : Fin NPROC} {n : ℤ} {t r : ℕ} {rs : List ℕ} {e : Pte}
    (hn : 0 < n) (hsz : (k.proc cur).sz < KERNBASE)
    (hfit : ((k.proc cur).sz : ℤ) + n < KERNBASE)
    (hlt : (pgroundup (k.proc cur).sz : ℤ) < (k.proc cur).sz + n)
    (hm : k.kmem.freelist = r :: rs) (hr : r ≠ 0)
    (hpde : (k.proc cur).pgdir.pde (PDX (pgroundup (k.proc cur).sz)) = some t)
    (hpte : (k.proc cur).pgdir.pte (pgroundup (k.proc cur).sz / PGSIZE) = some e) :
    growproc k cur n = .error (.panic "remap") := by
  have hK : (KERNBASE : ℤ) < UINT := by decide
  have ht : (toUint ((k.proc cur).sz + n) : ℤ) = (k.proc cur).sz + n :=
    toUint_of_lt (by omega) (by omega)
  have hremap : allocuvm (k.proc cur).pgdir k.kmem (k.proc cur).sz
      (toUint ((k.proc cur).sz + n)) = .error (.panic "remap") :=
    allocuvm_remap hsz (by omega) (by omega) hm hr hpde hpte
  unfold growproc
  rw [if_pos hn, hremap]
  rfl

/-! ### `shm_attach` and `sz` -/

/-- **`shm_attach` leaves the caller's `sz` alone**, whatever it maps. -/
theorem shmattach_sz {c c' : ShmCtx} {me me' : ShmCaller} {id : ℤ} {va : ℕ}
    (hl : c.table.locked = false) (h : shmattach c me id = .ok (c', me', va)) :
    me'.sz = me.sz := by
  rw [shmattach_caller hl h]

set_option maxRecDepth 100000 in
/-- Booted, the first process opens a one-page block and attaches it; its next `sbrk(4096)`
maps over the shared page and panics. -/
theorem attach_then_sbrk_remap :
    ∃ k, Kernel.Reachable k ∧ k.sysStep 0 (.sbrk 4096) = some (.error (.panic "remap")) := by
  obtain ⟨k, hk, hc⟩ := exists_reachable_of_bootRun bootMem_ok
    [(0, .shmOpen 3 1 0), (0, .shmAttach 3)] (f := fun k => k.crashes 0 (.sbrk 4096))
    (b := some (.panic "remap")) (by decide)
  exact ⟨k, hk, Kernel.crashes_eq_some.mp hc⟩

end Xv6Lab
