import Xv6Lab.Kernel.SyscallLog

/-!
# The user heap allocator (`umalloc.c`)

Kernighan and Ritchie's allocator keeps the free blocks in a circular list through the static
header `base`, in address order, with `freep` where the last search stopped.  Every block starts
with a `Header` of two words: the next free block and the block's size in units of a header,
eight bytes.  `malloc(nbytes)` asks for `nunits = (nbytes + 7)/8 + 1` units, the header
included, takes the first block that fits, whole or from its tail, and calls `morecore` when
it has gone round the list once; `morecore` asks `sbrk` for at least 4096 units and hands the
new memory to `free`, which puts it into the list, merged with its neighbours.

Pointers are byte addresses, `Header*` arithmetic is `p + 8*k` modulo `2^32` (`hdrAdd`), and the
memory is a map from addresses to headers: the allocator reads and writes headers only.
`sbrk` is `growproc` on the process's size (`growSize`), with every `kalloc` succeeding; where
`growproc` succeeds the two agree (`growproc_size`), and a negative argument that wraps the
size upwards leaves the kernel as it was and reports success (`growproc_of_wrapped_shrink`).
The loops of `free` and `malloc` have no bound of their own, so they take fuel, and give `none`
when it runs out.

* `nunits_spec` — below `2^32 - 7` bytes the units hold the request, with less than a unit
  to spare;
* `nunits_wrap` — from `2^32 - 7` bytes up `nbytes + 7` wraps, and `nunits` is one unit: the
  header alone;
* `malloc_block` — a non-null pointer from `malloc` is one header past a block of `nunits`
  units, on every heap;
* `malloc_wraps` — both wraps on a fresh heap: `malloc(0xFFFFFFFF)` returns a block with no
  room at all, at the end of the process's memory, and `malloc(0x80000000)` a block that lies
  wholly past that end, the negative `sbrk` having grown nothing.
-/

namespace Xv6Lab.Umalloc

open Function Run

/-- `sizeof(Header)`: a pointer and a `uint`. -/
def HSIZE : ℕ := 8

/-- The `s` part of `union header`: the next free block and the size in units. -/
structure Header where
  ptr : ℕ
  size : ℕ
  deriving DecidableEq, Repr

/-- The allocator's state: the headers in memory, `freep` (`0` before the first call), the
address of the static `base`, and the process's size, where `sbrk` hands out memory. -/
structure Heap where
  mem : ℕ → Header
  freep : ℕ
  base : ℕ
  sz : ℕ

/-- `p + k` on `Header*`. -/
def hdrAdd (p k : ℕ) : ℕ := wrap (p + HSIZE * k)

/-- `a->s.size = v`. -/
def setSize (mem : ℕ → Header) (a v : ℕ) : ℕ → Header := update mem a { mem a with size := v }

/-- `a->s.ptr = v`. -/
def setPtr (mem : ℕ → Header) (a v : ℕ) : ℕ → Header := update mem a { mem a with ptr := v }

@[simp] theorem setSize_self (mem : ℕ → Header) (a v : ℕ) : (setSize mem a v a).size = v := by
  simp [setSize]

@[simp] theorem setPtr_size (mem : ℕ → Header) (a v b : ℕ) :
    (setPtr mem a v b).size = (mem b).size := by
  by_cases hb : b = a
  · subst hb
    simp [setPtr]
  · simp [setPtr, update_of_ne hb]

/-! ### `sbrk` -/

/-- The size `growproc(n)` leaves a process of size `sz` with, `none` for its `-1`, where every
`kalloc` succeeds: `allocuvm` refuses a size at or above `KERNBASE` and keeps the old size when
the new one wrapped below it, `deallocuvm` keeps the old size when the new one is not below it,
and a size of `0` is a failure. -/
def growSize (sz : ℕ) (n : ℤ) : Option ℕ :=
  let target := toUint (sz + n)
  if 0 < n then
    let sz' := if KERNBASE ≤ target then 0 else if target < sz then sz else target
    if sz' = 0 then none else some sz'
  else if n < 0 then
    let sz' := if sz ≤ target then sz else target
    if sz' = 0 then none else some sz'
  else some sz

/-- `sbrk(n)`: the old size, or `-1`, and the process's size after it. -/
def sbrk (sz : ℕ) (n : ℤ) : ℤ × ℕ :=
  match growSize sz n with
  | none => (-1, sz)
  | some sz' => (sz, sz')

/-! ### `free` -/

/-- The search of `free`: from `p`, the first block with `bp` between it and the next, or with
`bp` past the wrap point, where the list goes back to lower addresses. -/
def freeScan (mem : ℕ → Header) (bp : ℕ) : ℕ → ℕ → Option ℕ
  | 0, _ => none
  | fuel + 1, p =>
    if p < bp ∧ bp < (mem p).ptr then some p
    else if (mem p).ptr ≤ p ∧ (p < bp ∨ bp < (mem p).ptr) then some p
    else freeScan mem bp fuel (mem p).ptr

/-- `free(ap)`: insert the block after the one `freeScan` stops at, merged with the block after
it and with that one where they touch. -/
def free (fuel : ℕ) (h : Heap) (ap : ℕ) : Option Heap := do
  let bp := usub ap HSIZE
  let p ← freeScan h.mem bp fuel h.freep
  let m := h.mem
  let m := if hdrAdd bp (m bp).size = (m p).ptr then
      let m := setSize m bp (wrap ((m bp).size + (m (m p).ptr).size))
      setPtr m bp (m (m p).ptr).ptr
    else setPtr m bp (m p).ptr
  let m := if hdrAdd p (m p).size = bp then
      let m := setSize m p (wrap ((m p).size + (m bp).size))
      setPtr m p (m bp).ptr
    else setPtr m p bp
  pure { h with mem := m, freep := p }

/-! ### `morecore` and `malloc` -/

/-- `morecore(nu)`: at least 4096 units from `sbrk(nu * sizeof(Header))`, handed to `free`;
returns `freep`, or `0` when `sbrk` fails. -/
def morecore (fuel : ℕ) (h : Heap) (nu : ℕ) : Option (Heap × ℕ) :=
  let nu := if nu < 4096 then 4096 else nu
  let r := sbrk h.sz (uintToInt (wrap (nu * HSIZE)))
  if toUint r.1 = UINT - 1 then some (h, 0)
  else
    let hp := toUint r.1
    (free fuel { h with mem := setSize h.mem hp nu, sz := r.2 } (hdrAdd hp 1)).map
      fun h => (h, h.freep)

/-- `nunits`: the request in header units, with one for the header; `uint` arithmetic. -/
def nunits (nbytes : ℕ) : ℕ := wrap (nbytes + HSIZE - 1) / HSIZE + 1

/-- The loop of `malloc` from `prevp` and `p = prevp->s.ptr`: a block that fits exactly leaves
the list, a larger one gives its tail; back at `freep`, `morecore` and go on after its result. -/
def mallocLoop (n : ℕ) : ℕ → Heap → ℕ → ℕ → Option (Heap × ℕ)
  | 0, _, _, _ => none
  | fuel + 1, h, prevp, p =>
    if n ≤ (h.mem p).size then
      if (h.mem p).size = n then
        some ({ h with mem := setPtr h.mem prevp (h.mem p).ptr, freep := prevp }, hdrAdd p 1)
      else
        let m := setSize h.mem p ((h.mem p).size - n)
        let q := hdrAdd p (m p).size
        some ({ h with mem := setSize m q n, freep := prevp }, hdrAdd q 1)
    else if p = h.freep then
      match morecore fuel h n with
      | none => none
      | some (h, q) => if q = 0 then some (h, 0) else mallocLoop n fuel h q (h.mem q).ptr
    else mallocLoop n fuel h p (h.mem p).ptr

/-- `malloc(nbytes)`: on the first call the list is `base` alone, of size `0`. -/
def malloc (fuel : ℕ) (h : Heap) (nbytes : ℕ) : Option (Heap × ℕ) :=
  let h := if h.freep = 0 then
      { h with mem := update h.mem h.base ⟨h.base, 0⟩, freep := h.base }
    else h
  mallocLoop (nunits nbytes) fuel h h.freep (h.mem h.freep).ptr

/-! ### The units -/

/-- Without a wrap, `nunits - 1` units hold the request, with less than a unit to spare. -/
theorem nunits_spec {nbytes : ℕ} (h : nbytes + 7 < UINT) :
    nbytes ≤ (nunits nbytes - 1) * HSIZE ∧ (nunits nbytes - 1) * HSIZE < nbytes + HSIZE := by
  have hw : wrap (nbytes + HSIZE - 1) = nbytes + 7 := wrap_of_lt h
  rw [nunits, hw, Nat.add_sub_cancel, HSIZE]
  omega

/-- From `2^32 - 7` bytes up, `nbytes + 7` wraps and `nunits` is the header alone. -/
theorem nunits_wrap {nbytes : ℕ} (h₁ : UINT ≤ nbytes + 7) (h₂ : nbytes < UINT) :
    nunits nbytes = 1 := by
  have hU : UINT = 2 ^ 32 := rfl
  have hw : wrap (nbytes + HSIZE - 1) = nbytes + 7 - UINT := by
    rw [wrap, Nat.mod_eq_sub_mod (by rw [HSIZE]; omega), Nat.mod_eq_of_lt (by rw [HSIZE]; omega)]
    rfl
  rw [nunits, hw, HSIZE]
  omega

/-! ### The blocks `malloc` returns -/

/-- Every non-null pointer the loop returns is one header past a block of `n` units. -/
theorem mallocLoop_block {n fuel : ℕ} {h h' : Heap} {prevp p q : ℕ}
    (hl : mallocLoop n fuel h prevp p = some (h', q)) (hq : q ≠ 0) :
    ∃ b, q = hdrAdd b 1 ∧ (h'.mem b).size = n := by
  induction fuel generalizing h prevp p with
  | zero => simp [mallocLoop] at hl
  | succ fuel ih =>
    rw [mallocLoop] at hl
    split_ifs at hl with hfit hexact hfree
    · -- the block fits exactly and leaves the list whole
      obtain ⟨rfl, rfl⟩ := Prod.mk.inj (Option.some.inj hl)
      exact ⟨p, rfl, by simpa using hexact⟩
    · -- the tail of a larger block
      obtain ⟨rfl, rfl⟩ := Prod.mk.inj (Option.some.inj hl)
      exact ⟨_, rfl, setSize_self _ _ _⟩
    · -- back at `freep`: `morecore`, then on from its result
      match hm : morecore fuel h n with
      | none => simp [hm] at hl
      | some (h₁, r) =>
        simp only [hm] at hl
        split_ifs at hl with hr
        · exact absurd (Prod.mk.inj (Option.some.inj hl)).2.symm hq
        · exact ih hl
    · exact ih hl

/-- Every non-null pointer `malloc(nbytes)` returns is one header past a block of
`nunits nbytes` units; below `2^32 - 7` bytes the block has room for the request. -/
theorem malloc_block {fuel nbytes : ℕ} {h h' : Heap} {q : ℕ}
    (hm : malloc fuel h nbytes = some (h', q)) (hq : q ≠ 0) :
    ∃ b, q = hdrAdd b 1 ∧ (h'.mem b).size = nunits nbytes ∧
      (nbytes + 7 < UINT → nbytes ≤ ((h'.mem b).size - 1) * HSIZE) := by
  obtain ⟨b, rfl, hb⟩ := mallocLoop_block hm hq
  refine ⟨b, rfl, hb, fun hn => ?_⟩
  rw [hb]
  exact (nunits_spec hn).1

/-! ### `sbrk` in the kernel -/

/-- `allocuvm`'s loop returns the new size, or `0` when it ran out of memory. -/
theorem allocLoop_size {oldsz newsz : ℕ} :
    ∀ {n : ℕ} {d : PageDir} {m : Kmem} {a : ℕ} {d' : PageDir} {m' : Kmem} {s : ℕ},
      allocLoop oldsz newsz n d m a = .ok (d', m', s) → s = newsz ∨ s = 0 := by
  intro n
  induction n with
  | zero =>
    intro d m a d' m' s h
    simp only [allocLoop, Except.ok.injEq, Prod.mk.injEq] at h
    exact Or.inl h.2.2.symm
  | succ n ih =>
    intro d m a d' m' s h
    rw [allocLoop] at h
    split_ifs at h with ha
    · generalize kalloc m = r at h
      obtain ⟨m₁, mem⟩ := r
      dsimp only at h
      split_ifs at h with hmem
      · -- out of memory: what was mapped is unmapped and `0` returned
        obtain ⟨⟨_, _, _⟩, _, h⟩ := except_bind_eq_ok.mp h
        simp only [Except.ok.injEq, Prod.mk.injEq] at h
        exact Or.inr h.2.2.symm
      · obtain ⟨⟨d₁, m₂, ok⟩, _, h⟩ := except_bind_eq_ok.mp h
        split_ifs at h
        · exact ih h
        · obtain ⟨⟨_, _, _⟩, _, h⟩ := except_bind_eq_ok.mp h
          obtain ⟨_, _, h⟩ := except_bind_eq_ok.mp h
          simp only [Except.ok.injEq, Prod.mk.injEq] at h
          exact Or.inr h.2.2.symm
    · simp only [Except.ok.injEq, Prod.mk.injEq] at h
      exact Or.inl h.2.2.symm

/-- `allocuvm`'s size: `0` at or above `KERNBASE`, the old size when the new one is below it,
else the new size, or `0` when memory ran out. -/
theorem allocuvm_size {d d' : PageDir} {m m' : Kmem} {oldsz newsz s : ℕ}
    (h : allocuvm d m oldsz newsz = .ok (d', m', s)) :
    s = (if KERNBASE ≤ newsz then 0 else if newsz < oldsz then oldsz else newsz) ∨ s = 0 := by
  rw [allocuvm] at h
  split_ifs at h with hk hlt
  · simp only [Except.ok.injEq, Prod.mk.injEq] at h
    exact Or.inr h.2.2.symm
  · simp only [Except.ok.injEq, Prod.mk.injEq] at h
    exact Or.inl (by rw [if_neg hk, if_pos hlt]; exact h.2.2.symm)
  · rw [if_neg hk, if_neg hlt]
    exact allocLoop_size h

/-- `deallocuvm`'s size: the old one when the new one is not below it, else the new one. -/
theorem deallocuvm_size {d d' : PageDir} {m m' : Kmem} {oldsz newsz s : ℕ}
    (h : deallocuvm d m oldsz newsz = .ok (d', m', s)) :
    s = if oldsz ≤ newsz then oldsz else newsz := by
  rw [deallocuvm] at h
  split_ifs at h with hle
  · simp only [Except.ok.injEq, Prod.mk.injEq] at h
    rw [if_pos hle]
    exact h.2.2.symm
  · obtain ⟨⟨_, _⟩, _, h⟩ := except_bind_eq_ok.mp h
    simp only [Except.ok.injEq, Prod.mk.injEq] at h
    rw [if_neg hle]
    exact h.2.2.symm

/-- **`growSize` is `sbrk`'s size**: where `growproc` succeeds, the process's size is the one
`growSize` gives. -/
theorem growproc_size {k k' : Kernel} {cur : Fin NPROC} {n : ℤ}
    (h : growproc k cur n = .ok (k', 0)) :
    growSize (k.proc cur).sz n = some (k'.proc cur).sz := by
  rw [growproc] at h
  rw [growSize]
  by_cases hpos : 0 < n
  · rw [if_pos hpos] at h ⊢
    obtain ⟨⟨d, m, s⟩, ha, h⟩ := except_bind_eq_ok.mp h
    dsimp only at h
    have hs : s ≠ 0 := fun hs => by simp [hs] at h
    rw [if_neg hs, Except.ok.injEq, Prod.mk.injEq] at h
    rw [← h.1, Kernel.setProc_self]
    rcases allocuvm_size ha with hs' | hs'
    · dsimp only
      rw [← hs', if_neg hs]
    · exact absurd hs' hs
  · by_cases hneg : n < 0
    · rw [if_neg hpos, if_pos hneg] at h ⊢
      obtain ⟨⟨d, m, s⟩, hd, h⟩ := except_bind_eq_ok.mp h
      dsimp only at h
      have hs : s ≠ 0 := fun hs => by simp [hs] at h
      rw [if_neg hs, Except.ok.injEq, Prod.mk.injEq] at h
      rw [← h.1, Kernel.setProc_self]
      dsimp only
      rw [← deallocuvm_size hd, if_neg hs]
    · rw [if_neg hpos, if_neg hneg] at h ⊢
      rw [Except.ok.injEq, Prod.mk.injEq] at h
      rw [h.1]

/-- **A negative `n` that wraps the size upwards is a successful no-op**: `deallocuvm` sees a
new size not below the old one and keeps it, and `growproc` reports success. -/
theorem growproc_of_wrapped_shrink {k : Kernel} {cur : Fin NPROC} {n : ℤ} (hn : n < 0)
    (hsz : (k.proc cur).sz ≠ 0) (hw : (k.proc cur).sz ≤ toUint ((k.proc cur).sz + n)) :
    growproc k cur n = .ok (k, 0) := by
  have hd : deallocuvm (k.proc cur).pgdir k.kmem (k.proc cur).sz
      (toUint ((k.proc cur).sz + n)) = .ok ((k.proc cur).pgdir, k.kmem, (k.proc cur).sz) := by
    rw [deallocuvm, if_pos hw]
  rw [growproc, if_neg (not_lt.mpr hn.le), if_pos hn]
  simp only [hd, except_ok_bind, if_neg hsz]
  simp [Kernel.setProc]

/-! ### The two wraps -/

/-- A heap before the first `malloc`: zeroed static memory and a null `freep`. -/
def freshHeap (base sz : ℕ) : Heap := ⟨fun _ => ⟨0, 0⟩, 0, base, sz⟩

theorem malloc_wraps :
    (∃ h p, malloc 4 (freshHeap 0x1A40 0x3000) 0xFFFFFFFF = some (h, p) ∧ p ≠ 0 ∧
      (h.mem (usub p HSIZE)).size = 1 ∧ p = h.sz) ∧
    (∃ h p, malloc 4 (freshHeap 0x1A40 0x3000) 0x80000000 = some (h, p) ∧ p ≠ 0 ∧
      h.sz = 0x3000 ∧ h.sz ≤ usub p HSIZE ∧ (h.mem (usub p HSIZE)).size = 0x10000001) := by
  have h₁ : (malloc 4 (freshHeap 0x1A40 0x3000) 0xFFFFFFFF).map
      (fun r => (r.2, (r.1.mem (usub r.2 HSIZE)).size, r.1.sz)) = some (0xB000, 1, 0xB000) := by
    decide
  have h₂ : (malloc 4 (freshHeap 0x1A40 0x3000) 0x80000000).map
      (fun r => (r.2, (r.1.mem (usub r.2 HSIZE)).size, r.1.sz)) =
        some (0x3008, 0x10000001, 0x3000) := by
    decide
  obtain ⟨⟨h, p⟩, hm₁, hr₁⟩ := Option.map_eq_some_iff.mp h₁
  obtain ⟨⟨h', p'⟩, hm₂, hr₂⟩ := Option.map_eq_some_iff.mp h₂
  simp only [Prod.mk.injEq] at hr₁ hr₂
  obtain ⟨rfl, hs₁, hz₁⟩ := hr₁
  obtain ⟨rfl, hs₂, hz₂⟩ := hr₂
  refine ⟨⟨h, _, hm₁, by decide, hs₁, hz₁.symm⟩, ⟨h', _, hm₂, by decide, hz₂, ?_, hs₂⟩⟩
  rw [hz₂]
  decide

end Xv6Lab.Umalloc
