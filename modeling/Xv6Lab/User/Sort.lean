import Mathlib
import Xv6Lab.Kernel.Basic
import Xv6Lab.Lib.Run
import Xv6Lab.Lib.Rearrange

/-!
# `sort` (`sort.c`)

`sort a1 a2 ...` reads its arguments with `atoi` into `nums[]`, numbers them `0..argc-2` in
`indices[]`, bubble-sorts `nums` with `indices` moved along, and writes the arguments to
`result.txt` in the order `indices[]` then gives, each followed by a blank, then a newline.

* `bubble_sort_spec` — `bubble_sort(arr, indices, n)` leaves the cells below `n` of `arr`
  non-decreasing, and both arrays rearranged by one permutation of those cells;
* `sort_orders` — for `indices` numbered `0..n-1`, `indices[k]` is where `arr[k]` came from, and
  `sort` writes its arguments in non-decreasing order of their `atoi` values.

The proof of `bubble_sort_spec` is the textbook one: a pass carries the largest cell below its
bound to the bound (`innerLoop_max`), and after `i` passes the top `i` cells are sorted and above
the rest (`PassInv`).  `main`'s part after `write_to_file` is not modelled.
-/

namespace Xv6Lab.Sort

open Function Rearrange Run

/-! ### `swap` and `bubble_sort` -/

/-- `swap(&a[x], &a[y])`: `temp = *xp; *xp = *yp; *yp = temp`. -/
def swap (a : ℕ → ℤ) (x y : ℕ) : ℕ → ℤ :=
  update (update a x (a y)) y (a x)

@[simp] theorem swap_left (a : ℕ → ℤ) (x y : ℕ) : swap a x y x = a y := by
  by_cases h : x = y
  · rw [h, swap, update_self]
  · rw [swap, update_of_ne h, update_self]

@[simp] theorem swap_right (a : ℕ → ℤ) (x y : ℕ) : swap a x y y = a x := update_self ..

theorem swap_of_ne (a : ℕ → ℤ) {x y k : ℕ} (hx : k ≠ x) (hy : k ≠ y) : swap a x y k = a k := by
  rw [swap, update_of_ne hy, update_of_ne hx]

theorem swap_eq_comp (a : ℕ → ℤ) (x y : ℕ) : swap a x y = a ∘ Equiv.swap x y := by
  funext k
  by_cases hx : k = x
  · rw [hx, swap_left, comp_apply, Equiv.swap_apply_left]
  by_cases hy : k = y
  · rw [hy, swap_right, comp_apply, Equiv.swap_apply_right]
  · rw [swap_of_ne a hx hy, comp_apply, Equiv.swap_apply_of_ne_of_ne hx hy]

/-- The two arrays `bubble_sort` works on. -/
structure Arrays where
  arr : ℕ → ℤ
  indices : ℕ → ℤ

/-- The inner loop's body at `j`: `if (arr[j] > arr[j+1])`, swap cells `j` and `j+1` of both
arrays. -/
def compareSwap (s : Arrays) (j : ℕ) : Arrays :=
  if s.arr (j + 1) < s.arr j then ⟨swap s.arr j (j + 1), swap s.indices j (j + 1)⟩ else s

/-- `for (j = 0; j < m; j++)`: the arrays after its first `m` iterations. -/
def innerLoop (s : Arrays) : ℕ → Arrays
  | 0 => s
  | m + 1 => compareSwap (innerLoop s m) m

/-- `for (i = 0; i < n-1; i++)`: the arrays after its first `i` passes; pass `i` runs the inner
loop `n-i-1` times. -/
def outerLoop (n : ℕ) (s : Arrays) : ℕ → Arrays
  | 0 => s
  | i + 1 => innerLoop (outerLoop n s i) (n - i - 1)

/-- `bubble_sort(arr, indices, n)` for `n >= 0`: `n-1` passes, none for `n = 0` (where the `int`
bound `n-1` is `-1`). -/
def bubble_sort (arr indices : ℕ → ℤ) (n : ℕ) : Arrays :=
  outerLoop n ⟨arr, indices⟩ (n - 1)

/-! ### Both arrays move together -/

/-- `t` is `s` with the cells below `n` of both arrays moved by one permutation. -/
def Rearranged (n : ℕ) (s t : Arrays) : Prop :=
  ∃ σ : Equiv.Perm ℕ, FixesFrom n σ ∧ t.arr = s.arr ∘ σ ∧ t.indices = s.indices ∘ σ

namespace Rearranged

variable {n m : ℕ} {s t u : Arrays}

theorem refl (n : ℕ) (s : Arrays) : Rearranged n s s := ⟨1, FixesFrom.one n, rfl, rfl⟩

theorem trans (h₁ : Rearranged n s t) (h₂ : Rearranged n t u) : Rearranged n s u := by
  obtain ⟨σ, hσ, harr, hidx⟩ := h₁
  obtain ⟨τ, hτ, harr', hidx'⟩ := h₂
  refine ⟨σ * τ, hσ.mul hτ, ?_, ?_⟩
  · rw [harr', harr]
    rfl
  · rw [hidx', hidx]
    rfl

theorem mono (h : Rearranged m s t) (hmn : m ≤ n) : Rearranged n s t := by
  obtain ⟨σ, hσ, harr, hidx⟩ := h
  exact ⟨σ, hσ.mono hmn, harr, hidx⟩

/-- From `n` on nothing moves. -/
theorem arr_of_le (h : Rearranged n s t) {k : ℕ} (hk : n ≤ k) : t.arr k = s.arr k := by
  obtain ⟨σ, hσ, harr, -⟩ := h
  rw [harr, comp_apply, hσ k hk]

/-- A cell below `n` holds what some cell below `n` held. -/
theorem arr_of_lt (h : Rearranged n s t) {k : ℕ} (hk : k < n) : ∃ j < n, t.arr k = s.arr j := by
  obtain ⟨σ, hσ, harr, -⟩ := h
  exact ⟨σ k, hσ.lt_iff.mpr hk, by rw [harr, comp_apply]⟩

end Rearranged

theorem rearranged_compareSwap (s : Arrays) {n j : ℕ} (hj : j + 1 < n) :
    Rearranged n s (compareSwap s j) := by
  unfold compareSwap
  split_ifs
  · exact ⟨Equiv.swap j (j + 1), fixesFrom_swap (by omega) hj, swap_eq_comp .., swap_eq_comp ..⟩
  · exact .refl n s

theorem innerLoop_rearranged (s : Arrays) (m : ℕ) : Rearranged (m + 1) s (innerLoop s m) := by
  induction m with
  | zero => exact .refl 1 s
  | succ m ih => exact (ih.mono (by omega)).trans (rearranged_compareSwap _ (by omega))

/-! ### The order -/

/-- **A pass carries the largest of `arr[0..m]` to `arr[m]`.** -/
theorem innerLoop_max (s : Arrays) (m : ℕ) :
    ∀ k ≤ m, (innerLoop s m).arr k ≤ (innerLoop s m).arr m := by
  induction m with
  | zero =>
    intro k hk
    rw [Nat.le_zero.mp hk]
  | succ m ih =>
    intro k hk
    simp only [innerLoop, compareSwap]
    split_ifs with hlt
    · -- swapped: cell `m + 1` now holds the old `arr[m]`, the largest so far
      dsimp only
      rw [swap_right]
      rcases Nat.lt_or_ge k m with hkm | hkm
      · rw [swap_of_ne _ (by omega) (by omega)]
        exact ih k hkm.le
      · rcases (show k = m ∨ k = m + 1 by omega) with rfl | rfl
        · rw [swap_left]
          exact hlt.le
        · rw [swap_right]
    · rcases (show k ≤ m ∨ k = m + 1 by omega) with hkm | rfl
      · exact (ih k hkm).trans (not_lt.mp hlt)
      · exact le_rfl

/-- What the passes so far make of `s`, with `b` the lowest cell they have placed: `s`
rearranged, the cells from `b` on non-decreasing, and none of them below a cell under `b`. -/
structure PassInv (n : ℕ) (s t : Arrays) (b : ℕ) : Prop where
  rearranged : Rearranged n s t
  sorted : ∀ k, b ≤ k → k + 1 < n → t.arr k ≤ t.arr (k + 1)
  split : ∀ k l, k < b → b ≤ l → l < n → t.arr k ≤ t.arr l

theorem passInv_start (n : ℕ) (s : Arrays) : PassInv n s s n :=
  ⟨.refl n s, fun _ hk hk' => absurd hk' (by omega), fun _ _ _ hl hl' => absurd hl' (by omega)⟩

/-- **One more pass places cell `m`**: it carries the largest of the cells below `m + 1` there,
which is at most every cell placed before. -/
theorem PassInv.pass {n m : ℕ} {s t : Arrays} (h : PassInv n s t (m + 1)) (hmn : m + 1 ≤ n) :
    PassInv n s (innerLoop t m) m := by
  have hr := innerLoop_rearranged t m
  -- the new cell `m` is at most every cell from `m` on
  have hm : ∀ l, m ≤ l → l < n → (innerLoop t m).arr m ≤ (innerLoop t m).arr l := by
    intro l hml hl
    rcases Nat.eq_or_lt_of_le hml with rfl | hml
    · exact le_rfl
    obtain ⟨j, hj, hjm⟩ := hr.arr_of_lt (Nat.lt_succ_self m)
    rw [hjm, hr.arr_of_le hml]
    exact h.split j l hj hml hl
  constructor
  · exact h.rearranged.trans (hr.mono hmn)
  · intro k hk hkn
    rcases Nat.eq_or_lt_of_le hk with rfl | hk
    · exact hm (m + 1) (by omega) hkn
    · rw [hr.arr_of_le hk, hr.arr_of_le (by omega)]
      exact h.sorted k hk hkn
  · intro k l hk hl hln
    exact (innerLoop_max t m k hk.le).trans (hm l hl hln)

theorem outerLoop_passInv (n : ℕ) (s : Arrays) :
    ∀ i ≤ n - 1, PassInv n s (outerLoop n s i) (n - i) := by
  intro i
  induction i with
  | zero =>
    intro _
    exact passInv_start n s
  | succ i ih =>
    intro hi
    have h := ih (by omega)
    rw [show n - i = n - i - 1 + 1 by omega] at h
    rw [show n - (i + 1) = n - i - 1 by omega]
    exact h.pass (by omega)

/-- **`bubble_sort` sorts**: the cells below `n` of `arr` end non-decreasing, both arrays
rearranged by one permutation of those cells. -/
theorem bubble_sort_spec (arr indices : ℕ → ℤ) (n : ℕ) :
    Rearranged n ⟨arr, indices⟩ (bubble_sort arr indices n) ∧
      ((List.range n).map (bubble_sort arr indices n).arr).SortedLE := by
  have h := outerLoop_passInv n ⟨arr, indices⟩ (n - 1) le_rfl
  refine ⟨h.rearranged, ?_⟩
  rw [List.sortedLE_iff_isChain, List.isChain_map, List.isChain_range]
  intro k hk
  -- after `n - 1` passes only cell `0` is left unplaced
  rcases Nat.lt_or_ge k (n - (n - 1)) with hk0 | hk0
  · exact h.split k (k + 1) hk0 (by omega) (by omega)
  · exact h.sorted k hk0 (by omega)

/-! ### The program -/

/-- `atoi(s)`'s loop: while `*s` is a digit, `n = n*10 + *s++ - '0'`, in 32-bit `int`. -/
def atoiLoop (n : ℤ) : List UInt8 → ℤ
  | [] => n
  | c :: s => if 48 ≤ c ∧ c ≤ 57 then atoiLoop (iwrap (n * 10 + c.toNat - 48)) s else n

/-- `atoi(s)` of `ulib.c`, on the bytes of `s` before its `NUL`. -/
def atoi (s : List UInt8) : ℤ := atoiLoop 0 s

/-- `argv[i]`, which must lie inside `argv[0..argc)`. -/
def argAt (argv : List (List UInt8)) (i : ℤ) : Except Crash (List UInt8) :=
  if h : 0 ≤ i ∧ i.toNat < argv.length then .ok argv[i.toNat] else .error (.outOfBounds "argv" i)

/-- What `sort` leaves behind before `exit()`: the `write` calls on `result.txt` in order, or
the message it prints in their place. -/
inductive Output where
  | written (writes : List (List UInt8))
  | message (text : String)
  deriving DecidableEq, Repr

/-- `write_to_file(argv, indices, argc)`, with `fd` what `open("result.txt", ...)` returned:
`argv[indices[i] + 1]` and a blank for each `i < argc - 1`, then a newline. -/
def write_to_file (argv : List (List UInt8)) (indices : ℕ → ℤ) (argc : ℕ) (fd : ℤ) :
    Except Crash Output :=
  if fd < 0 then .ok (.message "sort: result.txt could not be opened.")
  else do
    let ws ← (List.range (argc - 1)).mapM fun i => argAt argv (indices i + 1)
    pure (.written (ws.flatMap (fun w => [w, [32]]) ++ [[10]]))

/-- `main(argc, argv)` up to `write_to_file`, with `argc = argv.length` and `fd` what `open`
returns: `nums[i-1] = atoi(argv[i])`, `indices[i-1] = i-1`, then the sort.  The cells from
`argc - 1` on lie outside both arrays and are never read. -/
def main (argv : List (List UInt8)) (fd : ℤ) : Except Crash Output :=
  if argv.length ≤ 1 then .ok (.message "sort: no arguments passed.")
  else
    let s := bubble_sort (fun k => atoi (argv.getD (k + 1) [])) (fun k => k) (argv.length - 1)
    write_to_file argv s.indices argv.length fd

/-- The arguments after `argv[0]`, read cell by cell. -/
theorem range_map_getD_succ (argv : List (List UInt8)) :
    (List.range (argv.length - 1)).map (fun j => argv.getD (j + 1) []) = argv.tail := by
  apply List.ext_getElem
  · simp
  · intro k h₁ h₂
    simp only [List.length_map, List.length_range] at h₁
    simp only [List.getElem_map, List.getElem_range, List.getElem_tail]
    rw [List.getD_eq_getElem _ _ (by omega)]

/-- **Started from `indices[k] = k`**, `indices[k]` ends as the cell `arr[k]` came from. -/
theorem bubble_sort_of_indices (arr indices : ℕ → ℤ) (n : ℕ) (hidx : ∀ k < n, indices k = k) :
    ((List.range n).map (bubble_sort arr indices n).arr).SortedLE ∧
      ((List.range n).map (bubble_sort arr indices n).arr).Perm ((List.range n).map arr) ∧
      ∀ k < n, ∃ j < n, (bubble_sort arr indices n).indices k = j ∧
        (bubble_sort arr indices n).arr k = arr j := by
  obtain ⟨⟨σ, hσ, harr, hind⟩, hsorted⟩ := bubble_sort_spec arr indices n
  refine ⟨hsorted, ?_, fun k hk => ⟨σ k, hσ.lt_iff.mpr hk, ?_, ?_⟩⟩
  · rw [harr]
    exact hσ.map_range_perm arr
  · rw [hind, comp_apply]
    exact hidx _ (hσ.lt_iff.mpr hk)
  · rw [harr, comp_apply]

/-- **`main` writes every argument once, in non-decreasing `atoi` order**, when `result.txt`
opens. -/
theorem main_writes_sorted (argv : List (List UInt8)) (fd : ℤ) (hargc : 1 < argv.length)
    (hfd : 0 ≤ fd) :
    ∃ ws : List (List UInt8), ws.Perm argv.tail ∧ (ws.map atoi).SortedLE ∧
      main argv fd = .ok (.written (ws.flatMap (fun w => [w, [32]]) ++ [[10]])) := by
  set nums : ℕ → ℤ := fun k => atoi (argv.getD (k + 1) [])
  set n := argv.length - 1
  obtain ⟨⟨σ, hσ, harr, hind⟩, hsorted⟩ := bubble_sort_spec nums (fun k => k) n
  -- each written argument is the one `indices[i]` names, inside `argv`
  have hat : ∀ i ∈ List.range n, argAt argv ((bubble_sort nums (fun k => k) n).indices i + 1) =
      .ok (argv.getD (σ i + 1) []) := by
    intro i hi
    have hlt : σ i < n := hσ.lt_iff.mpr (List.mem_range.mp hi)
    rw [hind, comp_apply, argAt]
    dsimp only
    rw [dif_pos (by omega), List.getD_eq_getElem _ _ (show σ i + 1 < argv.length by omega)]
    simp
  refine ⟨(List.range n).map ((fun j => argv.getD (j + 1) []) ∘ σ), ?_, ?_, ?_⟩
  · rw [← range_map_getD_succ]
    exact hσ.map_range_perm _
  · rw [List.map_map, ← comp_assoc]
    convert hsorted using 2
    rw [harr]
    rfl
  · rw [main, if_neg (by omega), write_to_file, if_neg (by omega), except_mapM_eq_ok _ hat]
    rfl

/-- `sort 30 4 2x`: `atoi` reads `2x` as `2`, so `result.txt` gets `2x 4 30 ` and a newline. -/
example : main [[115], [51, 48], [52], [50, 120]] 3 =
    .ok (.written [[50, 120], [32], [52], [32], [51, 48], [32], [10]]) := by decide

/-- **`sort` sorts its arguments.**  `bubble_sort` on `n` cells with `indices[k] = k` leaves
`arr` sorted, a permutation of its input, with `arr[k]` the input's `arr[indices[k]]`; and `sort`
with at least one argument writes every argument once, in non-decreasing `atoi` order. -/
theorem sort_orders :
    (∀ (arr indices : ℕ → ℤ) (n : ℕ), (∀ k < n, indices k = k) →
      ((List.range n).map (bubble_sort arr indices n).arr).SortedLE ∧
      ((List.range n).map (bubble_sort arr indices n).arr).Perm ((List.range n).map arr) ∧
      ∀ k < n, ∃ j < n, (bubble_sort arr indices n).indices k = j ∧
        (bubble_sort arr indices n).arr k = arr j) ∧
    ∀ (argv : List (List UInt8)) (fd : ℤ), 1 < argv.length → 0 ≤ fd →
      ∃ ws : List (List UInt8), ws.Perm argv.tail ∧ (ws.map atoi).SortedLE ∧
        main argv fd = .ok (.written (ws.flatMap (fun w => [w, [32]]) ++ [[10]])) :=
  ⟨bubble_sort_of_indices, main_writes_sorted⟩

end Xv6Lab.Sort
