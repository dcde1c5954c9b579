import Mathlib.Order.Fin.Basic

/-!
# First-match scans over a finite table

The loop `for (i = 0; i < n; i++) if (p(i)) break;` over a fixed-size table, as a structurally
recursive function `firstIdx n p : Option (Fin n)` (`none` when the loop runs off the end).  Its
two specifications are the only facts callers use:

* `firstIdx_eq_some_iff` — the scan stops at `i` exactly when `p i` holds and no earlier index
  satisfies `p`;
* `firstIdx_eq_none_iff` — the scan runs off the end exactly when no index satisfies `p`.

Evaluation is by unfolding, so concrete scans close by `decide`.  The loop that rewrites every
entry of a table once (`foldl_update_each`) ends with each entry rewritten from its old value.
-/

namespace Xv6Lab.Scan

/-- The first index of `Fin n` satisfying `p`, scanning upwards from `0`. -/
def firstIdx : (n : ℕ) → (Fin n → Bool) → Option (Fin n)
  | 0, _ => none
  | n + 1, p => if p 0 then some 0 else (firstIdx n fun i => p i.succ).map Fin.succ

theorem firstIdx_eq_none_iff {n : ℕ} (p : Fin n → Bool) :
    firstIdx n p = none ↔ ∀ i, p i = false := by
  induction n with
  | zero => simp [firstIdx]
  | succ n ih =>
    by_cases h0 : p 0 = true
    · simp only [firstIdx, h0, if_true, reduceCtorEq, false_iff, not_forall]
      exact ⟨0, by simp [h0]⟩
    · simp only [firstIdx, h0, Bool.false_eq_true, if_false, Option.map_eq_none_iff, ih]
      constructor
      · intro h i
        cases i using Fin.cases with
        | zero => simpa using h0
        | succ j => exact h j
      · intro h j
        exact h j.succ

theorem firstIdx_eq_some_iff {n : ℕ} (p : Fin n → Bool) (i : Fin n) :
    firstIdx n p = some i ↔ p i = true ∧ ∀ j < i, p j = false := by
  induction n with
  | zero => exact i.elim0
  | succ n ih =>
    by_cases h0 : p 0 = true
    · simp only [firstIdx, h0, if_true, Option.some.injEq]
      constructor
      · rintro rfl
        exact ⟨h0, fun j hj => absurd hj (Fin.not_lt_zero j)⟩
      · rintro ⟨-, hmin⟩
        by_contra hne
        have hpos : (0 : Fin (n + 1)) < i := Fin.pos_iff_ne_zero.mpr (Ne.symm hne)
        simp [hmin 0 hpos] at h0
    · simp only [firstIdx, h0, Bool.false_eq_true, if_false, Option.map_eq_some_iff]
      cases i using Fin.cases with
      | zero =>
        simp only [Fin.succ_ne_zero, and_false, exists_false, false_iff, not_and]
        intro h
        exact absurd h h0
      | succ k =>
        simp only [Fin.succ_inj, exists_eq_right, ih]
        constructor
        · rintro ⟨hk, hmin⟩
          refine ⟨hk, fun j hj => ?_⟩
          cases j using Fin.cases with
          | zero => simpa using h0
          | succ j => exact hmin j (Fin.succ_lt_succ_iff.mp hj)
        · rintro ⟨hk, hmin⟩
          exact ⟨hk, fun j hj => hmin j.succ (Fin.succ_lt_succ_iff.mpr hj)⟩

/-- The index a scan stops at satisfies the test. -/
theorem firstIdx_spec {n : ℕ} {p : Fin n → Bool} {i : Fin n} (h : firstIdx n p = some i) :
    p i = true :=
  ((firstIdx_eq_some_iff p i).mp h).1

/-- A scan that satisfies the test somewhere stops somewhere. -/
theorem firstIdx_isSome {n : ℕ} {p : Fin n → Bool} {i : Fin n} (h : p i = true) :
    ∃ j, firstIdx n p = some j := by
  cases hf : firstIdx n p with
  | none => simp [(firstIdx_eq_none_iff p).mp hf i] at h
  | some j => exact ⟨j, rfl⟩

/-- Two tests that agree everywhere give the same scan. -/
theorem firstIdx_congr {n : ℕ} {p q : Fin n → Bool} (h : ∀ i, p i = q i) :
    firstIdx n p = firstIdx n q := by
  rw [show p = q from funext h]

/-! ### Updating every entry once -/

/-- Updating each entry of a duplicate-free index list once, from its value before the loop. -/
theorem foldl_update_each_of_nodup {n : ℕ} {α : Type*} (g : Fin n → α → α) :
    ∀ (l : List (Fin n)), l.Nodup → ∀ t : Fin n → α,
      l.foldl (fun t i => Function.update t i (g i (t i))) t =
        fun j => if j ∈ l then g j (t j) else t j := by
  intro l
  induction l with
  | nil => intro _ t; simp
  | cons a l ih =>
    intro hl t
    rw [List.nodup_cons] at hl
    rw [List.foldl_cons, ih hl.2]
    funext j
    by_cases hj : j ∈ l
    · have hja : j ≠ a := fun h => hl.1 (h ▸ hj)
      simp [hj, hja]
    · by_cases hja : j = a
      · subst hja
        simp [hj]
      · simp [hj, hja]

/-- **A loop over the whole table that rewrites each entry once** rewrites every entry from its
value before the loop. -/
theorem foldl_update_each {n : ℕ} {α : Type*} (g : Fin n → α → α) (t : Fin n → α) :
    (List.finRange n).foldl (fun t i => Function.update t i (g i (t i))) t = fun j => g j (t j) := by
  rw [foldl_update_each_of_nodup g _ (List.nodup_finRange n)]
  funext j
  simp

/-! ### First matches in a tabulated list -/

section Tabulated

variable {α : Type*} {p : α → Bool} {f g : ℕ → α} {n m : ℕ}

/-- The first entry of the table `f 0, …, f (n - 1)` satisfying `p` is `f j` when `f j` does and no
entry before it. -/
theorem find?_map_range_of_first {j : ℕ} (hj : j < n) (hp : p (f j) = true)
    (hbefore : ∀ k < j, p (f k) = false) : ((List.range n).map f).find? p = some (f j) := by
  rw [List.find?_eq_some_iff_getElem]
  refine ⟨hp, j, by simpa using hj, by simp, fun k hk => ?_⟩
  simp [hbefore k hk]

/-- **A first-match search reads only the matches**: two tables in which the same indices match,
with the same values there, give the same first match. -/
theorem find?_map_range_congr (hmatch : ∀ k, (k < n ∧ p (f k) = true) ↔ (k < m ∧ p (g k) = true))
    (hval : ∀ k < n, p (f k) = true → f k = g k) :
    ((List.range n).map f).find? p = ((List.range m).map g).find? p := by
  cases hl : ((List.range n).map f).find? p with
  | none =>
    -- no index matches in the first table, so none in the second
    symm
    rw [List.find?_eq_none] at hl ⊢
    intro x hx hpx
    obtain ⟨k, hk, rfl⟩ := List.mem_map.mp hx
    have hf := (hmatch k).mpr ⟨List.mem_range.mp hk, hpx⟩
    exact hl (f k) (List.mem_map.mpr ⟨k, List.mem_range.mpr hf.1, rfl⟩) hf.2
  | some x =>
    -- the first match `i` of the first table is the second's, with the same value
    obtain ⟨hpx, i, hi, hget, hmin⟩ := List.find?_eq_some_iff_getElem.mp hl
    simp only [List.getElem_map, List.getElem_range, List.length_map, List.length_range] at hget hi
    subst hget
    have hg := (hmatch i).mp ⟨hi, hpx⟩
    rw [hval i hi hpx]
    refine (find?_map_range_of_first hg.1 hg.2 fun k hk => ?_).symm
    by_contra hpk
    have hf := (hmatch k).mpr ⟨by omega, by simpa using hpk⟩
    have hk' := hmin k (by simpa using hk)
    simp [hf.2] at hk'

end Tabulated

end Xv6Lab.Scan
