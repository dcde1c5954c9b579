import Mathlib.Logic.Equiv.Basic
import Mathlib.Data.List.Nodup
import Mathlib.Algebra.Group.End

/-!
# Rearranging the cells below `n`

An array is a function `ℕ → α`; an in-place sort of its first `n` cells leaves `a ∘ σ` for a
permutation `σ` of `ℕ` that moves no cell from `n` on.  Such permutations are closed under
composition and contain the swaps of two cells below `n`, and rearranging by one keeps the
cells below `n`, read as a list, a permutation of the original ones.
-/

namespace Xv6Lab.Rearrange

variable {n m : ℕ} {σ τ : Equiv.Perm ℕ}

/-- `σ` moves only cells below `n`. -/
def FixesFrom (n : ℕ) (σ : Equiv.Perm ℕ) : Prop := ∀ k, n ≤ k → σ k = k

theorem FixesFrom.one (n : ℕ) : FixesFrom n 1 := fun _ _ => rfl

theorem FixesFrom.mul (hσ : FixesFrom n σ) (hτ : FixesFrom n τ) : FixesFrom n (σ * τ) := by
  intro k hk
  rw [Equiv.Perm.mul_apply, hτ k hk, hσ k hk]

theorem FixesFrom.mono (hσ : FixesFrom m σ) (h : m ≤ n) : FixesFrom n σ :=
  fun k hk => hσ k (h.trans hk)

theorem fixesFrom_swap {i j : ℕ} (hi : i < n) (hj : j < n) : FixesFrom n (Equiv.swap i j) :=
  fun _ hk => Equiv.swap_apply_of_ne_of_ne (by omega) (by omega)

/-- A permutation fixing every cell from `n` on maps the cells below `n` among themselves. -/
theorem FixesFrom.lt_iff (hσ : FixesFrom n σ) {k : ℕ} : σ k < n ↔ k < n := by
  constructor
  · intro h
    by_contra hk
    rw [hσ k (by omega)] at h
    exact hk h
  · intro hk
    by_contra h
    have hfix : σ (σ k) = σ k := hσ _ (by omega)
    rw [σ.injective hfix] at h
    exact h hk

/-- The cells below `n` of `f ∘ σ` are those of `f`, in another order. -/
theorem FixesFrom.map_range_perm {α : Type*} (hσ : FixesFrom n σ) (f : ℕ → α) :
    ((List.range n).map (f ∘ σ)).Perm ((List.range n).map f) := by
  rw [← List.map_map]
  refine List.Perm.map f ((List.perm_ext_iff_of_nodup
    ((List.nodup_range).map σ.injective) List.nodup_range).mpr fun x => ?_)
  simp only [List.mem_map, List.mem_range]
  constructor
  · rintro ⟨k, hk, rfl⟩
    exact hσ.lt_iff.mpr hk
  · intro hx
    refine ⟨σ.symm x, hσ.lt_iff.mp ?_, σ.apply_symm_apply x⟩
    rw [σ.apply_symm_apply x]
    exact hx

end Xv6Lab.Rearrange
