import Mathlib.Algebra.BigOperators.Group.Finset.Piecewise
import Mathlib.Data.Fintype.Card
import Mathlib.Algebra.BigOperators.Ring.Finset
import Mathlib.Algebra.Order.BigOperators.Group.Finset

/-!
# Counting the entries of a finite table

`tally f P` is the number of indices `j : Fin n` whose entry `f j` satisfies `P` — how many
slots of a queue are set, how many processes sleep.  A step of a system rewrites one entry with
`Function.update`; `tally_update` says how that moves the count, in the one form every case
(an entry gained, lost or kept) is an instance of.  `tally_le_tally` bounds one count by
another through an injection, `tally_lt_of_not` bounds a count by the table size when some
entry fails the test, and `eq_of_tally_le_one` reads a count of at most one as uniqueness.
`total f g` sums a weight `g` over the entries, with the same update rule (`total_update`), the
bound by a count (`total_le_mul_tally`) and by the table size (`total_le`).
-/

namespace Xv6Lab.Tally

variable {n : ℕ} {β γ : Type*}

/-- The number of entries of `f` that satisfy `P`. -/
def tally (f : Fin n → β) (P : β → Prop) [DecidablePred P] : ℕ :=
  (Finset.univ.filter fun j => P (f j)).card

section

variable (P : β → Prop) [DecidablePred P]

/-- **Rewriting one entry**: the count loses the old entry's vote and gains the new one's. -/
theorem tally_update [DecidableEq β] (f : Fin n → β) (i : Fin n) (b : β) :
    tally (Function.update f i b) P + (if P (f i) then 1 else 0) =
      tally f P + (if P b then 1 else 0) := by
  unfold tally
  rw [Finset.card_filter, Finset.card_filter]
  -- the indicator of the updated table is the updated indicator
  have h : (fun j => if P (Function.update f i b j) then 1 else 0) =
      Function.update (fun j => if P (f j) then 1 else 0) i (if P b then 1 else 0) := by
    funext j
    by_cases hj : j = i
    · subst hj
      simp
    · simp [hj]
  rw [h, Finset.sum_update_of_mem (Finset.mem_univ i),
    ← Finset.add_sum_erase _ _ (Finset.mem_univ i)]
  simp only [Finset.sdiff_singleton_eq_erase]
  omega

theorem tally_eq_zero (f : Fin n → β) : tally f P = 0 ↔ ∀ j, ¬P (f j) := by
  simp [tally, Finset.filter_eq_empty_iff]

theorem tally_pos {f : Fin n → β} {i : Fin n} (h : P (f i)) : 0 < tally f P := by
  rw [Nat.pos_iff_ne_zero, Ne, tally_eq_zero]
  exact fun hall => hall i h

/-- **At most one**: when at most one entry satisfies `P`, two entries that do are the same. -/
theorem eq_of_tally_le_one {f : Fin n → β} (hle : tally f P ≤ 1) {i j : Fin n} (hi : P (f i))
    (hj : P (f j)) : i = j := by
  by_contra hij
  have hsub : ({i, j} : Finset (Fin n)) ⊆ Finset.univ.filter fun k => P (f k) := by
    intro k hk
    rw [Finset.mem_insert, Finset.mem_singleton] at hk
    rw [Finset.mem_filter]
    rcases hk with rfl | rfl
    · exact ⟨Finset.mem_univ _, hi⟩
    · exact ⟨Finset.mem_univ _, hj⟩
  have hcard := Finset.card_le_card hsub
  rw [Finset.card_pair hij] at hcard
  unfold tally at hle
  omega

/-- A nonzero count has an entry that satisfies `P`. -/
theorem exists_of_tally_ne_zero {f : Fin n → β} (h : tally f P ≠ 0) : ∃ j, P (f j) := by
  by_contra hall
  rw [not_exists] at hall
  exact h ((tally_eq_zero P f).mpr hall)

/-- A table with an entry that fails `P` has fewer than `n` entries that satisfy it. -/
theorem tally_lt_of_not {f : Fin n → β} {i : Fin n} (h : ¬P (f i)) : tally f P < n := by
  unfold tally
  calc (Finset.univ.filter fun j => P (f j)).card
      ≤ (Finset.univ.erase i).card := by
        apply Finset.card_le_card
        intro j hj
        simp only [Finset.mem_filter, Finset.mem_univ, true_and] at hj
        exact Finset.mem_erase.mpr ⟨fun hji => h (hji ▸ hj), Finset.mem_univ j⟩
    _ = n - 1 := by rw [Finset.card_erase_of_mem (Finset.mem_univ i), Finset.card_univ,
        Fintype.card_fin]
    _ < n := Nat.sub_lt (Nat.pos_of_ne_zero fun hn => (hn ▸ i).elim0) Nat.one_pos

/-- A table has at most `n` entries that satisfy `P`. -/
theorem tally_le (f : Fin n → β) : tally f P ≤ n := by
  unfold tally
  calc (Finset.univ.filter fun j => P (f j)).card ≤ (Finset.univ : Finset (Fin n)).card :=
        Finset.card_filter_le _ _
    _ = n := Finset.card_fin n

/-- **Counting through an injection**: entries satisfying `P` that map one-to-one to entries
satisfying `Q` are at most as many. -/
theorem tally_le_tally {m : ℕ} {f : Fin n → β} {g : Fin m → γ} (Q : γ → Prop) [DecidablePred Q]
    (e : Fin n → Fin m) (he : ∀ j, P (f j) → Q (g (e j)))
    (hinj : ∀ j j', P (f j) → P (f j') → e j = e j' → j = j') :
    tally f P ≤ tally g Q := by
  unfold tally
  apply Finset.card_le_card_of_injOn e
  · intro j hj
    simp only [Finset.coe_filter, Finset.mem_univ, true_and, Set.mem_ofPred_eq] at hj ⊢
    exact he j hj
  · intro j hj j' hj' hjj
    simp only [Finset.coe_filter, Finset.mem_univ, true_and, Set.mem_ofPred_eq] at hj hj'
    exact hinj j j' hj hj' hjj

end

/-! ### Sums of a weight -/

/-- The sum of the weights `g` of the entries of `f`. -/
def total (f : Fin n → β) (g : β → ℕ) : ℕ := ∑ j, g (f j)

/-- **Rewriting one entry**: the sum loses the old entry's weight and gains the new one's. -/
theorem total_update [DecidableEq β] (f : Fin n → β) (g : β → ℕ) (i : Fin n) (b : β) :
    total (Function.update f i b) g + g (f i) = total f g + g b := by
  unfold total
  have h : (fun j => g (Function.update f i b j)) = Function.update (fun j => g (f j)) i (g b) := by
    funext j
    by_cases hj : j = i
    · subst hj
      simp
    · simp [hj]
  rw [h, Finset.sum_update_of_mem (Finset.mem_univ i),
    ← Finset.add_sum_erase _ _ (Finset.mem_univ i)]
  simp only [Finset.sdiff_singleton_eq_erase]
  omega

/-- One entry's weight is part of the sum. -/
theorem single_le_total (f : Fin n → β) (g : β → ℕ) (i : Fin n) : g (f i) ≤ total f g :=
  Finset.single_le_sum (f := fun j => g (f j)) (fun _ _ => Nat.zero_le _) (Finset.mem_univ i)

/-- Weights of at most `c` each sum to at most `n * c`. -/
theorem total_le {f : Fin n → β} {g : β → ℕ} {c : ℕ} (h : ∀ x, g x ≤ c) : total f g ≤ n * c := by
  unfold total
  calc ∑ j, g (f j) ≤ (Finset.univ : Finset (Fin n)).card • c :=
        Finset.sum_le_card_nsmul _ _ _ fun j _ => h (f j)
    _ = n * c := by simp

theorem total_eq_zero {f : Fin n → β} {g : β → ℕ} (h : ∀ j, g (f j) = 0) : total f g = 0 :=
  Finset.sum_eq_zero fun j _ => h j

/-- **A weight of at most `c` on the entries that pass a test, and none on the others**, sums to
at most `c` times their count. -/
theorem total_le_mul_tally (P : β → Prop) [DecidablePred P] {f : Fin n → β} {g : β → ℕ} {c : ℕ}
    (h : ∀ x, g x ≤ if P x then c else 0) : total f g ≤ c * tally f P := by
  unfold total tally
  rw [Finset.card_filter, Finset.mul_sum]
  apply Finset.sum_le_sum
  intro j _
  have hj := h (f j)
  split_ifs at hj ⊢ <;> omega

end Xv6Lab.Tally
