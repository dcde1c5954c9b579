import Mathlib.Algebra.GroupWithZero.Nat
import Mathlib.Logic.Function.Basic
import Mathlib.Data.List.Range

/-!
# A ring buffer over free-running counters

A ring of `N` cells holds the elements between a read counter `r` and a write counter `w`, both
counting up modulo `M`: the element at position `i` sits in cell `(r + i) % N`, and there are
`dist M r w = (w + M - r) % M` of them.  With `N ∣ M` the wrap of a counter at `M` moves no
element to another cell, so the contents survive it.

* `contents_push` / `contents_succ` — a store into the cell after the last element appends it,
  and the first element is the one in the read counter's cell;
* `dist_succ_right` / `dist_succ_left` — one more store, one more read;
* `eq_add_iff_dist`, `dist_eq_zero_iff` — the full and empty tests on the counters;
* `slot_eq_add_dist` — the write counter's cell is the cell after the last element.
-/

namespace Xv6Lab.Ring

open Function

variable {β : Type*}

/-- The cell `i % N`. -/
def slot (N : ℕ) [NeZero N] (i : ℕ) : Fin N := ⟨i % N, Nat.mod_lt _ (Nat.pos_of_neZero N)⟩

/-- The `len` elements from the read counter `r` on. -/
def contents {N : ℕ} [NeZero N] (buf : Fin N → β) (r len : ℕ) : List β :=
  (List.range len).map fun i => buf (slot N (r + i))

/-- The number of steps from `r` up to `w` modulo `M`: `w - r` in `M`-bit unsigned arithmetic. -/
def dist (M r w : ℕ) : ℕ := (w + M - r) % M

section Slot

variable {N : ℕ} [NeZero N]

theorem slot_eq_iff {a b : ℕ} : slot N a = slot N b ↔ a % N = b % N := Fin.ext_iff

/-- A counter's wrap at a multiple of `N` keeps its cell. -/
theorem slot_mod_of_dvd {M : ℕ} (h : N ∣ M) (i : ℕ) : slot N (i % M) = slot N i :=
  slot_eq_iff.mpr (Nat.mod_mod_of_dvd i h)

end Slot

section Contents

variable {N : ℕ} [NeZero N] (buf : Fin N → β)

@[simp] theorem contents_zero (r : ℕ) : contents buf r 0 = [] := rfl

@[simp] theorem length_contents (r len : ℕ) : (contents buf r len).length = len := by
  simp [contents]

/-- The first element is in the read counter's cell; the rest start one cell on. -/
theorem contents_succ (r len : ℕ) :
    contents buf r (len + 1) = buf (slot N r) :: contents buf (r + 1) len := by
  unfold contents
  rw [List.range_succ_eq_map, List.map_cons, List.map_map, Nat.add_zero]
  congr 1
  apply List.map_congr_left
  intro i _
  show buf (slot N (r + (i + 1))) = buf (slot N (r + 1 + i))
  rw [Nat.add_comm i 1, Nat.add_assoc]

/-- Read counters in the same cell see the same contents. -/
theorem contents_congr {r r' : ℕ} (h : r % N = r' % N) (len : ℕ) :
    contents buf r len = contents buf r' len := by
  unfold contents
  apply List.map_congr_left
  intro i _
  congr 1
  apply slot_eq_iff.mpr
  rw [Nat.add_mod, h, ← Nat.add_mod]

/-- **A store appends**: writing the cell after the last of `len < N` elements leaves them in
place and adds one at the end. -/
theorem contents_push {r len : ℕ} (hlen : len < N) (c : β) :
    contents (update buf (slot N (r + len)) c) r (len + 1) = contents buf r len ++ [c] := by
  unfold contents
  rw [List.range_succ, List.map_append, List.map_singleton, update_self]
  congr 1
  apply List.map_congr_left
  intro i hi
  -- an earlier element sits fewer than `N` cells back, so in another cell
  have hne : slot N (r + i) ≠ slot N (r + len) := by
    rw [Ne, slot_eq_iff]
    have hi' : i < len := List.mem_range.mp hi
    intro h
    have := Nat.sub_mod_eq_zero_of_mod_eq h.symm
    have hsub : r + len - (r + i) = len - i := by omega
    rw [hsub] at this
    have := Nat.le_of_dvd (by omega) (Nat.dvd_of_mod_eq_zero this)
    omega
  rw [update_of_ne hne]

end Contents

section Dist

variable {M r w : ℕ}

theorem dist_of_le (h : r ≤ w) (hw : w < M) : dist M r w = w - r := by
  unfold dist
  rw [show w + M - r = w - r + M by omega, Nat.add_mod_right, Nat.mod_eq_of_lt (by omega)]

theorem dist_of_lt (h : w < r) (hr : r < M) : dist M r w = w + M - r := by
  unfold dist
  rw [Nat.mod_eq_of_lt (by omega)]

theorem dist_lt (hr : r < M) : dist M r w < M := Nat.mod_lt _ (by omega)

/-- The empty test: the counters are equal exactly when nothing lies between them. -/
theorem dist_eq_zero_iff (hr : r < M) (hw : w < M) : dist M r w = 0 ↔ w = r := by
  rcases Nat.lt_or_ge w r with hlt | hle
  · rw [dist_of_lt hlt hr]
    omega
  · rw [dist_of_le hle hw]
    omega

/-- The full test: `w = (r + n) % M` exactly when `n` elements lie between the counters. -/
theorem eq_add_iff_dist (hr : r < M) (hw : w < M) {n : ℕ} (hn : n < M) :
    w = (r + n) % M ↔ dist M r w = n := by
  rcases Nat.lt_or_ge (r + n) M with hlt | hge
  · rw [Nat.mod_eq_of_lt hlt]
    rcases Nat.lt_or_ge w r with hwr | hrw
    · rw [dist_of_lt hwr hr]
      omega
    · rw [dist_of_le hrw hw]
      omega
  · rw [show r + n = r + n - M + M by omega, Nat.add_mod_right, Nat.mod_eq_of_lt (by omega)]
    rcases Nat.lt_or_ge w r with hwr | hrw
    · rw [dist_of_lt hwr hr]
      omega
    · rw [dist_of_le hrw hw]
      omega

theorem succ_mod_of_lt (h : w + 1 < M) : (w + 1) % M = w + 1 := Nat.mod_eq_of_lt h

theorem succ_mod_of_eq (h : w + 1 = M) : (w + 1) % M = 0 := by
  rw [h, Nat.mod_self]

/-- **One more store**: the write counter's step, wrapping at `M`, adds one element. -/
theorem dist_succ_right (hr : r < M) (hw : w < M) (h : dist M r w + 1 < M) :
    dist M r ((w + 1) % M) = dist M r w + 1 := by
  rcases Nat.lt_or_ge w r with hwr | hrw
  · rw [dist_of_lt hwr hr] at h ⊢
    rw [succ_mod_of_lt (by omega), dist_of_lt (by omega) hr]
    omega
  · rw [dist_of_le hrw hw] at h ⊢
    rcases Nat.lt_or_ge (w + 1) M with hlt | hge
    · rw [succ_mod_of_lt hlt, dist_of_le (by omega) hlt]
      omega
    · -- the write counter wraps to `0`, below the read counter
      rw [succ_mod_of_eq (by omega), dist_of_lt (by omega) hr]
      omega

/-- **One more read**: the read counter's step, wrapping at `M`, takes one element. -/
theorem dist_succ_left (hr : r < M) (hw : w < M) (h : w ≠ r) :
    dist M ((r + 1) % M) w = dist M r w - 1 := by
  rcases Nat.lt_or_ge w r with hwr | hrw
  · rw [dist_of_lt hwr hr]
    rcases Nat.lt_or_ge (r + 1) M with hlt | hge
    · rw [succ_mod_of_lt hlt, dist_of_lt (by omega) hlt]
      omega
    · -- the read counter wraps to `0`, below the write counter
      rw [succ_mod_of_eq (by omega), dist_of_le (Nat.zero_le w) hw]
      omega
  · rw [dist_of_le hrw hw, succ_mod_of_lt (by omega), dist_of_le (by omega) hw]
    omega

/-- The write counter's cell is the cell after the last element, whatever wraps lie between. -/
theorem slot_eq_add_dist {N : ℕ} [NeZero N] (hN : N ∣ M) (hr : r < M) (hw : w < M) :
    slot N w = slot N (r + dist M r w) := by
  rcases Nat.lt_or_ge w r with hwr | hrw
  · rw [dist_of_lt hwr hr, show r + (w + M - r) = w + M by omega, slot_eq_iff,
      Nat.add_mod, Nat.mod_eq_zero_of_dvd hN, Nat.add_zero, Nat.mod_mod]
  · rw [dist_of_le hrw hw, Nat.add_sub_cancel' hrw]

end Dist

end Xv6Lab.Ring
