import Mathlib.Logic.Function.Basic
import Mathlib.Order.Basic

/-!
# Copying a range of memory up or down

A memory is a function from addresses to values.  `copyThrough mem dst src n` is the memory after
`[src, src + n)` is copied to `[dst, dst + n)` as if through a temporary buffer: every cell of
the destination gets the source's old value.  The two loops that do it in place:

* `copyUp` — from the bottom, `*d++ = *s++`;
* `copyDown` — from the top, `*--d = *--s`: with `n` cells left the pointers stand at `dst + n`
  and `src + n`.

`copyUp_eq`: going up is right unless the source starts below the destination and runs into it;
`copyDown_eq`: going down is right unless the destination starts below the source and runs into
it.  Each is the run lemma of a step lemma for one cell (`copyThrough_up`, `copyThrough_down`).
-/

namespace Xv6Lab.Copy

open Function

variable {β : Type*}

/-- `[src, src + n)` copied to `[dst, dst + n)` through a temporary buffer. -/
def copyThrough (mem : ℕ → β) (dst src n : ℕ) : ℕ → β :=
  fun a => if dst ≤ a ∧ a < dst + n then mem (src + (a - dst)) else mem a

/-- `while(n-- > 0) *d++ = *s++;` -/
def copyUp : ℕ → (ℕ → β) → ℕ → ℕ → (ℕ → β)
  | 0, mem, _, _ => mem
  | n + 1, mem, d, s => copyUp n (update mem d (mem s)) (d + 1) (s + 1)

/-- `s += n; d += n; while(n-- > 0) *--d = *--s;` -/
def copyDown : ℕ → (ℕ → β) → ℕ → ℕ → (ℕ → β)
  | 0, mem, _, _ => mem
  | n + 1, mem, dst, src => copyDown n (update mem (dst + n) (mem (src + n))) dst src

@[simp] theorem copyThrough_zero (mem : ℕ → β) (dst src : ℕ) : copyThrough mem dst src 0 = mem := by
  funext a
  unfold copyThrough
  rw [if_neg (by omega)]

/-- **One cell up**: the first cell, then the rest one place on, is the whole copy, unless a later
source cell is the first destination cell. -/
theorem copyThrough_up (mem : ℕ → β) {dst src n : ℕ} (h : ¬(src < dst ∧ dst < src + n + 1)) :
    copyThrough (update mem dst (mem src)) (dst + 1) (src + 1) n =
      copyThrough mem dst src (n + 1) := by
  funext a
  unfold copyThrough
  by_cases ha : a = dst
  · subst ha
    rw [if_neg (by omega), update_self, if_pos (by omega), Nat.sub_self, Nat.add_zero]
  · by_cases hin : dst + 1 ≤ a ∧ a < dst + 1 + n
    · -- the source cell read has not been overwritten by the first store
      have hsrc : src + 1 + (a - (dst + 1)) ≠ dst := by omega
      rw [if_pos hin, if_pos (by omega), update_of_ne hsrc]
      congr 1
      omega
    · rw [if_neg hin, if_neg (by omega), update_of_ne ha]

/-- **One cell down**: the last cell, then the rest, is the whole copy, unless an earlier source
cell is the last destination cell. -/
theorem copyThrough_down (mem : ℕ → β) {dst src n : ℕ} (h : ¬(dst < src ∧ src < dst + n + 1)) :
    copyThrough (update mem (dst + n) (mem (src + n))) dst src n =
      copyThrough mem dst src (n + 1) := by
  funext a
  unfold copyThrough
  by_cases ha : a = dst + n
  · subst ha
    rw [if_neg (by omega), update_self, if_pos (by omega), Nat.add_sub_cancel_left]
  · by_cases hin : dst ≤ a ∧ a < dst + n
    · -- the source cell read has not been overwritten by the last store
      have hsrc : src + (a - dst) ≠ dst + n := by omega
      rw [if_pos hin, if_pos (by omega), update_of_ne hsrc]
    · rw [if_neg hin, if_neg (by omega), update_of_ne ha]

/-- **Copying up** is a copy through a buffer unless the source runs up into the destination. -/
theorem copyUp_eq (n : ℕ) (mem : ℕ → β) {dst src : ℕ} (h : ¬(src < dst ∧ dst < src + n)) :
    copyUp n mem dst src = copyThrough mem dst src n := by
  induction n generalizing mem dst src with
  | zero => exact (copyThrough_zero mem dst src).symm
  | succ n ih =>
    rw [copyUp, ih _ (by omega), copyThrough_up mem (by omega)]

/-- **Copying down** is a copy through a buffer unless the destination runs up into the source. -/
theorem copyDown_eq (n : ℕ) (mem : ℕ → β) {dst src : ℕ} (h : ¬(dst < src ∧ src < dst + n)) :
    copyDown n mem dst src = copyThrough mem dst src n := by
  induction n generalizing mem with
  | zero => exact (copyThrough_zero mem dst src).symm
  | succ n ih =>
    rw [copyDown, ih _ (by omega), copyThrough_down mem (by omega)]

end Xv6Lab.Copy
