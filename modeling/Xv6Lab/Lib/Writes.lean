import Mathlib.Logic.Function.Basic
import Mathlib.Data.List.Basic

/-!
# Block writes and crashes

A disk is a function from addresses to contents.  A device that writes one block at a time,
each write atomic, leaves at a crash the disk that some prefix of the writes issued gives.
This module holds what crash arguments need about lists of writes:

* `apply d ws` — the writes `ws` in order over the disk `d`;
* `apply_of_forall_ne`, `apply_of_mem_nodup`, `apply_map` — what an address holds after them;
* `apply_take_append` — a crash inside a sequence of phases lands inside one of them;
* `apply_apply_of_subset` — **redo**: running a list of writes over a disk that some writes to
  the same addresses changed gives the same disk, so a redo cut short by a crash is repaired by
  running it again.
-/

namespace Writes

open Function

variable {β : Type*}

/-- The writes of `ws`, in order, over the disk `d`. -/
def apply (d : ℕ → β) (ws : List (ℕ × β)) : ℕ → β :=
  ws.foldl (fun d w => update d w.1 w.2) d

@[simp] theorem apply_nil (d : ℕ → β) : apply d [] = d := rfl

@[simp] theorem apply_cons (d : ℕ → β) (w : ℕ × β) (ws : List (ℕ × β)) :
    apply d (w :: ws) = apply (update d w.1 w.2) ws := rfl

@[simp] theorem apply_append (d : ℕ → β) (ws vs : List (ℕ × β)) :
    apply d (ws ++ vs) = apply (apply d ws) vs :=
  List.foldl_append

/-- An address no write names keeps its contents. -/
theorem apply_of_forall_ne {d : ℕ → β} {ws : List (ℕ × β)} {x : ℕ} (h : ∀ w ∈ ws, w.1 ≠ x) :
    apply d ws x = d x := by
  induction ws generalizing d with
  | nil => rfl
  | cons w ws ih =>
    rw [apply_cons, ih fun w' hw' => h w' (List.mem_cons_of_mem _ hw')]
    exact update_of_ne (h w List.mem_cons_self).symm _ _

/-- What an address holds after the writes depends only on what it held, or not at all if
some write names it. -/
theorem apply_congr {d d' : ℕ → β} (ws : List (ℕ × β)) {x : ℕ}
    (h : (∃ w ∈ ws, w.1 = x) ∨ d x = d' x) : apply d ws x = apply d' ws x := by
  induction ws generalizing d d' with
  | nil =>
    rcases h with ⟨w, hw, -⟩ | h
    · cases hw
    · exact h
  | cons w ws ih =>
    apply ih
    by_cases hx : x = w.1
    · subst hx
      right
      simp
    · rcases h with ⟨w', hw', hw'x⟩ | h
      · rcases List.mem_cons.mp hw' with rfl | hw'
        · exact absurd hw'x.symm hx
        · exact Or.inl ⟨w', hw', hw'x⟩
      · right
        simp [update_of_ne hx, h]

theorem apply_congr_at {d d' : ℕ → β} (ws : List (ℕ × β)) {x : ℕ} (h : d x = d' x) :
    apply d ws x = apply d' ws x :=
  apply_congr ws (Or.inr h)

/-- **Redo**: writes that only name addresses `ws` writes too are undone by `ws`. -/
theorem apply_apply_of_subset (d : ℕ → β) {u ws : List (ℕ × β)}
    (h : ∀ w ∈ u, ∃ w' ∈ ws, w'.1 = w.1) : apply (apply d u) ws = apply d ws := by
  funext x
  apply apply_congr
  by_cases hx : ∃ w ∈ ws, w.1 = x
  · exact Or.inl hx
  · right
    refine apply_of_forall_ne fun w hw hwx => hx ?_
    obtain ⟨w', hw', hw'w⟩ := h w hw
    exact ⟨w', hw', hw'w.trans hwx⟩

/-- A prefix of the writes, run again in full: the disk of the full run. -/
theorem apply_apply_take (d : ℕ → β) (ws : List (ℕ × β)) (k : ℕ) :
    apply (apply d (ws.take k)) ws = apply d ws :=
  apply_apply_of_subset d fun w hw => ⟨w, List.mem_of_mem_take hw, rfl⟩

/-- Where no two writes name one address, an address holds what its write wrote. -/
theorem apply_of_mem_nodup {d : ℕ → β} {ws : List (ℕ × β)} (hnd : (ws.map Prod.fst).Nodup)
    {w : ℕ × β} (hw : w ∈ ws) : apply d ws w.1 = w.2 := by
  induction ws generalizing d with
  | nil => cases hw
  | cons w' ws ih =>
    rw [List.map_cons, List.nodup_cons] at hnd
    rw [apply_cons]
    rcases List.mem_cons.mp hw with rfl | hw
    · have hne : ∀ v ∈ ws, v.1 ≠ w.1 := fun v hv hvw => hnd.1 (by
        rw [← hvw]
        exact List.mem_map_of_mem hv)
      rw [apply_of_forall_ne hne]
      exact update_self _ _ _
    · exact ih hnd.2 hw

/-- Writing `f a` to each address `a` of a list. -/
theorem apply_map (d : ℕ → β) (l : List ℕ) (f : ℕ → β) (x : ℕ) :
    apply d (l.map fun a => (a, f a)) x = if x ∈ l then f x else d x := by
  induction l generalizing d with
  | nil => simp
  | cons a l ih =>
    rw [List.map_cons, apply_cons, ih]
    by_cases hl : x ∈ l
    · simp [hl]
    · by_cases hx : x = a
      · subst hx
        simp
      · simp [hl, hx]

/-- **A crash inside a sequence of phases** lands inside the first phase, or after it inside
the rest. -/
theorem apply_take_append (d : ℕ → β) (u v : List (ℕ × β)) (k : ℕ) :
    apply d ((u ++ v).take k) =
      if k ≤ u.length then apply d (u.take k) else apply (apply d u) (v.take (k - u.length)) := by
  rw [List.take_append]
  split_ifs with hk
  · rw [Nat.sub_eq_zero_of_le hk, List.take_zero, List.append_nil]
  · rw [List.take_of_length_le (by omega), apply_append]

end Writes
