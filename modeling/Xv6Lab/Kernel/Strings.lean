import Xv6Lab.Lib.Copy
import Mathlib.Algebra.Group.Int.Defs

/-!
# `memmove` (`string.c`)

`memmove(dst, src, n)` copies down from the top when the source starts below the destination and
runs into it (`s < d && s + n > d`), and up from the bottom otherwise.  Addresses are naturals:
the ranges lie inside the address space, so the pointer sums and comparisons do not wrap.
`memcpy` is `memmove`.

* `memmove_eq` — for every `dst`, `src` and `n`, with the ranges apart or overlapping either
  way, the memory after `memmove` is the memory after a copy through a temporary buffer;
* `memmove_overlap` — the same, byte by byte: `dst[0..n)` holds the old `src[0..n)`, and every
  other byte is unchanged.
-/

namespace Xv6Lab.Strings

open Copy

/-- `memmove(dst, src, n)` on the memory `mem`. -/
def memmove (mem : ℕ → UInt8) (dst src n : ℕ) : ℕ → UInt8 :=
  if src < dst ∧ src + n > dst then copyDown n mem dst src else copyUp n mem dst src

/-- **`memmove` handles overlap**: each branch runs its loop in the direction that never reads a
byte it has already overwritten. -/
theorem memmove_eq (mem : ℕ → UInt8) (dst src n : ℕ) :
    memmove mem dst src n = copyThrough mem dst src n := by
  unfold memmove
  by_cases hov : src < dst ∧ src + n > dst
  · -- the source runs up into the destination: from the top
    rw [if_pos hov]
    exact copyDown_eq n mem (by omega)
  · rw [if_neg hov]
    exact copyUp_eq n mem hov

/-- **`memmove` handles overlap, byte by byte**: the destination holds the bytes the source had
before the call, and no byte outside the destination changes. -/
theorem memmove_overlap (mem : ℕ → UInt8) (dst src n : ℕ) :
    (∀ k < n, memmove mem dst src n (dst + k) = mem (src + k)) ∧
      ∀ a, a < dst ∨ dst + n ≤ a → memmove mem dst src n a = mem a := by
  rw [memmove_eq]
  refine ⟨fun k hk => ?_, fun a ha => ?_⟩
  · unfold copyThrough
    rw [if_pos (by omega), Nat.add_sub_cancel_left]
  · unfold copyThrough
    rw [if_neg (by omega)]

/-- A copy up over a source that runs into the destination smears its first byte: `'a'`, `'b'`,
`'c'` at `0..2` copied up to `1..3` leaves `'a'` in all four cells. -/
example : (List.range 4).map (copyUp 3 (fun a => [97, 98, 99, 0].getD a 0) 1 0) =
    [97, 97, 97, 97] := by
  decide

/-! ### `strncmp` -/

/-- `strncmp(p, q, n)` on the bytes from `p` and from `q`; a byte past the end of a list reads
as `0`. -/
def strncmp : List ℕ → List ℕ → ℕ → ℤ
  | _, _, 0 => 0
  | p, q, n + 1 =>
    if p.headD 0 ≠ 0 ∧ p.headD 0 = q.headD 0 then strncmp p.tail q.tail n
    else (p.headD 0 : ℤ) - q.headD 0

/-- The C string in the first `n` bytes: the bytes before the first `0`, all `n` if there is
none. -/
def cstr (n : ℕ) (p : List ℕ) : List ℕ := (p.take n).takeWhile (· ≠ 0)

@[simp] theorem cstr_zero (p : List ℕ) : cstr 0 p = [] := rfl

@[simp] theorem cstr_nil (n : ℕ) : cstr n [] = [] := by
  simp [cstr]

theorem cstr_cons (n a : ℕ) (p : List ℕ) :
    cstr (n + 1) (a :: p) = if a = 0 then [] else a :: cstr n p := by
  by_cases ha : a = 0 <;> simp [cstr, ha]

/-- **`strncmp` compares C strings**: it returns `0` exactly when the strings in the first `n`
bytes are equal. -/
theorem strncmp_eq_zero_iff (p q : List ℕ) (n : ℕ) : strncmp p q n = 0 ↔ cstr n p = cstr n q := by
  induction n generalizing p q with
  | zero => simp [strncmp]
  | succ n ih =>
    -- past the end of a list the byte is `0`, as at a terminator
    obtain ⟨a, p', hp⟩ : ∃ a p', cstr (n + 1) p = cstr (n + 1) (a :: p') ∧ p.headD 0 = a ∧
        p.tail = p' := by
      cases p with
      | nil => exact ⟨0, [], by simp [cstr_cons], rfl, rfl⟩
      | cons a p' => exact ⟨a, p', rfl, rfl, rfl⟩
    obtain ⟨b, q', hq⟩ : ∃ b q', cstr (n + 1) q = cstr (n + 1) (b :: q') ∧ q.headD 0 = b ∧
        q.tail = q' := by
      cases q with
      | nil => exact ⟨0, [], by simp [cstr_cons], rfl, rfl⟩
      | cons b q' => exact ⟨b, q', rfl, rfl, rfl⟩
    rw [strncmp, hp.1, hq.1, hp.2.1, hq.2.1, hp.2.2, hq.2.2, cstr_cons, cstr_cons]
    by_cases hab : a ≠ 0 ∧ a = b
    · obtain ⟨ha, rfl⟩ := hab
      rw [if_pos ⟨ha, rfl⟩, ih]
      simp [ha]
    · rw [if_neg hab]
      by_cases ha : a = 0
      · by_cases hb : b = 0
        · simp [ha, hb]
        · simp [ha, hb]
      · have hb : a ≠ b := fun h => hab ⟨ha, h⟩
        by_cases hb0 : b = 0
        · simp [ha, hb0]
        · simp only [ha, hb0, if_false, List.cons.injEq, hb, false_and, iff_false]
          omega

/-! ### `strncpy` -/

/-- `strncpy(s, t, n)`: the `n` bytes it stores at `s`.  The first loop copies `t` up to and with
its first `0`, the second pads with `0`s; a byte past the end of `t` reads as `0`. -/
def strncpy : List ℕ → ℕ → List ℕ
  | _, 0 => []
  | t, n + 1 => if t.headD 0 ≠ 0 then t.headD 0 :: strncpy t.tail n else List.replicate (n + 1) 0

@[simp] theorem strncpy_length (t : List ℕ) (n : ℕ) : (strncpy t n).length = n := by
  induction n generalizing t with
  | zero => rfl
  | succ n ih =>
    rw [strncpy]
    split_ifs <;> simp [ih]

/-- **`strncpy` keeps the C string**: what it stores, read as a string of `n` bytes, is the
source's string in its first `n` bytes. -/
theorem cstr_strncpy (t : List ℕ) (n : ℕ) : cstr n (strncpy t n) = cstr n t := by
  induction n generalizing t with
  | zero => rfl
  | succ n ih =>
    rw [strncpy]
    cases t with
    | nil => simp [List.replicate_succ, cstr_cons]
    | cons a t =>
      by_cases ha : a = 0
      · -- the terminator is copied, then only padding: both strings end here
        rw [if_neg (show ¬(a :: t).headD 0 ≠ 0 from not_not.mpr ha), List.replicate_succ, cstr_cons,
          cstr_cons, if_pos rfl, if_pos ha]
      · rw [if_pos (show (a :: t).headD 0 ≠ 0 from ha), List.headD_cons, List.tail_cons, cstr_cons,
          cstr_cons, ih]

end Xv6Lab.Strings
