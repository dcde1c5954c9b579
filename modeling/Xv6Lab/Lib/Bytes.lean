import Mathlib.Logic.Function.Basic
import Mathlib.Algebra.Order.Group.Nat

/-!
# Byte buffers

A block of a disk, or a record in memory, as a byte buffer `ℕ → ℕ`: byte `k` at index `k`.
C code reaches into such a buffer in three ways, and each has its operation and its laws here:

* `place buf o n src` — `memmove(buf + o, src, n)`: `n` bytes of `src` land at offset `o`
  (`place_of_lt`, `place_of_ge`, `place_of_mem`);
* `getLE buf o w` / `setLE buf o w v` — a `w`-byte little-endian unsigned field at offset `o`
  (`getLE_setLE`, `getLE_congr`, `getLE_place`);
* `bit buf i` / `setBit` / `clearBit` — bit `i % 8` of byte `i / 8`, as a bitmap is read and
  written one byte at a time (`bit_setBit`, `bit_clearBit`).

Every law is a frame rule (what an access leaves alone) or a read-back rule (what it reads
after a write), so proofs about records never unfold the byte arithmetic.
-/

namespace Xv6Lab.Bytes

open Function

/-- A byte buffer: byte `k` at index `k`. -/
abbrev Buf := ℕ → ℕ

/-- The all-zero buffer, `memset(buf, 0, n)` over the whole buffer. -/
def zero : Buf := fun _ => 0

/-! ### Copies -/

/-- `memmove(buf + o, src, n)`. -/
def place (buf : Buf) (o n : ℕ) (src : Buf) : Buf :=
  fun k => if o ≤ k ∧ k < o + n then src (k - o) else buf k

theorem place_of_lt {buf src : Buf} {o n k : ℕ} (hk : k < o) : place buf o n src k = buf k := by
  simp [place, show ¬o ≤ k by omega]

theorem place_of_ge {buf src : Buf} {o n k : ℕ} (hk : o + n ≤ k) : place buf o n src k = buf k := by
  simp [place, show ¬k < o + n by omega]

theorem place_of_mem {buf src : Buf} {o n k : ℕ} (h1 : o ≤ k) (h2 : k < o + n) :
    place buf o n src k = src (k - o) := by
  simp [place, h1, h2]

/-- The bytes of a list, then zeros: the source of a `memmove` from a C array. -/
def ofList (l : List ℕ) : Buf := fun k => l.getD k 0

/-! ### Little-endian fields -/

/-- Byte `r` of the little-endian encoding of `v`. -/
def byteOf (v r : ℕ) : ℕ := v / 256 ^ r % 256

/-- The `w`-byte little-endian unsigned number at offset `o`. -/
def getLE (buf : Buf) (o : ℕ) : ℕ → ℕ
  | 0 => 0
  | w + 1 => buf o % 256 + 256 * getLE buf (o + 1) w

/-- A field read through a buffer shifted by `o` is the field `o` bytes further on. -/
theorem getLE_shift (buf : Buf) (o a w : ℕ) :
    getLE (fun k => buf (o + k)) a w = getLE buf (o + a) w := by
  induction w generalizing a with
  | zero => rfl
  | succ w ih => rw [getLE, getLE, ih, Nat.add_assoc]

/-- Store `v` as a `w`-byte little-endian number at offset `o`. -/
def setLE (buf : Buf) (o w v : ℕ) : Buf := place buf o w (byteOf v)

/-- A field reads only its own bytes. -/
theorem getLE_congr {buf buf' : Buf} {o : ℕ} (w : ℕ)
    (h : ∀ k, o ≤ k → k < o + w → buf k = buf' k) : getLE buf o w = getLE buf' o w := by
  induction w generalizing o with
  | zero => rfl
  | succ w ih =>
    simp only [getLE]
    rw [h o le_rfl (by omega), ih fun k h1 h2 => h k (by omega) (by omega)]

theorem getLE_lt (buf : Buf) (o w : ℕ) : getLE buf o w < 256 ^ w := by
  induction w generalizing o with
  | zero => simp [getLE]
  | succ w ih =>
    have h1 := Nat.mod_lt (buf o) (show 0 < 256 by omega)
    have h2 := ih (o + 1)
    rw [getLE, pow_succ]
    omega

/-- A field of a zeroed buffer reads `0`. -/
@[simp] theorem getLE_zero (o w : ℕ) : getLE zero o w = 0 := by
  induction w generalizing o with
  | zero => rfl
  | succ w ih => simp [getLE, zero, ih]

/-- A field splits at any byte into its low and its high part. -/
theorem getLE_add (buf : Buf) (o a b : ℕ) :
    getLE buf o (a + b) = getLE buf o a + 256 ^ a * getLE buf (o + a) b := by
  induction a generalizing o with
  | zero => simp [getLE]
  | succ a ih =>
    rw [show a + 1 + b = a + b + 1 by omega, getLE, ih, getLE, pow_succ',
      show o + 1 + a = o + (a + 1) by omega, Nat.mul_add, Nat.mul_assoc, Nat.add_assoc]

/-- The bytes of `v` from byte `o` on, read back as a `w`-byte number. -/
theorem getLE_byteOf (v o w : ℕ) : getLE (byteOf v) o w = v / 256 ^ o % 256 ^ w := by
  induction w generalizing o with
  | zero => simp [getLE, Nat.mod_one]
  | succ w ih =>
    rw [getLE, ih, byteOf, Nat.mod_mod, pow_succ' 256 w, Nat.mod_mul, Nat.div_div_eq_div_mul,
      ← pow_succ 256 o]

/-- A field read at the offset where a buffer was placed reads the buffer. -/
theorem getLE_place {buf src : Buf} {o n a w : ℕ} (h : a + w ≤ n) :
    getLE (place buf o n src) (o + a) w = getLE src a w := by
  induction w generalizing a with
  | zero => rfl
  | succ w ih =>
    rw [getLE, getLE, place_of_mem (by omega) (by omega), show o + a + 1 = o + (a + 1) by omega,
      ih (by omega), Nat.add_sub_cancel_left]

/-- **Frame rule**: a field outside the placed bytes keeps its value. -/
theorem getLE_place_of_disjoint {buf src : Buf} {o n o' w : ℕ} (h : o' + w ≤ o ∨ o + n ≤ o') :
    getLE (place buf o n src) o' w = getLE buf o' w :=
  getLE_congr w fun k h1 h2 => by
    rcases h with h | h
    · exact place_of_lt (by omega)
    · exact place_of_ge (by omega)

/-- **Read-back rule**: a field reads what was stored into it, below `256 ^ w`. -/
theorem getLE_setLE (buf : Buf) (o : ℕ) {w v : ℕ} (hv : v < 256 ^ w) :
    getLE (setLE buf o w v) o w = v := by
  have h : getLE (place buf o w (byteOf v)) (o + 0) w = getLE (byteOf v) 0 w :=
    getLE_place (by omega)
  rw [Nat.add_zero] at h
  rw [setLE, h, getLE_byteOf, pow_zero, Nat.div_one, Nat.mod_eq_of_lt hv]

/-- A field whose bytes are those of `v` reads `v`. -/
theorem getLE_of_bytes {buf : Buf} {o w v : ℕ} (hv : v < 256 ^ w)
    (h : ∀ k, o ≤ k → k < o + w → buf k = byteOf v (k - o)) : getLE buf o w = v := by
  have hcongr : getLE buf o w = getLE (setLE zero o w v) o w :=
    getLE_congr w fun k h1 h2 => by rw [h k h1 h2, setLE, place_of_mem h1 h2]
  rw [hcongr]
  exact getLE_setLE zero o hv

theorem getLE_place_zero {buf src : Buf} {o n w : ℕ} (h : w ≤ n) :
    getLE (place buf o n src) o w = getLE src 0 w := by
  have h' : getLE (place buf o n src) (o + 0) w = getLE src 0 w := getLE_place (by omega)
  rwa [Nat.add_zero] at h'

theorem getLE_setLE_of_disjoint {buf : Buf} {o w v o' w' : ℕ} (h : o' + w' ≤ o ∨ o + w ≤ o') :
    getLE (setLE buf o w v) o' w' = getLE buf o' w' :=
  getLE_place_of_disjoint h

/-! ### Bits -/

/-- Bit `i % 8` of byte `i / 8`: `buf[i/8] & (1 << (i % 8))`. -/
def bit (buf : Buf) (i : ℕ) : Bool := (buf (i / 8)).testBit (i % 8)

/-- `buf[i/8] |= 1 << (i % 8)`. -/
def setBit (buf : Buf) (i : ℕ) : Buf := update buf (i / 8) (buf (i / 8) ||| 2 ^ (i % 8))

/-- `buf[i/8] &= ~(1 << (i % 8))` on a byte. -/
def clearBit (buf : Buf) (i : ℕ) : Buf := update buf (i / 8) (buf (i / 8) &&& (255 - 2 ^ (i % 8)))

/-- Inside a byte, `255 - 2 ^ a` has every bit but `a`. -/
theorem testBit_mask {a b : ℕ} (ha : a < 8) (hb : b < 8) :
    (255 - 2 ^ a).testBit b = decide (b ≠ a) := by
  have key : ∀ a < 8, ∀ b < 8, (255 - 2 ^ a).testBit b = decide (b ≠ a) := by decide
  exact key a ha b hb

/-- Two bit indices in one byte differ in their position inside it. -/
theorem mod_ne_of_div_eq {i j : ℕ} (hij : j ≠ i) (hdiv : j / 8 = i / 8) : j % 8 ≠ i % 8 := by
  omega

theorem bit_setBit (buf : Buf) (i j : ℕ) : bit (setBit buf i) j = (bit buf j || decide (j = i)) := by
  unfold bit setBit
  by_cases hdiv : j / 8 = i / 8
  · rw [hdiv, update_self, Nat.testBit_or, Nat.testBit_two_pow]
    by_cases hji : j = i
    · subst hji
      simp
    · simp [hji, Ne.symm (mod_ne_of_div_eq hji hdiv)]
  · have hji : j ≠ i := fun h => hdiv (h ▸ rfl)
    simp [update_of_ne hdiv, hji]

theorem bit_clearBit (buf : Buf) (i j : ℕ) :
    bit (clearBit buf i) j = (bit buf j && !decide (j = i)) := by
  unfold bit clearBit
  by_cases hdiv : j / 8 = i / 8
  · rw [hdiv, update_self, Nat.testBit_and,
      testBit_mask (Nat.mod_lt i (by omega)) (Nat.mod_lt j (by omega))]
    by_cases hji : j = i
    · subst hji
      simp
    · simp [hji, mod_ne_of_div_eq hji hdiv]
  · have hji : j ≠ i := fun h => hdiv (h ▸ rfl)
    simp [update_of_ne hdiv, hji]

/-- **Frame rule**: writing one bit leaves every field clear of its byte alone. -/
theorem getLE_update_of_disjoint {buf : Buf} {k v o w : ℕ} (h : k < o ∨ o + w ≤ k) :
    getLE (update buf k v) o w = getLE buf o w :=
  getLE_congr w fun m h1 h2 => update_of_ne (by omega) _ _

end Xv6Lab.Bytes
