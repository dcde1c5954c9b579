import Mathlib.Tactic.Ring
import Mathlib.Tactic.Linarith

/-!
# Kernel parameters, 32-bit addresses, crashes and spin locks

The constants of `param.h`, `mmu.h` and `memlayout.h` the models read, the 32-bit unsigned
arithmetic of `uint` addresses (`wrap`, `pgroundup`, `pgrounddown`, `V2P`/`P2V`), and the two
ways a kernel path can stop:

* `Crash.panic msg` — the path calls `panic(msg)` (the message is the source's own text);
* `Crash.outOfBounds arr i` / `Crash.nullDeref what` — the path indexes an array outside its
  bounds or reads through a null pointer: undefined behaviour, after which the model says nothing.

A kernel path is an `Except Crash` computation.  `acquire`/`release` are `spinlock.c`'s for a
caller running alone: `holding(lk)` is the lock's `locked` bit, and each panics exactly where the
source does (`acquire` of a held lock, `release` of a free one).
-/

namespace Xv6Lab

/-! ### Parameters -/

/-- `NPROC`: the size of the process table. -/
abbrev NPROC : ℕ := 64

/-- Slots of the process table are `Fin NPROC`, with numerals. -/
instance : NeZero NPROC := ⟨by decide⟩
def PGSIZE : ℕ := 4096
def KERNBASE : ℕ := 0x80000000
def PHYSTOP : ℕ := 0xE000000
def DEVSPACE : ℕ := 0xFE000000
def NPDENTRIES : ℕ := 1024

/-- The number of values of a 32-bit `uint`. -/
def UINT : ℕ := 2 ^ 32

/-- A `uint` result: the value reduced modulo `2^32`. -/
def wrap (x : ℕ) : ℕ := x % UINT

/-- `PGROUNDUP(sz)`: `(sz + PGSIZE - 1) & ~(PGSIZE - 1)` in 32-bit arithmetic. -/
def pgroundup (sz : ℕ) : ℕ := wrap (sz + PGSIZE - 1) / PGSIZE * PGSIZE

/-- `PGROUNDDOWN(a)`. -/
def pgrounddown (a : ℕ) : ℕ := a / PGSIZE * PGSIZE

/-- `PDX(va)`: the page-directory index of a 32-bit address. -/
def PDX (va : ℕ) : ℕ := va / 2 ^ 22 % NPDENTRIES

/-- `V2P(a)`: kernel virtual to physical, `a - KERNBASE` as a `uint`. -/
def V2P (a : ℕ) : ℕ := wrap (a + UINT - KERNBASE)

/-- `P2V(a)`: physical to kernel virtual. -/
def P2V (a : ℕ) : ℕ := wrap (a + KERNBASE)

/-- A 32-bit `uint` `a - b`. -/
def usub (a b : ℕ) : ℕ := wrap (a + UINT - b)

/-- An `int` result: the value reduced to `[-2^31, 2^31)`, as signed arithmetic wraps on the
32-bit target. -/
def iwrap (x : ℤ) : ℤ := (x + 2 ^ 31) % 2 ^ 32 - 2 ^ 31

/-! ### Crashes -/

/-- How a kernel path stops instead of returning. -/
inductive Crash where
  /-- `panic(msg)`. -/
  | panic (msg : String)
  /-- An array access `arr[i]` outside the array's bounds. -/
  | outOfBounds (arr : String) (i : ℤ)
  /-- A read through a null pointer. -/
  | nullDeref (what : String)
  deriving DecidableEq, Repr

/-- `acquire(lk)` for a caller running alone: `held` is `holding(lk)`. -/
def acquire (held : Bool) : Except Crash Bool :=
  if held then .error (.panic "acquire") else .ok true

/-- `release(lk)`: panics unless the caller holds the lock. -/
def release (held : Bool) : Except Crash Bool :=
  if held then .ok false else .error (.panic "release")

@[simp] theorem acquire_free : acquire false = .ok true := rfl
@[simp] theorem acquire_held : acquire true = .error (.panic "acquire") := rfl
@[simp] theorem release_held : release true = .ok false := rfl
@[simp] theorem release_free : release false = .error (.panic "release") := rfl

/-! ### Address arithmetic -/

theorem wrap_of_lt {x : ℕ} (h : x < UINT) : wrap x = x := Nat.mod_eq_of_lt h

theorem wrap_lt (x : ℕ) : wrap x < UINT := Nat.mod_lt _ (by decide)

theorem iwrap_of_mem {x : ℤ} (h₁ : -2 ^ 31 ≤ x) (h₂ : x < 2 ^ 31) : iwrap x = x := by
  unfold iwrap
  omega

theorem usub_of_le {a b : ℕ} (h : b ≤ a) (ha : a < UINT) : usub a b = a - b := by
  unfold usub
  rw [show a + UINT - b = a - b + UINT by omega, wrap, Nat.add_mod_right,
    Nat.mod_eq_of_lt (by omega)]

theorem pgroundup_of_lt {sz : ℕ} (h : sz < KERNBASE) :
    pgroundup sz = (sz + PGSIZE - 1) / PGSIZE * PGSIZE := by
  unfold pgroundup
  rw [wrap_of_lt (by unfold UINT KERNBASE PGSIZE at *; omega)]

theorem pgroundup_dvd (sz : ℕ) : PGSIZE ∣ pgroundup sz :=
  Nat.dvd_mul_left _ _

theorem le_pgroundup {sz : ℕ} (h : sz < KERNBASE) : sz ≤ pgroundup sz := by
  rw [pgroundup_of_lt h]
  unfold PGSIZE
  omega

theorem pgroundup_lt {sz : ℕ} (h : sz < KERNBASE) : pgroundup sz < sz + PGSIZE := by
  rw [pgroundup_of_lt h]
  unfold PGSIZE
  omega

theorem pgroundup_le_kernbase {sz : ℕ} (h : sz ≤ KERNBASE) : pgroundup sz ≤ KERNBASE := by
  unfold pgroundup wrap UINT
  unfold KERNBASE PGSIZE at *
  omega

theorem pgroundup_of_dvd {sz : ℕ} (h : sz < KERNBASE) (hd : PGSIZE ∣ sz) : pgroundup sz = sz := by
  rw [pgroundup_of_lt h]
  obtain ⟨k, rfl⟩ := hd
  unfold PGSIZE
  omega

theorem V2P_P2V {a : ℕ} (h : a < UINT - KERNBASE) : V2P (P2V a) = a := by
  unfold V2P P2V wrap UINT at *
  unfold KERNBASE at *
  omega

theorem P2V_V2P {a : ℕ} (h : KERNBASE ≤ a) (h' : a < UINT) : P2V (V2P a) = a := by
  unfold V2P P2V wrap UINT at *
  unfold KERNBASE at *
  omega

end Xv6Lab
