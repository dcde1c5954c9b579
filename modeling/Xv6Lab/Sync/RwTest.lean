import Xv6Lab.Kernel.SyscallArgs
import Mathlib.Data.Nat.Digits.Lemmas

/-!
# The lock tests (`sysproc.c`)

`sys_rwtest(pattern)` and `sys_wrtest(pattern)` decode `pattern` into `int bits[32]`, least
significant digit first, then drop the leading `1` (`i -= 2`) and run one critical section per
remaining digit, most significant first: a read of `read_write_race` under the reader's side of
the lock for `0`, and `read_write_race++` under the writer's side for `1`.  The two handlers differ
only in the lock (`rwLock` of `rw_lock.c`, `wrLock` of `wr_lock.c`).

* `decodeLoop_spec` — the decoding loop leaves `i` at the number of binary digits and `bits[k]`
  at digit `k`, and for a 32-bit pattern it stores inside `bits[]` only;
* `patternTest_spec` — the sections are the digits below the leading `1`, most significant
  first: none for `pattern <= 1`, and every read of `bits[]` inside it;
* `rwtest_ignores_argument` — `syscall.c` declares the handlers `int sys_rwtest(void)` and calls
  `syscalls[num]()` without arguments, so `pattern` is whatever word lies above the return address
  on the kernel stack, not the argument `rwtest(18)` put on the user stack.
-/

namespace Xv6Lab.RwTest

open Function Run

/-- The lock a test brackets its sections with. -/
inductive TestLock where
  | rwLock
  | wrLock
  deriving DecidableEq, Repr

/-- A critical section: `readData = read_write_race` under the reader's side of the lock, or
`read_write_race++` under the writer's side. -/
inductive CritSection where
  | read
  | write
  deriving DecidableEq, Repr

/-- The section run for a digit: a read for `0`, a write for anything else. -/
def sectionOf (b : ℕ) : CritSection := if b = 0 then .read else .write

/-- `while (pattern > 0) { bits[i] = pattern % 2; pattern = pattern / 2; i++; }` with `fuel`
iterations left: the final `i` and `bits`.  A store past `bits[31]` is out of bounds. -/
def decodeLoop : ℕ → ℕ → ℕ → (ℕ → ℕ) → Except Crash (ℕ × (ℕ → ℕ))
  | 0, _, i, bits => .ok (i, bits)
  | fuel + 1, pattern, i, bits =>
    if 0 < pattern then
      if i < 32 then decodeLoop fuel (pattern / 2) (i + 1) (update bits i (pattern % 2))
      else .error (.outOfBounds "bits" i)
    else .ok (i, bits)

/-- `for (j = i; j >= 0; j--)` after `i -= 2`, from `j = k - 1` down to `0`: the section of each
`bits[j]`, which must lie inside `bits[]`. -/
def sectionsLoop (bits : ℕ → ℕ) : ℕ → Except Crash (List CritSection)
  | 0 => .ok []
  | k + 1 =>
    if k < 32 then (sectionsLoop bits k).map (sectionOf (bits k) :: ·)
    else .error (.outOfBounds "bits" k)

/-- A test with lock `lk` on `pattern`, `bits[]` holding `bits0` before the loop (it is not
initialised).  The loop halves `pattern`, so `pattern + 1` iterations always reach `0`; the
second loop runs `i - 1` times (`j` from `i - 2` down to `0`). -/
def patternTest (lk : TestLock) (bits0 : ℕ → ℕ) (pattern : ℕ) :
    Except Crash (List (TestLock × CritSection)) := do
  let (i, bits) ← decodeLoop (pattern + 1) pattern 0 bits0
  let secs ← sectionsLoop bits (i - 1)
  pure (secs.map (lk, ·))

/-- `sys_rwtest(pattern)`. -/
def sys_rwtest (bits0 : ℕ → ℕ) (pattern : ℕ) : Except Crash (List (TestLock × CritSection)) :=
  patternTest .rwLock bits0 pattern

/-- `sys_wrtest(pattern)`. -/
def sys_wrtest (bits0 : ℕ → ℕ) (pattern : ℕ) : Except Crash (List (TestLock × CritSection)) :=
  patternTest .wrLock bits0 pattern

/-! ### The decoding -/

/-- **The decoding loop** from `i` stores the binary digits of `pattern` at `bits[i]` on, leaves
the cells below `i` alone, and ends with `i` past the digits, when they fit below `bits[32]` and
the fuel covers `pattern`. -/
theorem decodeLoop_spec (fuel : ℕ) : ∀ (pattern i : ℕ) (bits : ℕ → ℕ), pattern ≤ fuel →
    i + (Nat.digits 2 pattern).length ≤ 32 →
    ∃ bits', decodeLoop fuel pattern i bits = .ok (i + (Nat.digits 2 pattern).length, bits') ∧
      (∀ k < (Nat.digits 2 pattern).length, bits' (i + k) = (Nat.digits 2 pattern).getD k 0) ∧
      ∀ k < i, bits' k = bits k := by
  induction fuel with
  | zero =>
    intro pattern i bits hp _
    have h0 : pattern = 0 := by omega
    subst h0
    exact ⟨bits, rfl, fun k hk => absurd hk (by simp), fun _ _ => rfl⟩
  | succ fuel ih =>
    intro pattern i bits hp hfit
    by_cases hpos : 0 < pattern
    · -- one more digit: `pattern % 2`, then the digits of `pattern / 2`
      have hdig : Nat.digits 2 pattern = pattern % 2 :: Nat.digits 2 (pattern / 2) :=
        Nat.digits_def' (by norm_num) hpos
      rw [hdig, List.length_cons] at hfit ⊢
      obtain ⟨bits', hrun, hbits, hframe⟩ := ih (pattern / 2) (i + 1)
        (update bits i (pattern % 2)) (by omega) (by omega)
      refine ⟨bits', ?_, fun k hk => ?_, fun k hk => ?_⟩
      · rw [decodeLoop, if_pos hpos, if_pos (by omega), hrun]
        congr 2
        omega
      · cases k with
        | zero =>
          rw [Nat.add_zero, hframe i (by omega), update_self]
          rfl
        | succ k =>
          rw [show i + (k + 1) = i + 1 + k by omega, hbits k (by omega)]
          rfl
      · rw [hframe k (by omega), update_of_ne (by omega)]
    · have h0 : pattern = 0 := by omega
      subst h0
      exact ⟨bits, by rw [decodeLoop, if_neg hpos]; rfl, fun k hk => absurd hk (by simp),
        fun _ _ => rfl⟩

/-- **The sections loop** reads `bits[j]` for `j` from `k - 1` down to `0`, all inside `bits[]`. -/
theorem sectionsLoop_spec (bits : ℕ → ℕ) (k : ℕ) (hk : k ≤ 32) :
    sectionsLoop bits k = .ok ((List.range k).reverse.map fun j => sectionOf (bits j)) := by
  induction k with
  | zero => rfl
  | succ k ih =>
    rw [sectionsLoop, if_pos (by omega), ih (by omega), List.range_succ, List.reverse_append]
    rfl

/-- The cells below the last of a table holding a list, read in order, are the list without its
last entry. -/
theorem range_map_eq_dropLast (l : List ℕ) (f : ℕ → CritSection) {bits : ℕ → ℕ}
    (hbits : ∀ k < l.length, bits k = l.getD k 0) :
    (List.range (l.length - 1)).map (fun j => f (bits j)) = l.dropLast.map f := by
  apply List.ext_getElem
  · simp
  · intro n h₁ h₂
    simp only [List.length_map, List.length_range] at h₁
    rw [List.getElem_map, List.getElem_map, List.getElem_range, List.getElem_dropLast,
      hbits n (by omega)]
    simp [List.getElem?_eq_getElem (show n < l.length by omega)]

/-- **A test runs one section per digit below the leading `1`**, most significant first: a read
for `0` and a write for `1`, none when `pattern <= 1`, for every 32-bit pattern and whatever
`bits[]` held before. -/
theorem patternTest_spec (lk : TestLock) (bits0 : ℕ → ℕ) {pattern : ℕ} (h : pattern < 2 ^ 32) :
    patternTest lk bits0 pattern =
      .ok (((Nat.digits 2 pattern).dropLast.reverse.map sectionOf).map (lk, ·)) := by
  have hlen : (Nat.digits 2 pattern).length ≤ 32 :=
    (Nat.digits_length_le_iff (by norm_num) pattern).mpr h
  obtain ⟨bits, hrun, hbits, -⟩ := decodeLoop_spec (pattern + 1) pattern 0 bits0 (by omega)
    (by omega)
  simp only [Nat.zero_add] at hrun hbits
  unfold patternTest
  rw [hrun, except_ok_bind]
  dsimp only
  rw [sectionsLoop_spec bits _ (by omega), except_ok_bind]
  simp only [List.map_reverse]
  rw [range_map_eq_dropLast _ sectionOf hbits]
  rfl

/-! ### The call from `syscall()` -/

/-- `syscall()`'s `curproc->tf->eax = syscalls[num]()` for `SYS_rwtest`.  `syscall.c` declares
the handler `int sys_rwtest(void)` and pushes no argument, so its `uint pattern` parameter is the
word `w` that lies above the return address on the kernel stack.  The caller's argument, at
`tf->esp + 4` on the user stack, is never fetched: nothing calls `argint(0, ...)`. -/
def syscall_rwtest (_u : CurProc) (w : ℕ) (bits0 : ℕ → ℕ) :
    Except Crash (List (TestLock × CritSection)) :=
  sys_rwtest bits0 (w % 2 ^ 32)

/-- A process that has called `rwtest(18)`: the word at `esp + 4` is `18`. -/
def rwtestCaller : CurProc :=
  ⟨4096, 4000, fun a => if a = 4004 then 18 else 0, fun a => show (if a = 4004 then 18 else 0) < 256 by split <;> decide⟩

/-- **The test does not run the caller's pattern.**  `rwtest(18)` asks for the sections of
`0b0010`, read, read, write, read; the kernel runs those of the word on its own stack, none when
that word is `0`. -/
theorem rwtest_ignores_argument :
    argint rwtestCaller 0 = some 18 ∧
      sys_rwtest (fun _ => 0) 18 =
        .ok [(.rwLock, .read), (.rwLock, .read), (.rwLock, .write), (.rwLock, .read)] ∧
      syscall_rwtest rwtestCaller 0 (fun _ => 0) = .ok [] := by
  refine ⟨by decide, ?_, rfl⟩
  rw [sys_rwtest, patternTest_spec _ _ (by norm_num)]
  norm_num [sectionOf]

end Xv6Lab.RwTest
