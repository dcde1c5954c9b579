import Xv6Lab.Kernel.SyscallLog
import Xv6Lab.Lib.Bytes

/-!
# Fetching system-call arguments (`syscall.c`, `sysfile.c`)

A system call's arguments are the words above the saved user `%esp`.  `argint`, `argptr` and
`argstr` fetch the `n`th of them through `fetchint` and `fetchstr`, which check addresses
against `curproc->sz` in 32-bit unsigned arithmetic; the kernel then reads and writes the user
image through the pointers they return.  `sys_exec` fetches its `argv` array word by word into
a local array of `MAXARG` entries.

* `fetchint_eq_some_iff`, `fetchstr_eq_some_iff`, `argptr_eq_some_iff` — the checks, read off;
* `fetchint_confined`, `argptr_confined`, `argstr_confined` — a success puts every byte the
  caller may then use below `sz`;
* `execArgv_length`, `execArgv_slots` — `sys_exec`'s loop fills fewer than `MAXARG` entries and
  fetches no word of `uargv` past slot `MAXARG - 1`;
* `SameImage`, `argstr_congr`, `sysExecArgs_congr` — what is fetched depends on the image below
  `sz` only;
* `user_pointers_confined` — all of it, for every process with `sz < KERNBASE`.
-/

namespace Xv6Lab

open Bytes

/-- `MAXARG`: the entries of `sys_exec`'s `argv`. -/
def MAXARG : ℕ := 32

/-- What the fetchers read of the calling process: `curproc->sz`, the saved `tf->esp`, and the
bytes at each virtual address as the kernel reads them through the process's page table. -/
structure CurProc where
  sz : ℕ
  esp : ℕ
  mem : Buf
  mem_lt : ∀ a, mem a < 256

/-- `fetchint(addr, ip)`: `none` for `-1`, else the `int` stored at `addr`. -/
def fetchint (u : CurProc) (addr : ℕ) : Option ℤ :=
  if addr ≥ u.sz ∨ wrap (addr + 4) > u.sz then none
  else some (uintToInt (getLE u.mem addr 4))

/-- `for(s = *pp; s < ep; s++) if(*s == 0) return s - *pp;` from `s` with `n` iterations left:
the distance to the first NUL, `none` when the loop ends without one. -/
def nulScan (mem : Buf) (s : ℕ) : ℕ → Option ℕ
  | 0 => none
  | n + 1 => if mem s = 0 then some 0 else (nulScan mem (s + 1) n).map (· + 1)

/-- `fetchstr(addr, pp)`: the length of the string at `addr`, which `*pp` then points to. -/
def fetchstr (u : CurProc) (addr : ℕ) : Option ℕ :=
  if addr ≥ u.sz then none else nulScan u.mem addr (u.sz - addr)

/-- `argint(n, ip)`: the word at `tf->esp + 4 + 4*n`. -/
def argint (u : CurProc) (n : ℕ) : Option ℤ :=
  fetchint u (wrap (u.esp + 4 + 4 * n))

/-- `argptr(n, pp, size)`: the `n`th word as a pointer to `size` bytes. -/
def argptr (u : CurProc) (n : ℕ) (size : ℤ) : Option ℕ := do
  let i ← argint u n
  if size < 0 ∨ toUint i ≥ u.sz ∨ wrap (toUint i + toUint size) > u.sz then none
  else some (toUint i)

/-- `argstr(n, pp)`: the `n`th word as a string pointer, with the string's length. -/
def argstr (u : CurProc) (n : ℕ) : Option (ℕ × ℕ) := do
  let addr ← argint u n
  let len ← fetchstr u (toUint addr)
  pure (toUint addr, len)

/-- `sys_exec`'s loop from `i` on: `i >= NELEM(argv)` fails; else `uargv[i]` is fetched, `0` ends
`argv`, and any other word must be accepted by `fetchstr` as `argv[i]`. -/
def execArgv (u : CurProc) (uargv : ℕ) (i : ℕ) : Option (List ℕ) :=
  if MAXARG ≤ i then none
  else match fetchint u (wrap (uargv + 4 * i)) with
    | none => none
    | some uarg =>
      if uarg = 0 then some []
      else match fetchstr u (toUint uarg) with
        | none => none
        | some _ => (execArgv u uargv (i + 1)).map (toUint uarg :: ·)
termination_by MAXARG - i

/-- The argument half of `sys_exec`: `argstr(0, &path)`, `argint(1, &uargv)`, then the loop. -/
def sysExecArgs (u : CurProc) : Option ((ℕ × ℕ) × List ℕ) := do
  let path ← argstr u 0
  let uargv ← argint u 1
  let argv ← execArgv u (toUint uargv) 0
  pure (path, argv)

/-! ### The checks -/

/-- A NUL-terminated string of `len` bytes at `p`. -/
def StrAt (mem : Buf) (p len : ℕ) : Prop := (∀ j < len, mem (p + j) ≠ 0) ∧ mem (p + len) = 0

theorem strAt_zero {mem : Buf} {p : ℕ} : StrAt mem p 0 ↔ mem p = 0 := by
  simp [StrAt]

theorem strAt_succ {mem : Buf} {p len : ℕ} :
    StrAt mem p (len + 1) ↔ mem p ≠ 0 ∧ StrAt mem (p + 1) len := by
  constructor
  · rintro ⟨hne, hz⟩
    refine ⟨by simpa using hne 0 (by omega), fun j hj => ?_, by
      rwa [Nat.add_assoc, Nat.add_comm 1 len]⟩
    simpa [Nat.add_assoc, Nat.add_comm 1 j] using hne (j + 1) (by omega)
  · rintro ⟨h0, hne, hz⟩
    refine ⟨fun j hj => ?_, by rwa [Nat.add_assoc, Nat.add_comm 1 len] at hz⟩
    rcases j with _ | j
    · simpa using h0
    · simpa [Nat.add_assoc, Nat.add_comm 1 j] using hne j (by omega)

/-- The scan finds the string's NUL within its `n` iterations, and nothing else. -/
theorem nulScan_eq_some_iff (mem : Buf) (s n len : ℕ) :
    nulScan mem s n = some len ↔ len < n ∧ StrAt mem s len := by
  induction n generalizing s len with
  | zero => simp [nulScan]
  | succ n ih =>
    by_cases h0 : mem s = 0
    · -- the scan stops at `s`, and a string at `s` is empty
      have hlen : StrAt mem s len ↔ len = 0 := ⟨fun h => by
        rcases len with _ | len
        · rfl
        · exact absurd h0 (strAt_succ.mp h).1, fun h => h ▸ strAt_zero.mpr h0⟩
      rw [hlen]
      simp only [nulScan, h0, if_true, Option.some.injEq]
      omega
    · rcases len with _ | len
      · simp [nulScan, h0, strAt_zero]
      · simp [nulScan, h0, ih, strAt_succ]

theorem nulScan_congr {mem mem' : Buf} {s : ℕ} (n : ℕ)
    (h : ∀ a, s ≤ a → a < s + n → mem' a = mem a) : nulScan mem' s n = nulScan mem s n := by
  induction n generalizing s with
  | zero => rfl
  | succ n ih =>
    rw [nulScan, nulScan, h s le_rfl (by omega), ih fun a h1 h2 => h a (by omega) (by omega)]

theorem fetchint_eq_some_iff {u : CurProc} {addr : ℕ} {v : ℤ} :
    fetchint u addr = some v ↔
      addr < u.sz ∧ wrap (addr + 4) ≤ u.sz ∧ v = uintToInt (getLE u.mem addr 4) := by
  unfold fetchint
  split_ifs with h
  · simp only [false_iff]
    omega
  · simp only [Option.some.injEq]
    omega

theorem fetchstr_eq_some_iff {u : CurProc} {addr len : ℕ} :
    fetchstr u addr = some len ↔ addr + len < u.sz ∧ StrAt u.mem addr len := by
  unfold fetchstr
  split_ifs with h
  · simp only [false_iff, not_and]
    intro h'
    omega
  · rw [nulScan_eq_some_iff, and_congr_left_iff]
    intro _
    omega

theorem argptr_eq_some_iff {u : CurProc} {n : ℕ} {size : ℤ} {p : ℕ} :
    argptr u n size = some p ↔ ∃ i, argint u n = some i ∧ p = toUint i ∧ 0 ≤ size ∧
      toUint i < u.sz ∧ wrap (toUint i + toUint size) ≤ u.sz := by
  unfold argptr
  cases argint u n with
  | none => simp
  | some i =>
    simp only [Option.bind_eq_bind, Option.bind_some, Option.some.injEq, exists_eq_left']
    split_ifs with h
    · simp only [false_iff]
      omega
    · simp only [Option.some.injEq]
      omega

theorem argstr_eq_some_iff {u : CurProc} {n p len : ℕ} :
    argstr u n = some (p, len) ↔ ∃ a, argint u n = some a ∧ p = toUint a ∧
      fetchstr u p = some len := by
  unfold argstr
  cases argint u n with
  | none => simp
  | some a =>
    simp only [Option.bind_eq_bind, Option.bind_some, Option.pure_def, Option.bind_eq_some_iff,
      Option.some.injEq, Prod.mk.injEq, exists_eq_left']
    constructor
    · rintro ⟨l, hl, rfl, rfl⟩
      exact ⟨rfl, hl⟩
    · rintro ⟨rfl, hl⟩
      exact ⟨len, hl, rfl, rfl⟩

/-! ### What a success leaves the caller -/

/-- Below `KERNBASE`, `addr + 4` does not wrap. -/
theorem wrap_add_four {addr : ℕ} (h : addr < KERNBASE) : wrap (addr + 4) = addr + 4 :=
  wrap_of_lt (by unfold KERNBASE at h; unfold UINT; omega)

/-- The four bytes of a fetched `int` lie below `sz`. -/
theorem fetchint_confined {u : CurProc} (hsz : u.sz < KERNBASE) {addr : ℕ} {v : ℤ}
    (h : fetchint u addr = some v) : addr + 4 ≤ u.sz ∧ v = uintToInt (getLE u.mem addr 4) := by
  obtain ⟨h1, h2, rfl⟩ := fetchint_eq_some_iff.mp h
  rw [wrap_add_four (by omega)] at h2
  exact ⟨h2, rfl⟩

/-- The `size` bytes at a pointer `argptr` accepts lie below `sz`, for every `int` size. -/
theorem argptr_confined {u : CurProc} (hsz : u.sz < KERNBASE) {n : ℕ} {size : ℤ} {p : ℕ}
    (hsize : size < 2 ^ 31) (h : argptr u n size = some p) : 0 ≤ size ∧ p + size.toNat ≤ u.sz := by
  obtain ⟨i, -, rfl, h0, h1, h2⟩ := argptr_eq_some_iff.mp h
  have hs : toUint size = size.toNat := by
    unfold toUint UINT
    omega
  rw [hs, wrap_of_lt (by unfold KERNBASE at hsz; unfold UINT; omega)] at h2
  exact ⟨h0, h2⟩

/-- The string `argstr` accepts, with its NUL, lies below `sz`. -/
theorem argstr_confined {u : CurProc} {n p len : ℕ} (h : argstr u n = some (p, len)) :
    p + len < u.sz ∧ StrAt u.mem p len := by
  obtain ⟨a, -, rfl, hs⟩ := argstr_eq_some_iff.mp h
  exact fetchstr_eq_some_iff.mp hs

/-! ### `sys_exec`'s loop -/

/-- The loop fills fewer than `MAXARG` entries, each a string `fetchstr` accepted. -/
theorem execArgv_length {u : CurProc} {uargv : ℕ} (i : ℕ) (argv : List ℕ) :
    execArgv u uargv i = some argv →
      i + argv.length < MAXARG ∧ ∀ p ∈ argv, ∃ len, fetchstr u p = some len := by
  fun_induction execArgv u uargv i generalizing argv with
  | case1 => simp
  | case2 => simp
  | case3 i hi hget =>
    rintro ⟨⟩
    simp only [List.length_nil, Nat.add_zero, List.not_mem_nil, false_implies, implies_true,
      and_true]
    omega
  | case4 => simp
  | case5 i hi uarg hget h0 len hstr ih =>
    intro h
    obtain ⟨rest, hrest, rfl⟩ := Option.map_eq_some_iff.mp h
    obtain ⟨hlen, hmem⟩ := ih rest hrest
    refine ⟨by simp only [List.length_cons]; omega, ?_⟩
    rintro p (_ | ⟨_, hp⟩)
    · exact ⟨len, hstr⟩
    · exact hmem p hp

/-- **At most `MAXARG` words of `uargv` are fetched**: the loop from `i` is the same for any two
fetchers that agree on slots `i` to `MAXARG - 1` and on strings. -/
theorem execArgv_slots {u u' : CurProc} {uargv : ℕ} (i : ℕ)
    (hint : ∀ j, i ≤ j → j < MAXARG →
      fetchint u' (wrap (uargv + 4 * j)) = fetchint u (wrap (uargv + 4 * j)))
    (hstr : ∀ a, fetchstr u' a = fetchstr u a) :
    execArgv u' uargv i = execArgv u uargv i := by
  fun_induction execArgv u uargv i with
  | case1 i hi => rw [execArgv, if_pos hi]
  | case2 i hi hget => rw [execArgv, if_neg hi, hint i le_rfl (by omega), hget]
  | case3 i hi hget => rw [execArgv, if_neg hi, hint i le_rfl (by omega), hget]; rfl
  | case4 i hi uarg hget h0 hs =>
    rw [execArgv, if_neg hi, hint i le_rfl (by omega), hget]
    simp [h0, hstr, hs]
  | case5 i hi uarg hget h0 len hs ih =>
    rw [execArgv, if_neg hi, hint i le_rfl (by omega), hget]
    simp only [h0, if_false, hstr, hs]
    rw [ih fun j h1 h2 => hint j (by omega) h2]

/-! ### Fetching reads the image below `sz` only -/

/-- Two views of one process that agree on `sz`, `tf->esp` and the bytes below `sz`. -/
structure SameImage (u u' : CurProc) : Prop where
  sz : u'.sz = u.sz
  esp : u'.esp = u.esp
  mem : ∀ a < u.sz, u'.mem a = u.mem a

section SameImage

variable {u u' : CurProc}

theorem fetchint_congr (h : SameImage u u') (hsz : u.sz < KERNBASE) (addr : ℕ) : fetchint u' addr = fetchint u addr := by
  unfold fetchint
  rw [h.sz]
  split_ifs with hc
  · rfl
  · rw [wrap_add_four (by omega)] at hc
    rw [getLE_congr 4 fun k h1 h2 => h.mem k (by omega)]

theorem fetchstr_congr (h : SameImage u u') (addr : ℕ) : fetchstr u' addr = fetchstr u addr := by
  unfold fetchstr
  rw [h.sz]
  split_ifs with hc
  · rfl
  · exact nulScan_congr _ fun a h1 h2 => h.mem a (by omega)

theorem argint_congr (h : SameImage u u') (hsz : u.sz < KERNBASE) (n : ℕ) : argint u' n = argint u n := by
  rw [argint, argint, h.esp, fetchint_congr h hsz]

theorem argptr_congr (h : SameImage u u') (hsz : u.sz < KERNBASE) (n : ℕ) (size : ℤ) :
    argptr u' n size = argptr u n size := by
  rw [argptr, argptr, argint_congr h hsz, h.sz]

theorem argstr_congr (h : SameImage u u') (hsz : u.sz < KERNBASE) (n : ℕ) : argstr u' n = argstr u n := by
  simp only [argstr, argint_congr h hsz, fetchstr_congr h]

theorem sysExecArgs_congr (h : SameImage u u') (hsz : u.sz < KERNBASE) : sysExecArgs u' = sysExecArgs u := by
  simp only [sysExecArgs, argstr_congr h hsz, argint_congr h hsz,
    execArgv_slots 0 (fun j _ _ => fetchint_congr h hsz _) (fetchstr_congr h)]

end SameImage

/-! ### Confinement -/

/-- What each fetcher's success guarantees about the bytes the kernel then uses. -/
structure ArgsConfined (u : CurProc) : Prop where
  int_ok : ∀ addr v, fetchint u addr = some v →
    addr + 4 ≤ u.sz ∧ v = uintToInt (getLE u.mem addr 4)
  str_ok : ∀ addr len, fetchstr u addr = some len → addr + len < u.sz ∧ StrAt u.mem addr len
  arg_ok : ∀ n v, argint u n = some v → wrap (u.esp + 4 + 4 * n) + 4 ≤ u.sz
  ptr_ok : ∀ n size p, size < 2 ^ 31 → argptr u n size = some p →
    0 ≤ size ∧ p + size.toNat ≤ u.sz
  argstr_ok : ∀ n p len, argstr u n = some (p, len) → p + len < u.sz ∧ StrAt u.mem p len
  exec_ok : ∀ uargv argv, execArgv u uargv 0 = some argv →
    argv.length < MAXARG ∧ ∀ p ∈ argv, ∃ len, p + len < u.sz ∧ StrAt u.mem p len
  exec_slots : ∀ uargv (u' : CurProc),
    (∀ j < MAXARG, fetchint u' (wrap (uargv + 4 * j)) = fetchint u (wrap (uargv + 4 * j))) →
    (∀ a, fetchstr u' a = fetchstr u a) → execArgv u' uargv 0 = execArgv u uargv 0

theorem user_pointers_confined (u : CurProc) (hsz : u.sz < KERNBASE) : ArgsConfined u where
  int_ok _ _ h := fetchint_confined hsz h
  str_ok _ _ h := fetchstr_eq_some_iff.mp h
  arg_ok _ _ h := (fetchint_confined hsz h).1
  ptr_ok _ _ _ hsize h := argptr_confined hsz hsize h
  argstr_ok _ _ _ h := argstr_confined h
  exec_ok uargv argv h := by
    obtain ⟨hlen, hmem⟩ := execArgv_length 0 argv h
    refine ⟨by omega, fun p hp => ?_⟩
    obtain ⟨len, hs⟩ := hmem p hp
    exact ⟨len, fetchstr_eq_some_iff.mp hs⟩
  exec_slots _ _ hint hstr := execArgv_slots 0 (fun j _ hj => hint j hj) hstr

/-- A process of one page whose stack pointer sits at its last word. -/
theorem user_pointers_confined_page :
    ∃ u : CurProc, u.sz < KERNBASE ∧ ArgsConfined u :=
  ⟨⟨PGSIZE, PGSIZE - 4, fun _ => 0, fun _ => by decide⟩, by decide,
    user_pointers_confined _ (by decide)⟩

end Xv6Lab
