import Xv6Lab.Kernel.SyscallArgs
import Mathlib.Tactic.IntervalCases

/-!
# The argument log (`fill_arglist`, `invocation_log`)

After a system call's handler returns, `syscall()` takes a fresh `kalloc` page for the call's
`struct syscallarg` node and has `fill_arglist(node, num)` write into it the type names and
the arguments, fetched a second time with `argint`, `argptr` and `argstr`.  `invocation_log`
prints each node of slot `i = num - 1` with a format chosen by `i`.  A page from `kalloc` holds
what `kfree` left in it (`memset(v, 1, PGSIZE)`), so every field `fill_arglist` does not write
reads `0x01010101`.

* `fillWith_of_ok`, `fillWith_of_fail` — one case of `fill_arglist`, after a good and a failed
  fetch;
* `logArgs_filled` — when every fetch succeeds, what `invocation_log` prints of the node does not
  depend on the page's old contents: the two tables agree case by case for `num` in `1..41`;
* `fillArglist_link` — `link`'s node records its first path twice;
* `fillArglist_open_fail` — after a failed `argstr` the node keeps the page's old `str_argv[0]`,
  and `invocation_log` hands it to `%s`;
* `arglist_misrecords` — both, for a call `link("a", "b")` and a call of `open` with a pointer
  past `sz`.
-/

namespace Xv6Lab

/-- A word of the bytes `kfree` leaves, `memset(v, 1, PGSIZE)`. -/
def JUNK : ℕ := 0x01010101

/-- `struct syscallarg` as `fill_arglist` writes it: the type names (`none` for a name still
holding `kfree`'s bytes, which have no NUL), `int_argv`, `intptr_argv`, `str_argv`, `ptr_argv`
and `st`, pointers as user addresses. -/
structure SyscallArg where
  type : ℕ → Option String
  intArgv : ℕ → ℤ
  intptrArgv : ℕ
  strArgv : ℕ → ℕ
  ptrArgv : ℕ → ℕ
  st : ℕ

/-- A node on a page `kfree` filled with `0x01`. -/
def SyscallArg.junk : SyscallArg :=
  ⟨fun _ => none, fun _ => (JUNK : ℤ), JUNK, fun _ => JUNK, fun _ => JUNK, JUNK⟩

namespace SyscallArg

/-- `safestrcpy(end->type[j], t, ...)` for `t` the `j`th of `ts`. -/
def setTypes (a : SyscallArg) (ts : List String) : SyscallArg :=
  { a with type := fun j => if j < ts.length then ts[j]? else a.type j }

def setInt (a : SyscallArg) (j : ℕ) (v : ℤ) : SyscallArg :=
  { a with intArgv := Function.update a.intArgv j v }

def setStr (a : SyscallArg) (j : ℕ) (p : ℕ) : SyscallArg :=
  { a with strArgv := Function.update a.strArgv j p }

end SyscallArg

open SyscallArg

/-- One case of `fill_arglist`: write the type names, then run the case's fetches, joined by
`||`; on success store what they fetched, else `cprintf(msg)` and `break`. -/
def fillWith {α : Type} (a : SyscallArg) (types : List String) (fetch : Option α) (msg : String)
    (store : α → SyscallArg → SyscallArg) : SyscallArg × Option String :=
  match fetch with
  | none => (a.setTypes types, some msg)
  | some v => (store v (a.setTypes types), none)

/-- `fill_arglist(end, type)` over the page `a`, with the message it prints, if any: the
`switch` on `type`, each group of `case` labels a list. -/
def fillArglist (u : CurProc) (a : SyscallArg) (type : ℕ) : SyscallArg × Option String :=
  if type ∈ [3, 2, 1, 14, 11, 28, 29, 30, 32, 36, 38] then (a.setTypes ["void"], none)
  else if type ∈ [6, 22, 23, 25, 12, 13, 10, 21, 31, 33, 40, 41] then
    fillWith a ["int"] (argint u 0) "bad int arg val?\n" fun v a => a.setInt 0 v
  else if type ∈ [24, 34, 35, 37] then
    fillWith a ["int", "int"] (do let v ← argint u 0; let w ← argint u 1; pure (v, w))
      "bad int arg val?\n" fun p a => (a.setInt 0 p.1).setInt 1 p.2
  else if type = 4 then
    fillWith a ["int*"] (argptr u 0 8) "bad int* arg val?\n"
      fun p a => { a with intptrArgv := p }
  else if type ∈ [5, 16] then
    fillWith a ["int", "char*", "int"]
      (do let fd ← argint u 0; let n ← argint u 2; let p ← argptr u 1 n; pure (fd, n, p))
      "bad 3 arg val?\n" fun r a => ((a.setInt 0 r.1).setInt 1 r.2.1).setStr 0 r.2.2
  else if type = 7 then
    fillWith a ["char*", "char**"]
      (do let path ← argstr u 0; let uargv ← argint u 1; pure (path, uargv))
      "bad exec arg val?\n"
      fun r a => { a.setStr 0 r.1.1 with ptrArgv := Function.update a.ptrArgv 0 (toUint r.2) }
  else if type = 15 then
    fillWith a ["char*", "int"] (do let path ← argstr u 0; let n ← argint u 1; pure (path, n))
      "bad open arg val?\n" fun r a => (a.setStr 0 r.1.1).setInt 0 r.2
  else if type ∈ [18, 20, 9] then
    fillWith a ["char*"] (argstr u 0) "bad path arg val?\n" fun path a => a.setStr 0 path.1
  else if type = 19 then
    -- both paths are fetched with `argstr(0, ...)`
    fillWith a ["char*", "char*"]
      (do let path ← argstr u 0; let path1 ← argstr u 0; pure (path, path1))
      "bad path arg val?\n" fun r a => (a.setStr 0 r.1.1).setStr 1 r.2.1
  else if type = 8 then
    fillWith a ["int", "struct stat*"]
      (do let n ← argint u 0; let st ← argptr u 1 20; pure (n, st))
      "bad fstat arg val?\n" fun r a => { a.setInt 0 r.1 with st := r.2 }
  else if type = 17 then
    fillWith a ["char*", "short", "short"]
      (do let path ← argstr u 0; let n ← argint u 1; let fd ← argint u 2; pure (path, n, fd))
      "bad mknode arg val?\n"
      fun r a => ((a.setInt 0 r.2.1).setInt 1 r.2.2).setStr 0 r.1.1
  else if type = 39 then
    fillWith a ["int", "int", "int"]
      (do let v ← argint u 0; let n ← argint u 1; let fd ← argint u 2; pure (v, n, fd))
      "bad arg val?\n" fun r a => ((a.setInt 0 r.1).setInt 1 r.2.1).setInt 2 r.2.2
  else (a, none)

/-- A value `invocation_log` passes to `cprintf`, with its conversion: `%s` of a type name,
`%s` of a user string, `%d`, `%p`. -/
inductive Printed
  | name (t : Option String)
  | cstr (p : ℕ)
  | int (v : ℤ)
  | ptr (p : ℕ)
  deriving DecidableEq, Repr

/-- The arguments `invocation_log` prints of node `a` of slot `i`, after the pid and the name:
the successive `if`s of its loop body, in order. -/
def logArgs (i : ℕ) (a : SyscallArg) : List Printed := List.flatten [
  if i ∈ [0, 1, 2, 13, 10, 27, 28] then [.name (a.type 0)] else [],
  if i ∈ [21, 22, 24, 5, 11, 12, 9, 20, 39, 40] then
    [.name (a.type 0), .int (a.intArgv 0)] else [],
  if i ∈ [23, 33, 34] then
    [.name (a.type 0), .int (a.intArgv 0), .name (a.type 1), .int (a.intArgv 1)] else [],
  if i = 3 then [.name (a.type 0), .ptr a.intptrArgv] else [],
  if i ∈ [4, 15] then
    [.name (a.type 0), .int (a.intArgv 0), .name (a.type 1), .ptr (a.strArgv 0),
      .name (a.type 2), .int (a.intArgv 1)] else [],
  if i = 6 then [.name (a.type 0), .ptr (a.strArgv 0), .name (a.type 1), .ptr (a.ptrArgv 0)]
    else [],
  if i = 14 then [.name (a.type 0), .cstr (a.strArgv 0), .name (a.type 1), .int (a.intArgv 0)]
    else [],
  if i ∈ [17, 19, 8] then [.name (a.type 0), .cstr (a.strArgv 0)] else [],
  if i = 18 then [.name (a.type 0), .cstr (a.strArgv 0), .name (a.type 1), .cstr (a.strArgv 1)]
    else [],
  if i = 7 then [.name (a.type 0), .int (a.intArgv 0), .name (a.type 1), .ptr a.st] else [],
  if i = 16 then
    [.name (a.type 0), .cstr (a.strArgv 0), .name (a.type 1), .int (a.intArgv 0),
      .name (a.type 2), .int (a.intArgv 1)] else [],
  if i = 38 then
    [.name (a.type 0), .int (a.intArgv 0), .name (a.type 1), .int (a.intArgv 1),
      .name (a.type 2), .int (a.intArgv 2)] else []]

/-! ### One case of `fill_arglist` -/

theorem fillWith_of_ok {α : Type} {a : SyscallArg} {types : List String} {fetch : Option α}
    {msg : String} {store : α → SyscallArg → SyscallArg} (h : (fillWith a types fetch msg store).2 = none) :
    ∃ v, fetch = some v ∧ ∀ a', (fillWith a' types fetch msg store).1 = store v (a'.setTypes types) := by
  unfold fillWith at h ⊢
  cases fetch with
  | none => simp at h
  | some v => exact ⟨v, rfl, fun _ => rfl⟩

theorem fillWith_of_fail {α : Type} (a : SyscallArg) (types : List String) {fetch : Option α}
    (msg : String) (store : α → SyscallArg → SyscallArg) (h : fetch = none) :
    fillWith a types fetch msg store = (a.setTypes types, some msg) := by
  rw [h, fillWith]

/-- A reader of the node that agrees on every stored node over the written type names agrees on
the two nodes a good fetch leaves. -/
theorem fillWith_congr {α β : Type} {a a' : SyscallArg} {types : List String} {fetch : Option α}
    {msg : String} {store : α → SyscallArg → SyscallArg} (f : SyscallArg → β)
    (h : (fillWith a types fetch msg store).2 = none)
    (hread : ∀ v, f (store v (a.setTypes types)) = f (store v (a'.setTypes types))) :
    f (fillWith a types fetch msg store).1 = f (fillWith a' types fetch msg store).1 := by
  obtain ⟨v, -, hall⟩ := fillWith_of_ok h
  rw [hall a, hall a']
  exact hread v

/-! ### The two tables -/

/-- **`invocation_log` prints only what `fill_arglist` wrote, when the fetches succeed**: for every
call number `1..41`, the printed arguments of the node do not depend on the page's old contents. -/
theorem logArgs_filled (u : CurProc) {k : ℕ} (hk1 : 1 ≤ k) (hk : k ≤ 41) (a a' : SyscallArg)
    (hok : (fillArglist u a k).2 = none) :
    logArgs (k - 1) (fillArglist u a k).1 = logArgs (k - 1) (fillArglist u a' k).1 := by
  -- one goal per call number, with its `case` of `fill_arglist` picked out
  interval_cases k <;> simp +decide only [fillArglist, if_true, if_false] at hok ⊢
  all_goals first
    | exact fillWith_congr _ hok fun v => by simp [logArgs, setTypes, setInt, setStr]
    | simp [logArgs, setTypes]

/-! ### `link` and a failed fetch -/

/-- `sys_link`'s arguments: `argstr(0, &old)`, then `argstr(1, &new)`. -/
def sysLinkArgs (u : CurProc) : Option ((ℕ × ℕ) × (ℕ × ℕ)) := do
  let old ← argstr u 0
  let new ← argstr u 1
  pure (old, new)

/-- **`link`'s node records its first path twice**: for every call `sys_link` accepts, the
node's `str_argv[1]` is `old`, not `new`, and `invocation_log` prints `old` twice. -/
theorem fillArglist_link (u : CurProc) (a : SyscallArg) {old new : ℕ × ℕ}
    (h : sysLinkArgs u = some (old, new)) :
    (fillArglist u a 19).2 = none ∧ logArgs 18 (fillArglist u a 19).1 =
      [.name (some "char*"), .cstr old.1, .name (some "char*"), .cstr old.1] := by
  have hold : argstr u 0 = some old := by
    unfold sysLinkArgs at h
    cases h0 : argstr u 0 with
    | none => simp [h0] at h
    | some o =>
      cases h1 : argstr u 1 <;> simp_all
  simp +decide only [fillArglist, if_true, if_false]
  simp [fillWith, hold, logArgs, setTypes, setStr]

/-- **A failed `argstr` leaves the page's `str_argv[0]`**: `open`'s node gets its type names
and nothing else, and `invocation_log` hands the old pointer to `%s`. -/
theorem fillArglist_open_fail (u : CurProc) (a : SyscallArg) (h : argstr u 0 = none) :
    fillArglist u a 15 = (a.setTypes ["char*", "int"], some "bad open arg val?\n") ∧
      logArgs 14 (fillArglist u a 15).1 =
        [.name (some "char*"), .cstr (a.strArgv 0), .name (some "int"), .int (a.intArgv 0)] := by
  have hfill : fillArglist u a 15 = (a.setTypes ["char*", "int"], some "bad open arg val?\n") := by
    simp +decide only [fillArglist, if_true, if_false]
    exact fillWith_of_fail _ _ _ _ (by simp [h])
  refine ⟨hfill, ?_⟩
  rw [hfill]
  simp [logArgs, setTypes]

/-- `link("a", "b")`: the argument words `0x200` and `0x300` above `esp = 0x100`, and the strings
`"a"` and `"b"` there. -/
def linkCaller : CurProc where
  sz := PGSIZE
  esp := 0x100
  mem a := if a = 0x105 then 2 else if a = 0x109 then 3 else if a = 0x200 then 97
    else if a = 0x300 then 98 else 0
  mem_lt a := by split_ifs <;> omega

/-- `open(p, 0)` with `p = sz`, one past the image. -/
def badOpenCaller : CurProc where
  sz := PGSIZE
  esp := 0x100
  mem a := if a = 0x105 then 0x10 else 0
  mem_lt a := by split_ifs <;> omega

/-- **The log does not record the arguments of the call.**  For `link("a", "b")`, `sys_link`
takes `old = "a"` and `new = "b"`, but the node holds `"a"` twice and `invocation_log` prints it
twice.  For `open` with a path past `sz`, both `sys_open` and `fill_arglist` refuse the path, and
`invocation_log` passes the page's `0x01010101` to `%s`. -/
theorem arglist_misrecords :
    sysLinkArgs linkCaller = some ((0x200, 1), (0x300, 1)) ∧
      logArgs 18 (fillArglist linkCaller SyscallArg.junk 19).1 =
        [.name (some "char*"), .cstr 0x200, .name (some "char*"), .cstr 0x200] ∧
    argstr badOpenCaller 0 = none ∧
      logArgs 14 (fillArglist badOpenCaller SyscallArg.junk 15).1 =
        [.name (some "char*"), .cstr JUNK, .name (some "int"), .int JUNK] := by
  have hlink : sysLinkArgs linkCaller = some ((0x200, 1), (0x300, 1)) := by decide +kernel
  have hopen : argstr badOpenCaller 0 = none := by decide +kernel
  exact ⟨hlink, (fillArglist_link linkCaller SyscallArg.junk hlink).2, hopen,
    (fillArglist_open_fail badOpenCaller SyscallArg.junk hopen).2⟩

end Xv6Lab
