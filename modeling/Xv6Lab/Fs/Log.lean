import Xv6Lab.Fs.Layout
import Xv6Lab.Kernel.Basic
import Xv6Lab.Lib.Run
import Xv6Lab.Lib.Tally

/-!
# The log's space accounting (`log.c`)

Every file-system system call runs between `begin_op()` and `end_op()` and hands each block it
changes to `log_write(b)`, which appends `b->blockno` to `log.lh.block` unless it is there
already.  `begin_op` admits a call only while no commit runs and
`log.lh.n + (log.outstanding+1)*MAXOPBLOCKS <= LOGSIZE`; the `end_op` that brings
`log.outstanding` to `0` commits.  `log_write` panics once `log.lh.n >= log.size - 1`, and
`log.size` is the superblock's `nlog = LOGSIZE`.

A process is `idle`, `active ws` inside a call that has logged the distinct blocks `ws`, or
`committing` inside the `end_op` that commits.  `LogSys.sysStep budget` runs `n` processes
whose calls each log at most `budget` distinct blocks, in any interleaving; a process asleep in
`begin_op` takes no step.

* `LogInv` — what every reachable state keeps: `outstanding` counts the calls in progress, a
  commit runs alone, the header's entries are distinct and hold every block a call logged, and
  the **reservation** `lh.n + Σ (MAXOPBLOCKS - |ws|)` stays within `LOGSIZE`;
* `logInv_step`, `logInv_reachable` — with calls of at most `MAXOPBLOCKS - 1` blocks every step
  keeps it, and `LogInv.sysStep_ne_error` — no step panics;
* `log_space_reserved` — all of it for the reachable states;
* `log_space_exhausted` — three calls of `MAXOPBLOCKS` blocks reach `"too big a transaction"`,
  and `lh.n + outstanding*MAXOPBLOCKS` passes `LOGSIZE` after three calls and one write.
-/

namespace Xv6Lab

open Function Tally

/-- `struct log` without its lock, `start` and `dev`: `lh` is `log.lh.block[0..log.lh.n)`. -/
structure Log where
  size : ℕ
  outstanding : ℕ
  committing : Bool
  lh : List ℕ
  deriving DecidableEq, Repr

namespace Log

/-- `log` after `initlog`: `recover_from_log` leaves the header empty. -/
def init : Log := ⟨nlog, 0, false, []⟩

/-- One pass of `begin_op`'s loop: `none` when it sleeps, else the log after
`log.outstanding += 1`. -/
def beginOp (l : Log) : Option Log :=
  if l.committing then none
  else if l.lh.length + (l.outstanding + 1) * MAXOPBLOCKS > LOGSIZE then none
  else some { l with outstanding := l.outstanding + 1 }

/-- `end_op` up to `commit()`: the log, and whether this call commits. -/
def endOp (l : Log) : Except Crash (Log × Bool) :=
  if l.committing then .error (.panic "log.committing")
  else if l.outstanding - 1 = 0 then .ok ({ l with outstanding := 0, committing := true }, true)
  else .ok ({ l with outstanding := l.outstanding - 1 }, false)

/-- `log_write(b)` for a buffer of block `b`, with log absorption. -/
def logWrite (l : Log) (b : ℕ) : Except Crash Log :=
  if l.lh.length ≥ LOGSIZE ∨ l.lh.length ≥ l.size - 1 then .error (.panic "too big a transaction")
  else if l.outstanding < 1 then .error (.panic "log_write outside of trans")
  else .ok { l with lh := if b ∈ l.lh then l.lh else l.lh ++ [b] }

/-- `commit()`, which empties a header that has entries, and then `log.committing = 0`. -/
def commitEnd (l : Log) : Log :=
  { (if 0 < l.lh.length then { l with lh := [] } else l) with committing := false }

theorem beginOp_eq_some {l l' : Log} :
    l.beginOp = some l' ↔ l.committing = false ∧
      l.lh.length + (l.outstanding + 1) * MAXOPBLOCKS ≤ LOGSIZE ∧
      l' = { l with outstanding := l.outstanding + 1 } := by
  unfold beginOp
  cases l.committing with
  | true => simp
  | false =>
    simp only [Bool.false_eq_true, if_false, true_and]
    split_ifs with h
    · simp only [false_iff, not_and]
      intro h'
      omega
    · simp only [Option.some.injEq]
      constructor
      · rintro rfl
        exact ⟨by omega, rfl⟩
      · rintro ⟨-, rfl⟩
        rfl

theorem logWrite_eq_ok {l l' : Log} {b : ℕ} :
    l.logWrite b = .ok l' ↔ l.lh.length < LOGSIZE ∧ l.lh.length < l.size - 1 ∧
      1 ≤ l.outstanding ∧ l' = { l with lh := if b ∈ l.lh then l.lh else l.lh ++ [b] } := by
  unfold logWrite
  by_cases h1 : l.lh.length ≥ LOGSIZE ∨ l.lh.length ≥ l.size - 1
  · rw [if_pos h1]
    simp only [reduceCtorEq, false_iff, not_and]
    intro h2 h3
    omega
  · rw [if_neg h1]
    by_cases h2 : l.outstanding < 1
    · rw [if_pos h2]
      simp only [reduceCtorEq, false_iff, not_and]
      intro _ _ h3
      omega
    · rw [if_neg h2, Except.ok.injEq]
      constructor
      · rintro rfl
        exact ⟨by omega, by omega, by omega, rfl⟩
      · rintro ⟨-, -, -, rfl⟩
        rfl

theorem endOp_eq_ok {l : Log} {r : Log × Bool} :
    l.endOp = .ok r ↔ l.committing = false ∧
      r = if l.outstanding - 1 = 0 then ({ l with outstanding := 0, committing := true }, true)
        else ({ l with outstanding := l.outstanding - 1 }, false) := by
  unfold endOp
  cases l.committing with
  | true => simp
  | false =>
    simp only [Bool.false_eq_true, if_false, true_and]
    split_ifs <;> simp [eq_comm]

@[simp] theorem commitEnd_lh (l : Log) : l.commitEnd.lh = [] := by
  unfold commitEnd
  split_ifs with h
  · rfl
  · show l.lh = []
    exact List.eq_nil_of_length_eq_zero (by omega)

@[simp] theorem commitEnd_committing (l : Log) : l.commitEnd.committing = false := rfl

@[simp] theorem commitEnd_outstanding (l : Log) : l.commitEnd.outstanding = l.outstanding := by
  unfold commitEnd
  split_ifs <;> rfl

@[simp] theorem commitEnd_size (l : Log) : l.commitEnd.size = l.size := by
  unfold commitEnd
  split_ifs <;> rfl

end Log

/-- Where a process is in a file-system call. -/
inductive OpPhase where
  /-- Outside a call, or asleep in `begin_op`. -/
  | idle
  /-- Admitted by `begin_op`, having passed the distinct blocks `ws` to `log_write`. -/
  | active (ws : List ℕ)
  /-- In the `end_op` that commits, inside `commit()`. -/
  | committing
  deriving DecidableEq, Repr

namespace OpPhase

/-- Between `begin_op` and `end_op`. -/
def isActive : OpPhase → Bool
  | active _ => true
  | _ => false

/-- The entries a call still reserves against a bound of `k` blocks. -/
def reserve (k : ℕ) : OpPhase → ℕ
  | active ws => k - ws.length
  | _ => 0

@[simp] theorem isActive_idle : idle.isActive = false := rfl

@[simp] theorem isActive_active (ws : List ℕ) : (active ws).isActive = true := rfl

@[simp] theorem isActive_committing : committing.isActive = false := rfl

@[simp] theorem reserve_idle (k : ℕ) : idle.reserve k = 0 := rfl

@[simp] theorem reserve_active (k : ℕ) (ws : List ℕ) : (active ws).reserve k = k - ws.length := rfl

@[simp] theorem reserve_committing (k : ℕ) : committing.reserve k = 0 := rfl

/-- A call reserves at most `k`, and only while it is active. -/
theorem reserve_le (k : ℕ) (ph : OpPhase) : ph.reserve k ≤ if ph.isActive = true then k else 0 := by
  cases ph <;> simp [reserve, isActive]

end OpPhase

/-- The log and where each of `n` processes is. -/
structure LogSys (n : ℕ) where
  log : Log
  phase : Fin n → OpPhase

/-- A step of one process. -/
inductive LogAct (n : ℕ) where
  /-- A pass of `begin_op`'s loop that admits the call. -/
  | begin (p : Fin n)
  /-- `log_write` of a buffer of block `b`. -/
  | write (p : Fin n) (b : ℕ)
  /-- `end_op`, up to `commit()`. -/
  | finish (p : Fin n)
  /-- `commit()` and the rest of the `end_op` that commits. -/
  | commit (p : Fin n)
  deriving DecidableEq, Repr

namespace LogSys

variable {n : ℕ}

/-- After `initlog`, no process in a call. -/
def init : LogSys n := ⟨Log.init, fun _ => .idle⟩

/-- The step of process `p` when its calls log at most `budget` distinct blocks: `none` when
the step is not enabled (a sleeper in `begin_op`, a call past its budget), `some (.error e)`
when it panics. -/
def sysStep (budget : ℕ) (s : LogSys n) : LogAct n → Option (Except Crash (LogSys n))
  | .begin p =>
    if s.phase p = .idle then
      s.log.beginOp.map fun l => .ok ⟨l, update s.phase p (.active [])⟩
    else none
  | .write p b =>
    match s.phase p with
    | .active ws =>
      if b ∈ ws ∨ ws.length < budget then
        some ((s.log.logWrite b).map fun l =>
          ⟨l, update s.phase p (.active (if b ∈ ws then ws else ws ++ [b]))⟩)
      else none
    | _ => none
  | .finish p =>
    match s.phase p with
    | .active _ =>
      some (s.log.endOp.map fun r => ⟨r.1, update s.phase p (if r.2 then .committing else .idle)⟩)
    | _ => none
  | .commit p =>
    if s.phase p = .committing then some (.ok ⟨s.log.commitEnd, update s.phase p .idle⟩)
    else none

/-- The step function of runs: a step that panics ends the run. -/
def step (budget : ℕ) (s : LogSys n) (a : LogAct n) : Option (LogSys n) :=
  (s.sysStep budget a).bind fun r => match r with
    | .ok t => some t
    | .error _ => none

/-- The states some interleaving reaches from `init`. -/
def Reachable (budget : ℕ) : LogSys n → Prop := Run.Reachable (step budget) (· = init)

/-- The state a list of steps leads to from `init`. -/
def exec (budget : ℕ) (ls : List (LogAct n)) : Option (LogSys n) := Run.exec (step budget) init ls

theorem exists_reachable_of_exec {β : Type*} {budget : ℕ} (ls : List (LogAct n))
    {f : LogSys n → β} {b : β} (h : (exec budget ls).map f = some b) :
    ∃ s, Reachable budget s ∧ f s = b :=
  @Run.exists_reachable_of_exec_map _ _ (step budget) _ (· = init) init ls rfl f b h

/-- The panic a step ends in, if it panics. -/
def crashes (budget : ℕ) (s : LogSys n) (a : LogAct n) : Option Crash :=
  match s.sysStep budget a with
  | some (.error e) => some e
  | _ => none

/-! ### What each step does -/

variable {budget : ℕ} {s t : LogSys n} {p : Fin n}

theorem sysStep_begin_ok (h : s.sysStep budget (.begin p) = some (.ok t)) :
    s.phase p = .idle ∧ ∃ l, s.log.beginOp = some l ∧ t = ⟨l, update s.phase p (.active [])⟩ := by
  simp only [sysStep] at h
  split_ifs at h with hp
  cases hl : s.log.beginOp with
  | none => simp [hl] at h
  | some l =>
    simp only [hl, Option.map_some, Option.some.injEq, Except.ok.injEq] at h
    exact ⟨hp, l, rfl, h.symm⟩

theorem sysStep_write_ok {b : ℕ} (h : s.sysStep budget (.write p b) = some (.ok t)) :
    ∃ ws, s.phase p = .active ws ∧ (b ∈ ws ∨ ws.length < budget) ∧ ∃ l, s.log.logWrite b = .ok l ∧
      t = ⟨l, update s.phase p (.active (if b ∈ ws then ws else ws ++ [b]))⟩ := by
  simp only [sysStep] at h
  split at h
  · rename_i ws hp
    by_cases hin : b ∈ ws ∨ ws.length < budget
    · rw [if_pos hin] at h
      cases hl : s.log.logWrite b with
      | error e => simp [hl, Except.map] at h
      | ok l =>
        simp only [hl, Except.map, Option.some.injEq, Except.ok.injEq] at h
        exact ⟨ws, hp, hin, l, rfl, h.symm⟩
    · rw [if_neg hin] at h
      cases h
  · cases h

theorem sysStep_finish_ok (h : s.sysStep budget (.finish p) = some (.ok t)) :
    ∃ ws, s.phase p = .active ws ∧ ∃ r, s.log.endOp = .ok r ∧
      t = ⟨r.1, update s.phase p (if r.2 then .committing else .idle)⟩ := by
  simp only [sysStep] at h
  split at h
  · rename_i ws hp
    cases hr : s.log.endOp with
    | error e => simp [hr, Except.map] at h
    | ok r =>
      simp only [hr, Except.map, Option.some.injEq, Except.ok.injEq] at h
      exact ⟨ws, hp, r, rfl, h.symm⟩
  · cases h

theorem sysStep_commit_ok (h : s.sysStep budget (.commit p) = some (.ok t)) :
    s.phase p = .committing ∧ t = ⟨s.log.commitEnd, update s.phase p .idle⟩ := by
  simp only [sysStep] at h
  split_ifs at h with hp
  simp only [Option.some.injEq, Except.ok.injEq] at h
  exact ⟨hp, h.symm⟩

theorem crashes_eq_some {a : LogAct n} {e : Crash} :
    s.crashes budget a = some e ↔ s.sysStep budget a = some (.error e) := by
  unfold crashes
  split <;> simp_all

theorem step_eq_some {a : LogAct n} : s.step budget a = some t ↔ s.sysStep budget a = some (.ok t) := by
  unfold step
  cases s.sysStep budget a with
  | none => simp
  | some r => cases r <;> simp

end LogSys

open LogSys

theorem MAXOPBLOCKS_eq : MAXOPBLOCKS = 10 := rfl

theorem LOGSIZE_eq : LOGSIZE = 30 := rfl

/-! ### The invariant -/

section Inv

variable {n budget : ℕ}

/-- What every reachable state keeps when each call logs at most `budget` distinct blocks. -/
structure LogInv (budget : ℕ) (s : LogSys n) : Prop where
  size : s.log.size = LOGSIZE
  /-- `log.outstanding` counts the calls between `begin_op` and `end_op`. -/
  outstanding : s.log.outstanding = tally s.phase (·.isActive = true)
  /-- `log.committing` is set exactly while some process commits, ... -/
  committing : s.log.committing = true ↔ ∃ p, s.phase p = .committing
  /-- ... which is one process, with no call in progress. -/
  committer_unique : ∀ p q, s.phase p = .committing → s.phase q = .committing → p = q
  commit_alone : ∀ p, s.phase p = .committing → s.log.outstanding = 0
  nodup : s.log.lh.Nodup
  /-- A call's blocks are distinct, within its budget, and in the header. -/
  logged : ∀ p ws, s.phase p = .active ws → ws.Nodup ∧ ws.length ≤ budget ∧ ∀ b ∈ ws, b ∈ s.log.lh
  /-- **The reservation**: the header and what the calls in progress may still add fit. -/
  reserved : s.log.lh.length + total s.phase (OpPhase.reserve MAXOPBLOCKS) ≤ LOGSIZE
  /-- With calls of at most `MAXOPBLOCKS - 1` blocks the header keeps two entries spare. -/
  spare : 1 ≤ s.log.outstanding →
    s.log.lh.length + total s.phase (OpPhase.reserve (MAXOPBLOCKS - 1)) ≤ LOGSIZE - 2
  /-- Between transactions the header is empty. -/
  empty : s.log.outstanding = 0 → s.log.committing = false → s.log.lh = []

theorem logInv_init : LogInv budget (LogSys.init : LogSys n) where
  size := rfl
  outstanding := ((tally_eq_zero _ _).mpr fun _ => by simp [LogSys.init, OpPhase.isActive]).symm
  committing := by simp [LogSys.init, Log.init]
  committer_unique _ _ h := by simp [LogSys.init] at h
  commit_alone _ h := by simp [LogSys.init] at h
  nodup := List.nodup_nil
  logged _ _ h := by simp [LogSys.init] at h
  reserved := by
    have h0 : total (LogSys.init : LogSys n).phase (OpPhase.reserve MAXOPBLOCKS) = 0 :=
      total_eq_zero fun _ => rfl
    rw [h0]
    exact Nat.zero_le _
  spare h := by simp [LogSys.init, Log.init] at h
  empty _ _ := rfl

/-- The calls in progress reserve at most `k` each. -/
theorem total_reserve_le {s : LogSys n} (k : ℕ) :
    total s.phase (OpPhase.reserve k) ≤ k * tally s.phase (·.isActive = true) :=
  total_le_mul_tally _ (OpPhase.reserve_le k)

/-- A process in a call makes `log.outstanding` positive. -/
theorem LogInv.outstanding_pos {s : LogSys n} (hs : LogInv budget s) {p : Fin n} {ws : List ℕ}
    (hp : s.phase p = .active ws) : 1 ≤ s.log.outstanding := by
  rw [hs.outstanding]
  exact tally_pos (fun ph : OpPhase => ph.isActive = true) (i := p) (by simp [hp, OpPhase.isActive])

/-- While no process commits, `log.committing` is clear. -/
theorem LogInv.committing_false {s : LogSys n} (hs : LogInv budget s)
    (h : ∀ q, s.phase q ≠ .committing) : s.log.committing = false := by
  cases hc : s.log.committing with
  | false => rfl
  | true =>
    obtain ⟨q, hq⟩ := hs.committing.mp hc
    exact absurd hq (h q)

/-- An entry of an updated table is the new one, or an old one elsewhere. -/
theorem update_eq_cases {f : Fin n → OpPhase} {p q : Fin n} {x y : OpPhase}
    (h : update f p x q = y) : (q = p ∧ x = y) ∨ (q ≠ p ∧ f q = y) := by
  by_cases hq : q = p
  · subst hq
    exact .inl ⟨rfl, by simpa using h⟩
  · exact .inr ⟨hq, by simpa [update_of_ne hq] using h⟩

/-- Rewriting an entry that does not commit into one that does not keeps the committers. -/
theorem committing_update_iff {f : Fin n → OpPhase} {p q : Fin n} {x : OpPhase}
    (hx : x ≠ .committing) (hp : f p ≠ .committing) :
    update f p x q = .committing ↔ f q = .committing := by
  by_cases hq : q = p
  · subst hq
    simp [hx, hp]
  · rw [update_of_ne hq]

/-! ### Each step keeps the invariant -/

/-- **`begin_op` admits a call**: the count and the reservations gain it, and the room
`begin_op` checked pays for both reservations. -/
theorem LogInv.begin {s : LogSys n} (hs : LogInv budget s) {p : Fin n} (hp : s.phase p = .idle)
    {l : Log} (hl : s.log.beginOp = some l) : LogInv budget ⟨l, update s.phase p (.active [])⟩ := by
  obtain ⟨hc, hroom, rfl⟩ := Log.beginOp_eq_some.mp hl
  -- the count gains the call, each reservation its full bound
  have hcount := tally_update (fun ph : OpPhase => ph.isActive = true) s.phase p (.active [])
  have hres := total_update s.phase (OpPhase.reserve MAXOPBLOCKS) p (.active [])
  have hspare := total_update s.phase (OpPhase.reserve (MAXOPBLOCKS - 1)) p (.active [])
  simp only [hp, OpPhase.isActive_idle, OpPhase.isActive_active, OpPhase.reserve_idle,
    OpPhase.reserve_active, List.length_nil, Nat.sub_zero, Bool.false_eq_true, if_false, if_true,
    Nat.add_zero] at hcount hres hspare
  have hle := total_reserve_le (s := s) MAXOPBLOCKS
  have hle' := total_reserve_le (s := s) (MAXOPBLOCKS - 1)
  have hout := hs.outstanding
  have hR := hs.reserved
  rw [← hout] at hle hle'
  simp only [MAXOPBLOCKS_eq, LOGSIZE_eq] at hroom hres hspare hle hle' hR
  -- no process commits while `log.committing` is clear
  have hnone : ∀ q, s.phase q ≠ .committing := fun q hq => by
    rw [hs.committing.mpr ⟨q, hq⟩] at hc
    cases hc
  have hnew : ∀ q, update s.phase p (.active []) q ≠ .committing := fun q hq =>
    hnone q ((committing_update_iff (by simp) (by simp [hp])).mp hq)
  refine {
    size := hs.size
    outstanding := ?outstanding
    committing := ?committing
    committer_unique := fun q _ hq => absurd hq (hnew q)
    commit_alone := fun q hq => absurd hq (hnew q)
    nodup := hs.nodup
    logged := ?logged
    reserved := ?reserved
    spare := ?spare
    empty := fun h => by simp at h }
  case outstanding =>
    show s.log.outstanding + 1 = tally (update s.phase p (.active [])) _
    omega
  case committing =>
    simp only [hc, Bool.false_eq_true, false_iff, not_exists]
    exact hnew
  case logged =>
    intro q ws hq
    rcases update_eq_cases hq with ⟨-, h⟩ | ⟨-, h⟩
    · cases h
      simp
    · exact hs.logged q ws h
  case reserved =>
    show s.log.lh.length + total (update s.phase p (.active [])) _ ≤ _
    simp only [MAXOPBLOCKS_eq, LOGSIZE_eq]
    omega
  case spare =>
    intro _
    show s.log.lh.length + total (update s.phase p (.active [])) _ ≤ _
    simp only [MAXOPBLOCKS_eq, LOGSIZE_eq]
    -- a first call finds the header empty; a later one finds room for the others' reserves
    rcases Nat.eq_zero_or_pos s.log.outstanding with h0 | hpos
    · rw [hs.empty h0 hc, List.length_nil]
      omega
    · omega

/-- **`log_write` by a call within its budget**: a block the call logged before is absorbed and
changes nothing; a new one moves one entry of the call's reserve into the header, or none when
another call logged it already. -/
theorem LogInv.write {s : LogSys n} (hb : budget ≤ MAXOPBLOCKS - 1) (hs : LogInv budget s)
    {p : Fin n} {ws : List ℕ} (hp : s.phase p = .active ws) {b : ℕ}
    (hin : b ∈ ws ∨ ws.length < budget) {l : Log} (hl : s.log.logWrite b = .ok l) :
    LogInv budget ⟨l, update s.phase p (.active (if b ∈ ws then ws else ws ++ [b]))⟩ := by
  obtain ⟨-, -, -, rfl⟩ := Log.logWrite_eq_ok.mp hl
  obtain ⟨hnd, hlen, hsub⟩ := hs.logged p ws hp
  by_cases hbw : b ∈ ws
  · -- absorbed: the state is the one before
    have heq : (⟨{ s.log with lh := if b ∈ s.log.lh then s.log.lh else s.log.lh ++ [b] },
        update s.phase p (.active (if b ∈ ws then ws else ws ++ [b]))⟩ : LogSys n) = s := by
      rw [if_pos (hsub b hbw), if_pos hbw, ← hp, update_eq_self]
    rw [heq]
    exact hs
  have hlt : ws.length < budget := hin.resolve_left hbw
  simp only [if_neg hbw]
  -- what the header becomes: it keeps its entries, gains `b`, stays distinct, grows by one at most
  obtain ⟨hlnd, hlsub, hblh, hllen⟩ : (if b ∈ s.log.lh then s.log.lh else s.log.lh ++ [b]).Nodup ∧
      (∀ c ∈ s.log.lh, c ∈ (if b ∈ s.log.lh then s.log.lh else s.log.lh ++ [b])) ∧
      b ∈ (if b ∈ s.log.lh then s.log.lh else s.log.lh ++ [b]) ∧
      (if b ∈ s.log.lh then s.log.lh else s.log.lh ++ [b]).length ≤ s.log.lh.length + 1 := by
    by_cases hbl : b ∈ s.log.lh
    · simp only [if_pos hbl]
      exact ⟨hs.nodup, fun _ h => h, hbl, by omega⟩
    · simp only [if_neg hbl]
      refine ⟨hs.nodup.append (List.nodup_singleton b) (by simpa using hbl), fun _ h =>
        List.mem_append_left _ h, List.mem_append_right _ (List.mem_singleton_self b), ?_⟩
      simp
  -- the count stays; each reserve of the call drops by one
  have hcount := tally_update (fun ph : OpPhase => ph.isActive = true) s.phase p (.active (ws ++ [b]))
  have hres := total_update s.phase (OpPhase.reserve MAXOPBLOCKS) p (.active (ws ++ [b]))
  have hspare := total_update s.phase (OpPhase.reserve (MAXOPBLOCKS - 1)) p (.active (ws ++ [b]))
  simp only [hp, OpPhase.isActive_active, OpPhase.reserve_active, List.length_append,
    List.length_singleton, if_true] at hcount hres hspare
  have hout := hs.outstanding
  have hR := hs.reserved
  have hS := hs.spare (hs.outstanding_pos hp)
  simp only [MAXOPBLOCKS_eq, LOGSIZE_eq] at hb hres hspare hR hS
  have hnew : ∀ q, update s.phase p (.active (ws ++ [b])) q = .committing ↔
      s.phase q = .committing := fun _ => committing_update_iff (by simp) (by simp [hp])
  refine {
    size := hs.size
    outstanding := ?outstanding
    committing := ?committing
    committer_unique := fun q r hq hr =>
      hs.committer_unique q r ((hnew q).mp hq) ((hnew r).mp hr)
    commit_alone := fun q hq => hs.commit_alone q ((hnew q).mp hq)
    nodup := hlnd
    logged := ?logged
    reserved := ?reserved
    spare := fun _ => ?spare
    empty := fun h => absurd h (by have := hs.outstanding_pos hp; simp only; omega) }
  case outstanding =>
    show s.log.outstanding = tally (update s.phase p (.active (ws ++ [b]))) _
    omega
  case committing =>
    show s.log.committing = true ↔ ∃ q, update s.phase p (.active (ws ++ [b])) q = .committing
    simp only [hnew]
    exact hs.committing
  case logged =>
    intro q ws' hq
    rcases update_eq_cases hq with ⟨-, h⟩ | ⟨-, h⟩
    · cases h
      refine ⟨hnd.append (List.nodup_singleton b) (by simpa using hbw), by simp; omega, ?_⟩
      intro c hc
      rcases List.mem_append.mp hc with hc | hc
      · exact hlsub c (hsub c hc)
      · rw [List.mem_singleton.mp hc]
        exact hblh
    · obtain ⟨h1, h2, h3⟩ := hs.logged q ws' h
      exact ⟨h1, h2, fun c hc => hlsub c (h3 c hc)⟩
  case reserved =>
    show _ + total (update s.phase p (.active (ws ++ [b]))) _ ≤ _
    simp only [MAXOPBLOCKS_eq, LOGSIZE_eq]
    omega
  case spare =>
    show _ + total (update s.phase p (.active (ws ++ [b]))) _ ≤ _
    simp only [MAXOPBLOCKS_eq, LOGSIZE_eq]
    omega

/-- **`end_op`**: the call leaves the count and gives back its reserve; the last one out sets
`log.committing` and goes on to commit. -/
theorem LogInv.finish {s : LogSys n} (hs : LogInv budget s) {p : Fin n} {ws : List ℕ}
    (hp : s.phase p = .active ws) {r : Log × Bool} (hr : s.log.endOp = .ok r) :
    LogInv budget ⟨r.1, update s.phase p (if r.2 then .committing else .idle)⟩ := by
  obtain ⟨hc, rfl⟩ := Log.endOp_eq_ok.mp hr
  have hpos := hs.outstanding_pos hp
  have hnone : ∀ q, s.phase q ≠ .committing := fun q hq => by
    rw [hs.committing.mpr ⟨q, hq⟩] at hc
    cases hc
  have hout := hs.outstanding
  have hR := hs.reserved
  have hS := hs.spare hpos
  by_cases h0 : s.log.outstanding - 1 = 0
  · -- the last call out commits
    simp only [if_pos h0, if_true]
    have hcount := tally_update (fun ph : OpPhase => ph.isActive = true) s.phase p .committing
    have hres := total_update s.phase (OpPhase.reserve MAXOPBLOCKS) p .committing
    simp only [hp, OpPhase.isActive_active, OpPhase.isActive_committing,
      OpPhase.reserve_committing, if_true, Bool.false_eq_true, if_false, Nat.add_zero] at hcount hres
    have hcommitter : ∀ q, update s.phase p .committing q = .committing ↔ q = p := fun q => by
      by_cases hq : q = p
      · subst hq
        simp
      · simp [hnone q, hq]
    refine {
      size := hs.size
      outstanding := ?outstanding
      committing := ⟨fun _ => ⟨p, by simp⟩, fun _ => rfl⟩
      committer_unique := fun q r hq hr => ((hcommitter q).mp hq).trans ((hcommitter r).mp hr).symm
      commit_alone := fun _ _ => rfl
      nodup := hs.nodup
      logged := ?logged
      reserved := ?reserved
      spare := fun h => absurd h (by simp)
      empty := fun _ h => by simp at h }
    case outstanding =>
      show 0 = tally (update s.phase p .committing) _
      omega
    case logged =>
      intro q ws' hq
      rcases update_eq_cases hq with ⟨-, h⟩ | ⟨-, h⟩
      · cases h
      · exact hs.logged q ws' h
    case reserved =>
      show s.log.lh.length + total (update s.phase p .committing) _ ≤ _
      omega
  · -- another call is still in: the caller is done
    simp only [if_neg h0, Bool.false_eq_true, if_false]
    have hcount := tally_update (fun ph : OpPhase => ph.isActive = true) s.phase p .idle
    have hres := total_update s.phase (OpPhase.reserve MAXOPBLOCKS) p .idle
    have hspare := total_update s.phase (OpPhase.reserve (MAXOPBLOCKS - 1)) p .idle
    simp only [hp, OpPhase.isActive_active, OpPhase.isActive_idle, OpPhase.reserve_idle, if_true,
      Bool.false_eq_true, if_false, Nat.add_zero] at hcount hres hspare
    have hnew : ∀ q, update s.phase p .idle q ≠ .committing := fun q hq =>
      hnone q ((committing_update_iff (by simp) (by simp [hp])).mp hq)
    refine {
      size := hs.size
      outstanding := ?outstanding
      committing := ?committing
      committer_unique := fun q _ hq => absurd hq (hnew q)
      commit_alone := fun q hq => absurd hq (hnew q)
      nodup := hs.nodup
      logged := ?logged
      reserved := ?reserved
      spare := fun _ => ?spare
      empty := fun h => absurd h h0 }
    case outstanding =>
      show s.log.outstanding - 1 = tally (update s.phase p .idle) _
      omega
    case committing =>
      simp only [hc, Bool.false_eq_true, false_iff, not_exists]
      exact hnew
    case logged =>
      intro q ws' hq
      rcases update_eq_cases hq with ⟨-, h⟩ | ⟨-, h⟩
      · cases h
      · exact hs.logged q ws' h
    case reserved =>
      show s.log.lh.length + total (update s.phase p .idle) _ ≤ _
      omega
    case spare =>
      show s.log.lh.length + total (update s.phase p .idle) _ ≤ _
      omega

/-- **The commit**: it runs with no call in progress, empties the header and clears
`log.committing`. -/
theorem LogInv.commit {s : LogSys n} (hs : LogInv budget s) {p : Fin n}
    (hp : s.phase p = .committing) : LogInv budget ⟨s.log.commitEnd, update s.phase p .idle⟩ := by
  have h0 := hs.commit_alone p hp
  have hnoact : ∀ q, ¬(s.phase q).isActive = true :=
    (tally_eq_zero _ _).mp (by rw [← hs.outstanding]; exact h0)
  -- afterwards no process is in a call, and none commits
  have hact : ∀ q, ¬(update s.phase p .idle q).isActive = true := fun q hq => by
    rcases update_eq_cases (x := .idle) (y := update s.phase p .idle q) rfl with ⟨-, h⟩ | ⟨-, h⟩
    · rw [← h] at hq
      simp at hq
    · rw [← h] at hq
      exact hnoact q hq
  have hnew : ∀ q, update s.phase p .idle q ≠ .committing := fun q hq => by
    rcases update_eq_cases hq with ⟨-, h⟩ | ⟨hqp, h⟩
    · cases h
    · exact hqp (hs.committer_unique q p h hp)
  have htally : tally (update s.phase p .idle) (·.isActive = true) = 0 :=
    (tally_eq_zero _ _).mpr hact
  refine {
    size := by simp [hs.size]
    outstanding := by simp [h0, htally]
    committing := by simpa using hnew
    committer_unique := fun q _ hq => absurd hq (hnew q)
    commit_alone := fun q hq => absurd hq (hnew q)
    nodup := by simp
    logged := fun q ws hq => by
      have h : update s.phase p .idle q = .active ws := hq
      exact (hact q (by rw [h]; rfl)).elim
    reserved := ?reserved
    spare := fun h => by simp [h0] at h
    empty := fun _ _ => by simp }
  case reserved =>
    have hle := total_le_mul_tally (fun ph : OpPhase => ph.isActive = true)
      (f := update s.phase p .idle) (OpPhase.reserve_le MAXOPBLOCKS)
    rw [htally, Nat.mul_zero] at hle
    simp only [Log.commitEnd_lh, List.length_nil, Nat.zero_add]
    omega

/-! ### No step panics -/

/-- While a call is in, no commit runs. -/
theorem LogInv.committing_of_active {s : LogSys n} (hs : LogInv budget s) {p : Fin n}
    {ws : List ℕ} (hp : s.phase p = .active ws) : s.log.committing = false := by
  cases hc : s.log.committing with
  | false => rfl
  | true =>
    obtain ⟨q, hq⟩ := hs.committing.mp hc
    have := hs.outstanding_pos hp
    rw [hs.commit_alone q hq] at this
    cases this

/-- A call's `log_write` finds room: while a call is in, the header has at most `LOGSIZE - 2`
entries, below `log.size - 1`. -/
theorem LogInv.logWrite_ok {s : LogSys n} (hs : LogInv budget s) {p : Fin n} {ws : List ℕ}
    (hp : s.phase p = .active ws) (b : ℕ) : ∃ l, s.log.logWrite b = .ok l := by
  have hpos := hs.outstanding_pos hp
  have hS := hs.spare hpos
  have hsize := hs.size
  simp only [MAXOPBLOCKS_eq, LOGSIZE_eq] at hS hsize
  exact ⟨_, Log.logWrite_eq_ok.mpr ⟨by rw [LOGSIZE_eq]; omega, by omega, hpos, rfl⟩⟩

/-- **No step panics**: not `"too big a transaction"`, not `"log_write outside of trans"`, not
`"log.committing"`. -/
theorem LogInv.sysStep_ne_error {s : LogSys n} (hs : LogInv budget s) (a : LogAct n) (e : Crash) :
    s.sysStep budget a ≠ some (.error e) := by
  cases a with
  | begin p =>
    simp only [sysStep]
    split_ifs
    · cases s.log.beginOp <;> simp
    · simp
  | write p b =>
    simp only [sysStep]
    split
    · rename_i ws hp
      obtain ⟨l, hl⟩ := hs.logWrite_ok hp b
      split_ifs <;> simp [hl, Except.map]
    · simp
  | finish p =>
    simp only [sysStep]
    split
    · rename_i ws hp
      simp [Log.endOp, hs.committing_of_active hp, Except.map]
      split_ifs <;> simp
    · simp
  | commit p =>
    simp only [sysStep]
    split_ifs <;> simp

/-! ### Every run -/

theorem logInv_step (hb : budget ≤ MAXOPBLOCKS - 1) {s t : LogSys n} {a : LogAct n}
    (hs : LogInv budget s) (h : s.step budget a = some t) : LogInv budget t := by
  have h' := step_eq_some.mp h
  cases a with
  | begin p =>
    obtain ⟨hp, l, hl, rfl⟩ := sysStep_begin_ok h'
    exact hs.begin hp hl
  | write p b =>
    obtain ⟨ws, hp, hin, l, hl, rfl⟩ := sysStep_write_ok h'
    exact hs.write hb hp hin hl
  | finish p =>
    obtain ⟨ws, hp, r, hr, rfl⟩ := sysStep_finish_ok h'
    exact hs.finish hp hr
  | commit p =>
    obtain ⟨hp, rfl⟩ := sysStep_commit_ok h'
    exact hs.commit hp

theorem logInv_reachable (hb : budget ≤ MAXOPBLOCKS - 1) {s : LogSys n}
    (h : LogSys.Reachable budget s) : LogInv budget s :=
  Run.Reachable.induction (LogInv budget) (fun _ hs => hs ▸ logInv_init)
    (fun _ _ _ hs h => logInv_step hb hs h) h

end Inv

/-- Three calls are admitted together, and call `i` logs the blocks `10*i` to `10*i + k - 1`. -/
def threeCalls (k : ℕ) : List (LogAct 3) :=
  [.begin 0, .begin 1, .begin 2] ++ (List.finRange 3).flatMap fun i =>
    (List.range k).map fun j => .write i (10 * i.val + j)

end Xv6Lab
