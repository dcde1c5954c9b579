import Xv6Lab.Kernel.Basic
import Xv6Lab.Lib.Run
import Xv6Lab.Lib.Ring

/-!
# Pipes (`pipe.c`)

A pipe is a ring of `PIPESIZE` bytes between two free-running `uint` counters: `nread` bytes
have been read and `nwrite` written, and byte `i` lives in `data[i % PIPESIZE]`.  The counters
wrap at `2^32`; `PIPESIZE` divides `2^32`, so a wrap keeps every byte in its cell.

Every operation runs holding `p->lock`, which only `sleep` gives up, so a call is a sequence of
atomic segments, each from the lock taken to a `sleep` or a return:

* `pipewriteLoop` — `pipewrite`'s `for` loop from the current byte: store bytes until all are
  stored (return `n`) or the ring is full; then return `-1` if the read end is closed or the
  caller killed, else sleep on `&p->nwrite` with the bytes left;
* `piperead` — while the ring is empty and the write end open, return `-1` if the caller is
  killed, else sleep on `&p->nread`; then copy up to `n` bytes (`pipereadCopy`) and return how
  many;
* `pipeclose` — mark one end closed; with both closed the page is freed.

`PipeSys` is one pipe with the calls asleep in it and the bytes the completed reads returned.
It is written over any `PipeImpl`, the three operations above, so that `Pipe.Queue` can run the
same calls over a queue.  A call asleep may run again at any step: `sleep` returns only after a
`wakeup` on its channel, but both loops test their condition again, so these runs include every
run of the code.

* `PipeSys.step_cases` — what one step can do;
* `PipeSys.pipe_invariant` / `PipeSys.simulation` — a property of the pipe kept by the three
  operations holds in every reachable state, and a relation kept by them relates whole runs;
* `bounded_reachable` — in every reachable state `nwrite - nread`, as a 32-bit unsigned
  difference, is at most `PIPESIZE`, across any number of counter wraps.
-/

namespace Xv6Lab

open Function

/-- `PIPESIZE`. -/
def PIPESIZE : ℕ := 512

instance : NeZero PIPESIZE := ⟨by decide⟩

theorem PIPESIZE_dvd_UINT : PIPESIZE ∣ UINT := ⟨2 ^ 23, by decide⟩

/-- How a segment of `pipewrite` ends. -/
inductive WriteEnd where
  /-- Every byte stored: `pipewrite` returns `n`. -/
  | done
  /-- The ring full with the read end closed or the caller killed: `pipewrite` returns `-1`. -/
  | failed
  /-- The ring full: asleep on `&p->nwrite` with the bytes `rest` still to store. -/
  | asleep (rest : List UInt8)
  deriving DecidableEq, Repr

/-- How a segment of `piperead` ends. -/
inductive ReadEnd where
  /-- The bytes copied out: `piperead` returns their number. -/
  | done (bytes : List UInt8)
  /-- The ring empty, the write end open and the caller killed: `piperead` returns `-1`. -/
  | failed
  /-- The ring empty and the write end open: asleep on `&p->nread`. -/
  | asleep
  deriving DecidableEq, Repr

/-- `struct pipe`; its lock is held by every operation below. -/
structure Pipe where
  data : Fin PIPESIZE → UInt8
  nread : ℕ
  nwrite : ℕ
  readopen : Bool
  writeopen : Bool

namespace Pipe

/-- The pipe `pipealloc` sets up in a fresh page whose bytes are `data`. -/
def alloc (data : Fin PIPESIZE → UInt8) : Pipe := ⟨data, 0, 0, true, true⟩

/-- The test `p->nwrite == p->nread + PIPESIZE` of `pipewrite`. -/
def full (p : Pipe) : Bool := p.nwrite = wrap (p.nread + PIPESIZE)

/-- `p->data[p->nwrite++ % PIPESIZE] = c`. -/
def put (p : Pipe) (c : UInt8) : Pipe :=
  { p with data := update p.data (Ring.slot PIPESIZE p.nwrite) c, nwrite := wrap (p.nwrite + 1) }

/-- `p->nread++` after `p->data[p->nread % PIPESIZE]` is copied out. -/
def take (p : Pipe) : Pipe := { p with nread := wrap (p.nread + 1) }

/-- `pipewrite`'s `for` loop over the bytes left, for a caller whose `killed` flag is `killed`. -/
def pipewriteLoop (killed : Bool) : List UInt8 → Pipe → Pipe × WriteEnd
  | [], p => (p, .done)
  | c :: cs, p =>
    if p.full then
      -- the `while` around `sleep`: give up, or sleep before storing `c`
      if !p.readopen || killed then (p, .failed) else (p, .asleep (c :: cs))
    else pipewriteLoop killed cs (p.put c)

/-- `piperead`'s copy loop for `n` more bytes: the pipe after it and the bytes copied. -/
def pipereadCopy : ℕ → Pipe → Pipe × List UInt8
  | 0, p => (p, [])
  | n + 1, p =>
    if p.nread = p.nwrite then (p, [])
    else
      let rest := pipereadCopy n p.take
      (rest.1, p.data (Ring.slot PIPESIZE p.nread) :: rest.2)

/-- A segment of `piperead(p, addr, n)`. -/
def piperead (killed : Bool) (n : ℕ) (p : Pipe) : Pipe × ReadEnd :=
  if p.nread = p.nwrite ∧ p.writeopen = true then (p, if killed then .failed else .asleep)
  else
    let r := pipereadCopy n p
    (r.1, .done r.2)

/-- `pipeclose(p, writable)`. -/
def pipeclose (p : Pipe) (writable : Bool) : Pipe :=
  if writable then { p with writeopen := false } else { p with readopen := false }

/-- Both ends closed: `pipeclose` has freed the page. -/
def freed (p : Pipe) : Bool := !p.readopen && !p.writeopen

end Pipe

/-- The operations of a pipe that its calls use. -/
structure PipeImpl (π : Type) where
  writeLoop : Bool → List UInt8 → π → π × WriteEnd
  read : Bool → ℕ → π → π × ReadEnd
  close : π → Bool → π
  freed : π → Bool

/-- `pipe.c`'s operations. -/
def Pipe.impl : PipeImpl Pipe :=
  ⟨Pipe.pipewriteLoop, Pipe.piperead, Pipe.pipeclose, Pipe.freed⟩

/-- The call a process is asleep in. -/
inductive PipeCall where
  | write (rest : List UInt8)
  | read (n : ℕ)
  deriving DecidableEq, Repr

/-- The call left asleep by a segment of `pipewrite`, if any. -/
def WriteEnd.call : WriteEnd → Option PipeCall
  | .asleep rest => some (.write rest)
  | _ => none

/-- The call left asleep by a segment of `piperead(p, addr, n)`, if any. -/
def ReadEnd.call (n : ℕ) : ReadEnd → Option PipeCall
  | .asleep => some (.read n)
  | _ => none

/-- The bytes a segment of `piperead` returns. -/
def ReadEnd.bytes : ReadEnd → List UInt8
  | .done bytes => bytes
  | _ => []

/-- One pipe, the call each process is asleep in, and the bytes the completed reads returned. -/
structure PipeSys (π : Type) where
  pipe : π
  calls : Fin NPROC → Option PipeCall
  out : List UInt8

/-- What happens at a pipe. -/
inductive PipeOp where
  /-- Process `p`, whose `killed` flag is `killed`, calls `pipewrite` with the bytes `addr`. -/
  | write (p : Fin NPROC) (addr : List UInt8) (killed : Bool)
  /-- Process `p` calls `piperead` for `n` bytes. -/
  | read (p : Fin NPROC) (n : ℕ) (killed : Bool)
  /-- Process `p`, asleep in a call, runs again. -/
  | wake (p : Fin NPROC) (killed : Bool)
  /-- The last file of one end is closed: `pipeclose`. -/
  | close (writable : Bool)
  deriving DecidableEq, Repr

namespace PipeSys

variable {π : Type} (I : PipeImpl π)

/-- A segment of `pipewrite` by `p` with the bytes `bytes` left. -/
def write (s : PipeSys π) (p : Fin NPROC) (bytes : List UInt8) (killed : Bool) : PipeSys π :=
  let r := I.writeLoop killed bytes s.pipe
  ⟨r.1, update s.calls p r.2.call, s.out⟩

/-- A segment of `piperead` by `p` for `n` bytes. -/
def read (s : PipeSys π) (p : Fin NPROC) (n : ℕ) (killed : Bool) : PipeSys π :=
  let r := I.read killed n s.pipe
  ⟨r.1, update s.calls p (r.2.call n), s.out ++ r.2.bytes⟩

/-- One step: `none` when it is not enabled, or once the pipe is freed. -/
def step (s : PipeSys π) : PipeOp → Option (PipeSys π)
  | .write p addr killed =>
    if I.freed s.pipe ∨ s.calls p ≠ none then none else some (s.write I p addr killed)
  | .read p n killed =>
    if I.freed s.pipe ∨ s.calls p ≠ none then none else some (s.read I p n killed)
  | .wake p killed =>
    if I.freed s.pipe then none
    else
      match s.calls p with
      | some (.write rest) => some (s.write I p rest killed)
      | some (.read n) => some (s.read I p n killed)
      | none => none
  | .close writable =>
    if I.freed s.pipe then none else some { s with pipe := I.close s.pipe writable }

/-- The pipe `start` with no call in it and nothing read. -/
def init (start : π) : PipeSys π := ⟨start, fun _ => none, []⟩

/-- The states reachable from a pipe that satisfies `start`. -/
def Reachable (start : π → Prop) : PipeSys π → Prop :=
  Run.Reachable (step I) fun s => ∃ p, start p ∧ s = init p

/-- A reader finds the pipe empty and sleeps; a writer stores `"hi"`; the reader runs again and
returns both bytes. -/
example : (Run.exec (step Pipe.impl) (init (Pipe.alloc fun _ => 0))
    [.read 1 4 false, .write 2 [104, 105] false, .wake 1 false]).map PipeSys.out =
      some [104, 105] := by
  decide

/-- **What one step can do**: a segment of a write, a segment of a read, or a close. -/
theorem step_cases {s t : PipeSys π} {a : PipeOp} (h : step I s a = some t) :
    (∃ p bytes killed, t = s.write I p bytes killed) ∨
      (∃ p n killed, t = s.read I p n killed) ∨
      ∃ writable, t = { s with pipe := I.close s.pipe writable } := by
  cases a with
  | write p addr killed =>
    simp only [step] at h
    split at h
    · cases h
    · exact .inl ⟨p, addr, killed, (Option.some.inj h).symm⟩
  | read p n killed =>
    simp only [step] at h
    split at h
    · cases h
    · exact .inr (.inl ⟨p, n, killed, (Option.some.inj h).symm⟩)
  | wake p killed =>
    simp only [step] at h
    split at h
    · cases h
    · -- the call asleep decides which segment runs
      split at h
      · exact .inl ⟨p, _, killed, (Option.some.inj h).symm⟩
      · exact .inr (.inl ⟨p, _, killed, (Option.some.inj h).symm⟩)
      · cases h
  | close writable =>
    simp only [step] at h
    split at h
    · cases h
    · exact .inr (.inr ⟨writable, (Option.some.inj h).symm⟩)

/-- **Invariants of the pipe**: a property of the pipe that holds at the start and that the three
operations keep holds in every reachable state. -/
theorem pipe_invariant (P : π → Prop) (hw : ∀ killed bytes p, P p → P (I.writeLoop killed bytes p).1)
    (hr : ∀ killed n p, P p → P (I.read killed n p).1) (hc : ∀ p writable, P p → P (I.close p writable))
    {start : π → Prop} (h0 : ∀ p, start p → P p) {s : PipeSys π} (hs : Reachable I start s) :
    P s.pipe := by
  refine Run.Reachable.induction (fun s => P s.pipe) ?_ ?_ hs
  · rintro _ ⟨p, hp, rfl⟩
    exact h0 p hp
  · intro s a t hinv hstep
    rcases step_cases I hstep with ⟨p, bytes, killed, rfl⟩ | ⟨p, n, killed, rfl⟩ | ⟨w, rfl⟩
    · exact hw killed bytes s.pipe hinv
    · exact hr killed n s.pipe hinv
    · exact hc s.pipe w hinv

section Simulation

variable {π' : Type} {J : PipeImpl π'} (R : π → π' → Prop)

/-- Two systems in step: related pipes, the same calls asleep, the same bytes read. -/
def Sim (s : PipeSys π) (u : PipeSys π') : Prop := R s.pipe u.pipe ∧ s.calls = u.calls ∧ s.out = u.out

variable {I R}

/-- A relation that each operation keeps, with the same result on both sides, relates whole
runs over the same steps. -/
theorem simulation
    (hw : ∀ killed bytes p f, R p f →
      (I.writeLoop killed bytes p).2 = (J.writeLoop killed bytes f).2 ∧
        R (I.writeLoop killed bytes p).1 (J.writeLoop killed bytes f).1)
    (hr : ∀ killed n p f, R p f →
      (I.read killed n p).2 = (J.read killed n f).2 ∧ R (I.read killed n p).1 (J.read killed n f).1)
    (hc : ∀ writable p f, R p f → R (I.close p writable) (J.close f writable))
    (hf : ∀ p f, R p f → I.freed p = J.freed f)
    (ls : List PipeOp) {p : π} {f : π'} {s : PipeSys π} (hpf : R p f)
    (hrun : Run.exec (step I) (init p) ls = some s) :
    ∃ u, Run.exec (step J) (init f) ls = some u ∧ Sim R s u := by
  have hwrite : ∀ s u q bytes killed, Sim R s u → Sim R (s.write I q bytes killed) (u.write J q bytes killed) := by
    rintro s u q bytes killed ⟨hR, hcalls, hout⟩
    obtain ⟨hend, hR'⟩ := hw killed bytes _ _ hR
    exact ⟨hR', by simp only [write, hend, hcalls], hout⟩
  have hread : ∀ s u q n killed, Sim R s u → Sim R (s.read I q n killed) (u.read J q n killed) := by
    rintro s u q n killed ⟨hR, hcalls, hout⟩
    obtain ⟨hend, hR'⟩ := hr killed n _ _ hR
    exact ⟨hR', by simp only [read, hend, hcalls], by simp only [read, hend, hout]⟩
  have hstep : ∀ s u a t, Sim R s u → step I s a = some t → ∃ u', step J u a = some u' ∧ Sim R t u' := by
    rintro s u a t ⟨hR, hcalls, hout⟩ h
    have hfr := hf _ _ hR
    cases a with
    | write q addr killed =>
      simp only [step, hfr, hcalls] at h ⊢
      split at h
      · cases h
      · next hen => exact ⟨_, if_neg hen, (Option.some.inj h) ▸ hwrite s u q addr killed ⟨hR, hcalls, hout⟩⟩
    | read q n killed =>
      simp only [step, hfr, hcalls] at h ⊢
      split at h
      · cases h
      · next hen => exact ⟨_, if_neg hen, (Option.some.inj h) ▸ hread s u q n killed ⟨hR, hcalls, hout⟩⟩
    | wake q killed =>
      simp only [step, hfr] at h ⊢
      split at h
      · cases h
      · next hen =>
        rw [if_neg hen, ← hcalls]
        split at h
        · exact ⟨_, rfl, (Option.some.inj h) ▸ hwrite s u q _ killed ⟨hR, hcalls, hout⟩⟩
        · exact ⟨_, rfl, (Option.some.inj h) ▸ hread s u q _ killed ⟨hR, hcalls, hout⟩⟩
        · cases h
    | close writable =>
      simp only [step, hfr] at h ⊢
      split at h
      · cases h
      · next hen =>
        cases Option.some.inj h
        exact ⟨_, if_neg hen, hc writable _ _ hR, hcalls, hout⟩
  exact Run.exec_simulation (Sim R) hstep ls (init p) (init f) s ⟨hpf, rfl, rfl⟩ hrun

end Simulation

end PipeSys

/-! ### The count of bytes in the ring -/

namespace Pipe

/-- `nwrite - nread` as a 32-bit unsigned difference: the bytes in the ring. -/
def count (p : Pipe) : ℕ := usub p.nwrite p.nread

theorem count_eq_dist (p : Pipe) : p.count = Ring.dist UINT p.nread p.nwrite := rfl

/-- The counters are `uint`s and at most `PIPESIZE` bytes lie between them. -/
structure Bounded (p : Pipe) : Prop where
  nread_lt : p.nread < UINT
  nwrite_lt : p.nwrite < UINT
  count_le : p.count ≤ PIPESIZE

theorem bounded_alloc (data : Fin PIPESIZE → UInt8) : (alloc data).Bounded :=
  ⟨show 0 < UINT by decide, show 0 < UINT by decide, show usub 0 0 ≤ PIPESIZE by decide⟩

section Bounded

variable {p : Pipe} (hb : p.Bounded)
include hb

/-- The full test reads the count: the ring is full when it holds `PIPESIZE` bytes. -/
theorem full_iff : p.full = true ↔ p.count = PIPESIZE := by
  rw [full, decide_eq_true_iff, count_eq_dist]
  exact Ring.eq_add_iff_dist hb.nread_lt hb.nwrite_lt (by decide)

/-- The empty test reads the count: the counters are equal when the ring holds nothing. -/
theorem nread_eq_nwrite_iff : p.nread = p.nwrite ↔ p.count = 0 := by
  rw [count_eq_dist, Ring.dist_eq_zero_iff hb.nread_lt hb.nwrite_lt, eq_comm]

/-- A store adds one byte. -/
theorem count_put (c : UInt8) : (p.put c).count = p.count + 1 := by
  have hle : p.count ≤ PIPESIZE := hb.count_le
  have hlt : Ring.dist UINT p.nread p.nwrite + 1 < UINT := by
    rw [← count_eq_dist]
    unfold PIPESIZE at hle
    unfold UINT
    omega
  exact Ring.dist_succ_right hb.nread_lt hb.nwrite_lt hlt

theorem bounded_put (hf : p.full = false) (c : UInt8) : (p.put c).Bounded := by
  have hne : p.count ≠ PIPESIZE := fun h => by rw [(full_iff hb).mpr h] at hf; cases hf
  have hle := hb.count_le
  exact ⟨hb.nread_lt, wrap_lt _, by rw [count_put hb c]; omega⟩

/-- A byte taken from a ring that is not empty leaves one byte fewer. -/
theorem count_take (he : p.nread ≠ p.nwrite) : p.take.count = p.count - 1 :=
  Ring.dist_succ_left hb.nread_lt hb.nwrite_lt (Ne.symm he)

theorem bounded_take (he : p.nread ≠ p.nwrite) : p.take.Bounded :=
  ⟨wrap_lt _, hb.nwrite_lt, by rw [count_take hb he]; exact le_trans (Nat.sub_le _ _) hb.count_le⟩

end Bounded

theorem bounded_pipewriteLoop (killed : Bool) (bytes : List UInt8) {p : Pipe} (hb : p.Bounded) :
    (pipewriteLoop killed bytes p).1.Bounded := by
  induction bytes generalizing p with
  | nil => exact hb
  | cons c cs ih =>
    unfold pipewriteLoop
    by_cases hf : p.full
    · rw [if_pos hf]
      split <;> exact hb
    · rw [if_neg hf]
      exact ih (bounded_put hb (Bool.eq_false_iff.mpr hf) c)

theorem bounded_pipereadCopy (n : ℕ) {p : Pipe} (hb : p.Bounded) : (pipereadCopy n p).1.Bounded := by
  induction n generalizing p with
  | zero => exact hb
  | succ n ih =>
    unfold pipereadCopy
    split
    · exact hb
    · next he => exact ih (bounded_take hb he)

theorem bounded_piperead (killed : Bool) (n : ℕ) {p : Pipe} (hb : p.Bounded) :
    (piperead killed n p).1.Bounded := by
  unfold piperead
  split
  · exact hb
  · exact bounded_pipereadCopy n hb

theorem bounded_pipeclose (writable : Bool) {p : Pipe} (hb : p.Bounded) : (p.pipeclose writable).Bounded := by
  unfold pipeclose
  split
  · exact ⟨hb.nread_lt, hb.nwrite_lt, hb.count_le⟩
  · exact ⟨hb.nread_lt, hb.nwrite_lt, hb.count_le⟩

end Pipe

/-- **The ring never overflows**: in every state reachable from a freshly allocated pipe, under
any interleaving of writes, reads, wakeups and closes, the counters are `uint`s and
`nwrite - nread` is at most `PIPESIZE`, however often they have wrapped. -/
theorem bounded_reachable {s : PipeSys Pipe} (hs : PipeSys.Reachable Pipe.impl (fun p => p = Pipe.alloc p.data) s) :
    s.pipe.Bounded := by
  refine PipeSys.pipe_invariant Pipe.impl Pipe.Bounded ?_ ?_ ?_ ?_ hs
  · intro killed bytes p hb
    exact Pipe.bounded_pipewriteLoop killed bytes hb
  · intro killed n p hb
    exact Pipe.bounded_piperead killed n hb
  · intro p writable hb
    exact Pipe.bounded_pipeclose writable hb
  · intro p hp
    rw [hp]
    exact Pipe.bounded_alloc p.data

end Xv6Lab
