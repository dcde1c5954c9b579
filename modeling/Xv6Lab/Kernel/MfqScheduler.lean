import Mathlib
import Xv6Lab.Kernel.Proc

/-!
# The lab's multilevel feedback scheduler (`MFQscheduler`, `random`, `totalTickets`)

`MFQscheduler` keeps a level bound `MFQpriority` (1 to 3).  Each iteration of its outer loop
starts with `rand = -1` and tries the levels `1..MFQpriority` in turn, under `ptable.lock`:

* level 1 — a lottery over the `RUNNABLE` processes whose `MFQpriority` is 1, in table order:
  while `rand <= 0` and the ticket total is positive it draws `rand = random(total)`, then
  subtracts the candidate's tickets and runs it when `rand <= 0`;
* level 2 — the candidate of least `ctime` (the first of equals);
* level 3 — the candidate of least `priority` (the last of equals, by `>=`).

The first level that finds a process runs it and becomes the bound; when none does the bound
advances (3 wraps to 1).  A process switched to runs until it gives the CPU back; what it does
then is the other calls' business, so an iteration is modelled by the process it switches to.

`int` arithmetic wraps at 32 bits (`iwrap`); `random`'s four static words are `BitVec 32`, with
the target's arithmetic right shift.

* `random_mem` — `random(max)` lies in `[0, max)` for every generator state;
* `level1_eq_some_iff` — the lottery's rule: with tickets `>= 1` and no overflow, the candidate
  run is the first whose running ticket sum reaches the draw: `S_{j-1} < r <= S_j`, with the
  first also winning at `r = 0`;
* `level2_spec`, `level3_spec`, `mfqPass_none`, `mfqPass_some` — what the other levels pick and
  what an iteration does;
* `lottery_skips_last` — two processes of one ticket each: the first runs for every draw;
* `negative_tickets_skip_level1` — a lone `RUNNABLE` process with `-2` tickets is never run at
  level 1, and the bound moves on.
-/

namespace Xv6Lab

/-- The fields of `struct proc` the scheduler reads. -/
structure SchedProc where
  state : ProcState
  MFQpriority : ℤ
  tickets : ℤ
  ctime : ℤ
  priority : ℤ

/-- `p->state == RUNNABLE && p->MFQpriority == i`: the processes the pass at level `i` looks
at (the others it `continue`s past). -/
def SchedProc.runnableAt (q : SchedProc) (i : ℤ) : Bool :=
  q.state == .runnable && q.MFQpriority == i

/-! ### `random` and `totalTickets` -/

/-- `random`'s static words `z1`..`z4`. -/
structure Rng where
  z1 : BitVec 32
  z2 : BitVec 32
  z3 : BitVec 32
  z4 : BitVec 32

/-- The words before the first call: `12345` each. -/
def Rng.init : Rng := ⟨12345, 12345, 12345, 12345⟩

/-- One word's update, `b = (((z << s1) ^ z) >> s2); z = (((z & m) << s3) ^ b);`.  The mask is
a `long long` constant, so `z & m` is taken in 64 bits, but only its low 32 bits reach the
`int` `z`. -/
def Rng.next (z : BitVec 32) (s1 s2 : ℕ) (m : BitVec 32) (s3 : ℕ) : BitVec 32 :=
  ((z &&& m) <<< s3) ^^^ ((z <<< s1) ^^^ z).sshiftRight s2

/-- `random(max)`: `1` for `max <= 0`; otherwise the four words step and the result is
`(z1 ^ z2 ^ z3 ^ z4) % max`, negated when negative (C's `%` truncates toward zero). -/
def random (g : Rng) (max : ℤ) : ℤ × Rng :=
  if max ≤ 0 then (1, g)
  else
    let g : Rng := ⟨Rng.next g.z1 6 13 4294967294 18, Rng.next g.z2 2 27 4294967288 2,
      Rng.next g.z3 13 21 4294967280 7, Rng.next g.z4 3 12 4294967168 13⟩
    let rand := (g.z1 ^^^ g.z2 ^^^ g.z3 ^^^ g.z4).toInt.tmod max
    (if rand < 0 then rand * -1 else rand, g)

/-- `totalTickets()`: the tickets of the `RUNNABLE` level-1 processes, summed in `int`. -/
def totalTickets (t : Fin NPROC → SchedProc) : ℤ :=
  (List.finRange NPROC).foldl
    (fun total p => if (t p).runnableAt 1 then iwrap (total + (t p).tickets) else total) 0

/-! ### The three levels -/

/-- The level-1 pass over the slots `ps` in table order, from `rand` and the generator state
`g`: the first candidate whose tickets bring `rand` to `<= 0` runs.  `random(total)` is drawn
before a candidate's subtraction while `rand <= 0` and the total is positive. -/
def level1 (t : Fin NPROC → SchedProc) : List (Fin NPROC) → ℤ → Rng → Option (Fin NPROC) × Rng
  | [], _, g => (none, g)
  | p :: ps, rand, g =>
    if (t p).runnableAt 1 then
      let total := totalTickets t
      let (rand, g) := if 0 < total ∧ rand ≤ 0 then random g total else (rand, g)
      let rand := iwrap (rand - (t p).tickets)
      if rand ≤ 0 then (some p, g) else level1 t ps rand g
    else level1 t ps rand g

/-- The level-2 loop: `minP`, the first candidate of least `ctime`. -/
def level2 (t : Fin NPROC → SchedProc) : Option (Fin NPROC) :=
  (List.finRange NPROC).foldl (fun minP p =>
    if (t p).runnableAt 2 then
      match minP with
      | some m => if (t p).ctime < (t m).ctime then some p else some m
      | none => some p
    else minP) none

/-- The level-3 loop: `highP`, set to the first candidate and then to every candidate whose
`priority` is at most its own. -/
def level3 (t : Fin NPROC → SchedProc) : Option (Fin NPROC) :=
  (List.finRange NPROC).foldl (fun highP p =>
    if (t p).runnableAt 3 then
      let h := highP.getD p
      if (t p).priority ≤ (t h).priority then some p else some h
    else highP) none

/-- The body of the level loop for level `i`, with `rand = -1` as the iteration starts it: the
process switched to, if any.  Level 2 also checks `minP->state == RUNNABLE`. -/
def levelPick (t : Fin NPROC → SchedProc) (i : ℕ) (g : Rng) : Option (Fin NPROC) × Rng :=
  if i = 1 then level1 t (List.finRange NPROC) (-1) g
  else if i = 2 then
    match level2 t with
    | some m => (if (t m).state = .runnable then some m else none, g)
    | none => (none, g)
  else if i = 3 then (level3 t, g)
  else (none, g)

/-- `for (int i = 1; i <= MFQpriority; ++i)` over the levels `is`, stopping at the first that
switches to a process: that process and its level. -/
def levelsLoop (t : Fin NPROC → SchedProc) : List ℕ → Rng → Option (Fin NPROC × ℕ) × Rng
  | [], g => (none, g)
  | i :: is, g =>
    match levelPick t i g with
    | (some p, g) => (some (p, i), g)
    | (none, g) => levelsLoop t is g

/-- One iteration of `MFQscheduler`'s outer loop with `MFQpriority = L`: the process switched to,
the next `MFQpriority`, and the generator state. -/
def mfqPass (t : Fin NPROC → SchedProc) (L : ℕ) (g : Rng) : Option (Fin NPROC) × ℕ × Rng :=
  match levelsLoop t (List.range' 1 L) g with
  | (some (p, i), g) => (some p, i, g)
  | (none, g) => (none, if L < 3 then L + 1 else 1, g)

/-! ### `random` -/

/-- **`random(max)` lies in `[0, max)`** for every state of its four words. -/
theorem random_mem (g : Rng) {max : ℤ} (h : 0 < max) :
    0 ≤ (random g max).1 ∧ (random g max).1 < max := by
  unfold random
  rw [if_neg (not_le.mpr h)]
  dsimp only
  generalize (Rng.next g.z1 6 13 4294967294 18 ^^^ Rng.next g.z2 2 27 4294967288 2 ^^^
    Rng.next g.z3 13 21 4294967280 7 ^^^ Rng.next g.z4 3 12 4294967168 13).toInt = x
  have hlt := Int.tmod_lt_of_pos x h
  have hgt := Int.lt_tmod_of_pos x h
  split_ifs <;> omega

/-! ### Candidates and tickets -/

/-- The candidates of level `i`, in table order. -/
def cands (t : Fin NPROC → SchedProc) (i : ℤ) : List (Fin NPROC) :=
  (List.finRange NPROC).filter fun p => (t p).runnableAt i

/-- The tickets of the slots `ps`, summed without overflow. -/
def ticketSum (t : Fin NPROC → SchedProc) (ps : List (Fin NPROC)) : ℤ :=
  (ps.map fun p => (t p).tickets).sum

@[simp] theorem ticketSum_nil (t : Fin NPROC → SchedProc) : ticketSum t [] = 0 := rfl

@[simp] theorem ticketSum_cons (t : Fin NPROC → SchedProc) (p : Fin NPROC)
    (ps : List (Fin NPROC)) : ticketSum t (p :: ps) = (t p).tickets + ticketSum t ps := by
  simp [ticketSum]

theorem ticketSum_nonneg {t : Fin NPROC → SchedProc} {ps : List (Fin NPROC)}
    (h : ∀ q ∈ ps, 0 ≤ (t q).tickets) : 0 ≤ ticketSum t ps :=
  List.sum_nonneg (by simpa using h)

theorem runnableAt_of_mem_cands {t : Fin NPROC → SchedProc} {i : ℤ} {p : Fin NPROC}
    (h : p ∈ cands t i) : (t p).runnableAt i = true :=
  (List.mem_filter.mp h).2

/-- Tickets the lottery handles without overflow: every level-1 candidate holds a ticket or
more, and their sum fits in an `int`. -/
structure LotteryOk (t : Fin NPROC → SchedProc) : Prop where
  pos : ∀ q ∈ cands t 1, 1 ≤ (t q).tickets
  fits : ticketSum t (cands t 1) < 2 ^ 31

/-- `totalTickets`' running `int` sum is the plain sum while that stays below `2^31`. -/
theorem foldl_iwrap_add (t : Fin NPROC → SchedProc) :
    ∀ (ps : List (Fin NPROC)) (acc : ℤ), 0 ≤ acc → (∀ q ∈ ps, 0 ≤ (t q).tickets) →
      acc + ticketSum t ps < 2 ^ 31 →
      ps.foldl (fun total p => iwrap (total + (t p).tickets)) acc = acc + ticketSum t ps
  | [], acc, _, _, _ => by simp
  | q :: ps, acc, h0, hq, hs => by
    have hq0 := hq q List.mem_cons_self
    have hps : ∀ r ∈ ps, 0 ≤ (t r).tickets := fun r hr => hq r (List.mem_cons_of_mem _ hr)
    have hrest := ticketSum_nonneg hps
    rw [ticketSum_cons] at hs
    rw [List.foldl_cons, iwrap_of_mem (by omega) (by omega),
      foldl_iwrap_add t ps _ (by omega) hps (by omega), ticketSum_cons]
    ring

theorem totalTickets_eq {t : Fin NPROC → SchedProc} (h : LotteryOk t) :
    totalTickets t = ticketSum t (cands t 1) := by
  rw [totalTickets, ← List.foldl_filter]
  exact (foldl_iwrap_add t (cands t 1) 0 le_rfl (fun q hq => by have := h.pos q hq; omega)
    (by have := h.fits; omega)).trans (zero_add _)

/-! ### Level 1 -/

/-- `level1` passes over the slots that are not level-1 candidates. -/
theorem level1_filter (t : Fin NPROC → SchedProc) (ps : List (Fin NPROC)) (rand : ℤ) (g : Rng) :
    level1 t ps rand g = level1 t (ps.filter fun p => (t p).runnableAt 1) rand g := by
  induction ps generalizing rand g with
  | nil => rfl
  | cons p ps ih =>
    by_cases hp : (t p).runnableAt 1
    · rw [List.filter_cons_of_pos (p := fun p => (t p).runnableAt 1) hp]
      simp only [level1, if_pos hp, ih]
    · rw [List.filter_cons_of_neg (p := fun p => (t p).runnableAt 1) hp]
      simp only [level1, hp, Bool.false_eq_true, if_false]
      exact ih rand g

theorem level1_eq_finRange (t : Fin NPROC → SchedProc) (rand : ℤ) (g : Rng) :
    level1 t (List.finRange NPROC) rand g = level1 t (cands t 1) rand g :=
  level1_filter t _ rand g

/-- A candidate met with `rand > 0`, or with no positive total, makes no draw: it only takes
its tickets off `rand`. -/
theorem level1_of_no_draw (t : Fin NPROC → SchedProc) {q : Fin NPROC}
    (hq : (t q).runnableAt 1) (ps : List (Fin NPROC)) {rand : ℤ}
    (hnd : ¬(0 < totalTickets t ∧ rand ≤ 0)) (g : Rng) :
    level1 t (q :: ps) rand g =
      if iwrap (rand - (t q).tickets) ≤ 0 then (some q, g)
      else level1 t ps (iwrap (rand - (t q).tickets)) g := by
  simp only [level1, if_pos hq, hnd, if_false]

/-- A candidate met with `rand <= 0` and a positive total draws `rand = random(total)` first. -/
theorem level1_of_draw (t : Fin NPROC → SchedProc) {q : Fin NPROC} (hq : (t q).runnableAt 1)
    (ps : List (Fin NPROC)) {rand : ℤ} (hd : 0 < totalTickets t ∧ rand ≤ 0) {g g' : Rng}
    {r : ℤ} (hr : random g (totalTickets t) = (r, g')) :
    level1 t (q :: ps) rand g =
      if iwrap (r - (t q).tickets) ≤ 0 then (some q, g')
      else level1 t ps (iwrap (r - (t q).tickets)) g' := by
  simp only [level1, if_pos hq, hd, and_self, if_true, hr]

/-- A candidate's step, with or without a draw before it: `q` runs on the draw or `rand` it
meets, or its tickets come off and the pass goes on. -/
theorem level1_step (t : Fin NPROC → SchedProc) {q : Fin NPROC} (hq : (t q).runnableAt 1)
    (ps : List (Fin NPROC)) (rand : ℤ) (g : Rng) :
    ∃ r g', level1 t (q :: ps) rand g =
      if iwrap (r - (t q).tickets) ≤ 0 then (some q, g')
      else level1 t ps (iwrap (r - (t q).tickets)) g' := by
  by_cases hd : 0 < totalTickets t ∧ rand ≤ 0
  · rcases hr : random g (totalTickets t) with ⟨r, g'⟩
    exact ⟨r, g', level1_of_draw t hq ps hd hr⟩
  · exact ⟨rand, g, level1_of_no_draw t hq ps hd g⟩

/-- What `level1` runs is one of the slots it passed over, a level-1 candidate. -/
theorem level1_mem {t : Fin NPROC → SchedProc} {p : Fin NPROC} :
    ∀ {ps : List (Fin NPROC)} {rand : ℤ} {g : Rng}, (level1 t ps rand g).1 = some p →
      p ∈ ps ∧ (t p).runnableAt 1 = true
  | [], _, _, h => by cases h
  | q :: ps, rand, g, h => by
    by_cases hq : (t q).runnableAt 1
    · obtain ⟨r, g', hstep⟩ := level1_step t hq ps rand g
      rw [hstep] at h
      split at h
      · cases h
        exact ⟨List.mem_cons_self, hq⟩
      · exact (level1_mem h).imp_left (List.mem_cons_of_mem _)
    · simp only [level1, hq, Bool.false_eq_true, if_false] at h
      exact (level1_mem h).imp_left (List.mem_cons_of_mem _)

/-- Without candidates level 1 runs nothing and leaves the generator as it was. -/
theorem level1_of_cands_nil {t : Fin NPROC → SchedProc} (h : cands t 1 = []) (rand : ℤ)
    (g : Rng) : level1 t (List.finRange NPROC) rand g = (none, g) := by
  rw [level1_eq_finRange, h]
  rfl

/-- The positive phase of the lottery: from `0 < rand`, the candidate run is the first whose
running ticket sum reaches `rand`. -/
theorem level1_pos_eq_some_iff {t : Fin NPROC → SchedProc} {cs : List (Fin NPROC)}
    (hc : ∀ q ∈ cs, (t q).runnableAt 1 ∧ 1 ≤ (t q).tickets) (hT : ticketSum t cs < 2 ^ 31)
    {rand : ℤ} (h0 : 0 < rand) (h1 : rand < 2 ^ 31) (g : Rng) (p : Fin NPROC) :
    (level1 t cs rand g).1 = some p ↔
      ∃ pre post, cs = pre ++ p :: post ∧ ticketSum t pre < rand ∧
        rand ≤ ticketSum t pre + (t p).tickets := by
  induction cs generalizing rand with
  | nil => simp [level1]
  | cons q cs ih =>
    obtain ⟨hq, hq1⟩ := hc q List.mem_cons_self
    have hc' : ∀ r ∈ cs, (t r).runnableAt 1 ∧ 1 ≤ (t r).tickets :=
      fun r hr => hc r (List.mem_cons_of_mem _ hr)
    have hrest : 0 ≤ ticketSum t cs := ticketSum_nonneg fun r hr => by
      have := (hc' r hr).2
      omega
    rw [ticketSum_cons] at hT
    rw [level1_of_no_draw t hq cs (by omega), iwrap_of_mem (by omega) (by omega)]
    by_cases hr : rand - (t q).tickets ≤ 0
    · -- `q` takes it: no later decomposition has its prefix sum below `rand`
      rw [if_pos hr]
      constructor
      · rintro ⟨⟩
        exact ⟨[], cs, rfl, by simpa using h0, by simp; omega⟩
      · rintro ⟨pre, post, heq, hlt, -⟩
        cases pre with
        | nil =>
          cases heq
          rfl
        | cons q' pre' =>
          obtain ⟨rfl, rfl⟩ := List.cons.inj heq
          have : 0 ≤ ticketSum t pre' := ticketSum_nonneg fun r hr => by
            have := (hc' r (List.mem_append_left _ hr)).2
            omega
          rw [ticketSum_cons] at hlt
          omega
    · -- `q`'s tickets come off and the pass goes on with the rest
      rw [if_neg hr, ih hc' (by omega) (by omega) (by omega)]
      constructor
      · rintro ⟨pre, post, rfl, hlt, hle⟩
        exact ⟨q :: pre, post, rfl, by rw [ticketSum_cons]; omega, by rw [ticketSum_cons]; omega⟩
      · rintro ⟨pre, post, heq, hlt, hle⟩
        cases pre with
        | nil =>
          obtain ⟨rfl, -⟩ := List.cons.inj heq
          simp only [ticketSum_nil] at hle
          omega
        | cons q' pre' =>
          obtain ⟨rfl, rfl⟩ := List.cons.inj heq
          rw [ticketSum_cons] at hlt hle
          exact ⟨pre', post, rfl, by omega, by omega⟩

/-- **The lottery's rule.**  With tickets the lottery handles, level 1 runs `p` exactly when
`p` is the candidate whose running ticket sum first reaches the draw `r = random(T)`:
`S_{j-1} < r <= S_j`, where the first candidate also wins at `r = 0`.  So the first wins for
`t_1 + 1` of the `T` draws and the last for `t_k - 1`. -/
theorem level1_eq_some_iff {t : Fin NPROC → SchedProc} (h : LotteryOk t) (g : Rng)
    (p : Fin NPROC) :
    (level1 t (List.finRange NPROC) (-1) g).1 = some p ↔
      ∃ pre post, cands t 1 = pre ++ p :: post ∧
        (random g (ticketSum t (cands t 1))).1 ≤ ticketSum t pre + (t p).tickets ∧
        (pre = [] ∨ ticketSum t pre < (random g (ticketSum t (cands t 1))).1) := by
  have hcand : ∀ q ∈ cands t 1, (t q).runnableAt 1 ∧ 1 ≤ (t q).tickets :=
    fun q hq => ⟨runnableAt_of_mem_cands hq, h.pos q hq⟩
  have htot := totalTickets_eq h
  have hfits := h.fits
  rw [level1_eq_finRange]
  generalize cands t 1 = cs at hcand htot hfits ⊢
  cases cs with
  | nil => simp [level1]
  | cons q cs =>
    obtain ⟨hq, hq1⟩ := hcand q List.mem_cons_self
    have hc' : ∀ r ∈ cs, (t r).runnableAt 1 ∧ 1 ≤ (t r).tickets :=
      fun r hr => hcand r (List.mem_cons_of_mem _ hr)
    have hrest : 0 ≤ ticketSum t cs := ticketSum_nonneg fun r hr => by
      have := (hc' r hr).2
      omega
    have hT : totalTickets t = (t q).tickets + ticketSum t cs := by rw [htot, ticketSum_cons]
    rw [ticketSum_cons] at hfits
    -- the first candidate draws `r` from `[0, T)`
    rcases hdraw : random g (totalTickets t) with ⟨r, g'⟩
    have hrT : 0 ≤ r ∧ r < totalTickets t := by
      have := random_mem g (show 0 < totalTickets t by omega)
      rwa [hdraw] at this
    rw [level1_of_draw t hq cs ⟨by omega, by omega⟩ hdraw, iwrap_of_mem (by omega) (by omega),
      ← htot, hdraw]
    dsimp only
    by_cases hr : r - (t q).tickets ≤ 0
    · rw [if_pos hr]
      constructor
      · rintro ⟨⟩
        exact ⟨[], cs, rfl, by simp; omega, Or.inl rfl⟩
      · rintro ⟨pre, post, heq, -, hpre⟩
        cases pre with
        | nil =>
          cases heq
          rfl
        | cons q' pre' =>
          obtain ⟨rfl, rfl⟩ := List.cons.inj heq
          have : 0 ≤ ticketSum t pre' := ticketSum_nonneg fun r hr => by
            have := (hc' r (List.mem_append_left _ hr)).2
            omega
          simp only [reduceCtorEq, false_or, ticketSum_cons] at hpre
          omega
    · rw [if_neg hr, level1_pos_eq_some_iff hc' (by omega) (by omega) (by omega)]
      constructor
      · rintro ⟨pre, post, rfl, hlt, hle⟩
        exact ⟨q :: pre, post, rfl, by rw [ticketSum_cons]; omega,
          Or.inr (by rw [ticketSum_cons]; omega)⟩
      · rintro ⟨pre, post, heq, hle, hpre⟩
        cases pre with
        | nil =>
          obtain ⟨rfl, -⟩ := List.cons.inj heq
          simp only [ticketSum_nil] at hle
          omega
        | cons q' pre' =>
          obtain ⟨rfl, rfl⟩ := List.cons.inj heq
          simp only [reduceCtorEq, false_or, ticketSum_cons] at hpre hle
          exact ⟨pre', post, rfl, by omega, by omega⟩

/-- From `0 < rand`, at most the candidates' tickets, the pass runs one of them. -/
theorem level1_pos_isSome {t : Fin NPROC → SchedProc} {cs : List (Fin NPROC)}
    (hc : ∀ q ∈ cs, (t q).runnableAt 1 ∧ 1 ≤ (t q).tickets) (hT : ticketSum t cs < 2 ^ 31)
    {rand : ℤ} (h0 : 0 < rand) (hle : rand ≤ ticketSum t cs) (g : Rng) :
    (level1 t cs rand g).1.isSome := by
  induction cs generalizing rand with
  | nil =>
    simp only [ticketSum_nil] at hle
    omega
  | cons q cs ih =>
    obtain ⟨hq, hq1⟩ := hc q List.mem_cons_self
    have hc' : ∀ r ∈ cs, (t r).runnableAt 1 ∧ 1 ≤ (t r).tickets :=
      fun r hr => hc r (List.mem_cons_of_mem _ hr)
    have hrest : 0 ≤ ticketSum t cs := ticketSum_nonneg fun r hr => by
      have := (hc' r hr).2
      omega
    rw [ticketSum_cons] at hT hle
    rw [level1_of_no_draw t hq cs (by omega), iwrap_of_mem (by omega) (by omega)]
    split_ifs with hr
    · rfl
    · exact ih hc' (by omega) (by omega) (by omega)

/-- With tickets the lottery handles, level 1 runs a process whenever it has a candidate. -/
theorem level1_isSome {t : Fin NPROC → SchedProc} (h : LotteryOk t) (hne : cands t 1 ≠ [])
    (g : Rng) : (level1 t (List.finRange NPROC) (-1) g).1.isSome := by
  have hcand : ∀ q ∈ cands t 1, (t q).runnableAt 1 ∧ 1 ≤ (t q).tickets :=
    fun q hq => ⟨runnableAt_of_mem_cands hq, h.pos q hq⟩
  have htot := totalTickets_eq h
  have hfits := h.fits
  rw [level1_eq_finRange]
  generalize cands t 1 = cs at hcand htot hfits hne ⊢
  cases cs with
  | nil => exact absurd rfl hne
  | cons q cs =>
    obtain ⟨hq, hq1⟩ := hcand q List.mem_cons_self
    have hc' : ∀ r ∈ cs, (t r).runnableAt 1 ∧ 1 ≤ (t r).tickets :=
      fun r hr => hcand r (List.mem_cons_of_mem _ hr)
    have hrest : 0 ≤ ticketSum t cs := ticketSum_nonneg fun r hr => by
      have := (hc' r hr).2
      omega
    rw [ticketSum_cons] at htot hfits
    rcases hdraw : random g (totalTickets t) with ⟨r, g'⟩
    have hrT : 0 ≤ r ∧ r < totalTickets t := by
      have := random_mem g (show 0 < totalTickets t by omega)
      rwa [hdraw] at this
    rw [level1_of_draw t hq cs ⟨by omega, by omega⟩ hdraw, iwrap_of_mem (by omega) (by omega)]
    split_ifs with hr
    · rfl
    · exact level1_pos_isSome hc' (by omega) (by omega) (by omega) g'

/-! ### Levels 2 and 3 -/

/-- `minP` is Mathlib's `argmin` of `ctime` over the level-2 candidates. -/
theorem level2_eq_argmin (t : Fin NPROC → SchedProc) :
    level2 t = (cands t 2).argmin fun p => (t p).ctime := by
  rw [level2, cands, List.argmin, List.foldl_filter]
  congr 1
  funext minP p
  split
  · cases minP <;> rfl
  · rfl

/-- Level 2 picks a candidate of least `ctime`, and picks one whenever there is a candidate. -/
theorem level2_spec (t : Fin NPROC → SchedProc) :
    (∀ m, level2 t = some m → m ∈ cands t 2 ∧ ∀ q ∈ cands t 2, (t m).ctime ≤ (t q).ctime) ∧
      (level2 t = none ↔ cands t 2 = []) := by
  rw [level2_eq_argmin]
  refine ⟨fun m hm => ⟨List.argmin_mem hm,
    fun q hq => List.le_of_mem_argmin (f := fun p => (t p).ctime) hq hm⟩, ?_⟩
  exact List.argmin_eq_none

/-- `highP`'s loop from a first candidate `a`: the last of least `f` among `a :: l`. -/
theorem foldl_lastMin {α : Type*} (f : α → ℤ) :
    ∀ (l : List α) (a : α), ∃ m, l.foldl (fun highP p =>
        if f p ≤ f (highP.getD p) then some p else some (highP.getD p)) (some a) = some m ∧
      m ∈ a :: l ∧ ∀ q ∈ a :: l, f m ≤ f q
  | [], a => ⟨a, rfl, List.mem_cons_self, fun q hq => by
      rw [List.mem_singleton.mp hq]⟩
  | p :: l, a => by
    by_cases hp : f p ≤ f a
    · obtain ⟨m, hm, hmem, hmin⟩ := foldl_lastMin f l p
      refine ⟨m, by simpa [hp] using hm, ?_, fun q hq => ?_⟩
      · exact List.mem_cons_of_mem _ hmem
      · rcases List.mem_cons.mp hq with rfl | hq
        · exact (hmin p List.mem_cons_self).trans hp
        · exact hmin q hq
    · obtain ⟨m, hm, hmem, hmin⟩ := foldl_lastMin f l a
      refine ⟨m, by simpa [hp] using hm, ?_, fun q hq => ?_⟩
      · rcases List.mem_cons.mp hmem with rfl | h
        · exact List.mem_cons_self
        · exact List.mem_cons_of_mem _ (List.mem_cons_of_mem _ h)
      · rcases List.mem_cons.mp hq with rfl | hq
        · exact hmin q List.mem_cons_self
        · rcases List.mem_cons.mp hq with rfl | hq
          · exact (hmin a List.mem_cons_self).trans (by omega)
          · exact hmin q (List.mem_cons_of_mem _ hq)

/-- Level 3 picks a candidate of least `priority`, and picks one whenever there is a
candidate. -/
theorem level3_spec (t : Fin NPROC → SchedProc) :
    (∀ m, level3 t = some m →
      m ∈ cands t 3 ∧ ∀ q ∈ cands t 3, (t m).priority ≤ (t q).priority) ∧
      (level3 t = none ↔ cands t 3 = []) := by
  have heq : level3 t = (cands t 3).foldl (fun highP p =>
      if (t p).priority ≤ (t (highP.getD p)).priority then some p else some (highP.getD p))
      none := by
    rw [level3, cands, List.foldl_filter]
  rw [heq]
  cases hc : cands t 3 with
  | nil =>
    refine ⟨fun m hm => ?_, ⟨fun _ => rfl, fun _ => rfl⟩⟩
    cases hm
  | cons a l =>
    -- the first candidate becomes `highP`, then `highP`'s loop runs over the rest
    obtain ⟨m, hm, hmem, hmin⟩ := foldl_lastMin (fun p => (t p).priority) l a
    have hfirst : (a :: l).foldl (fun highP p =>
        if (t p).priority ≤ (t (highP.getD p)).priority then some p else some (highP.getD p))
        none = some m := by
      simpa using hm
    rw [hfirst]
    exact ⟨fun m' hm' => by cases hm'; exact ⟨hmem, hmin⟩, by simp⟩

/-! ### One iteration -/

theorem levelPick_one (t : Fin NPROC → SchedProc) (g : Rng) :
    levelPick t 1 g = level1 t (List.finRange NPROC) (-1) g := rfl

/-- Level 2's check `minP->state == RUNNABLE` always passes: `minP` is a candidate. -/
theorem levelPick_two (t : Fin NPROC → SchedProc) (g : Rng) :
    levelPick t 2 g = (level2 t, g) := by
  simp only [levelPick, OfNat.ofNat_ne_one, if_false, if_true]
  cases hm : level2 t with
  | none => rfl
  | some m =>
    have hr := runnableAt_of_mem_cands ((level2_spec t).1 m hm).1
    simp only [SchedProc.runnableAt, Bool.and_eq_true, beq_iff_eq] at hr
    simp [hr.1]

theorem levelPick_three (t : Fin NPROC → SchedProc) (g : Rng) :
    levelPick t 3 g = (level3 t, g) := rfl

theorem levelPick_of_gt_three (t : Fin NPROC → SchedProc) {i : ℕ} (hi : 3 < i) (g : Rng) :
    levelPick t i g = (none, g) := by
  simp only [levelPick, show i ≠ 1 by omega, show i ≠ 2 by omega, show i ≠ 3 by omega,
    if_false]

/-- **No candidate at the levels tried**: the iteration runs nothing and the bound advances. -/
theorem mfqPass_none {t : Fin NPROC → SchedProc} {L : ℕ}
    (h : ∀ i : ℕ, 1 ≤ i → i ≤ L → cands t i = []) (g : Rng) :
    mfqPass t L g = (none, if L < 3 then L + 1 else 1, g) := by
  have hpick : ∀ i : ℕ, 1 ≤ i → i ≤ L → levelPick t i g = (none, g) := by
    intro i h1 h2
    rcases (show i = 1 ∨ i = 2 ∨ i = 3 ∨ 3 < i by omega) with rfl | rfl | rfl | hi
    · rw [levelPick_one, level1_of_cands_nil (h 1 le_rfl h2)]
    · rw [levelPick_two, (level2_spec t).2.mpr (h 2 h1 h2)]
    · rw [levelPick_three, (level3_spec t).2.mpr (h 3 h1 h2)]
    · exact levelPick_of_gt_three t hi g
  have hloop : ∀ is : List ℕ, (∀ i ∈ is, 1 ≤ i ∧ i ≤ L) → levelsLoop t is g = (none, g) := by
    intro is his
    induction is with
    | nil => rfl
    | cons i is ih =>
      obtain ⟨h1, h2⟩ := his i List.mem_cons_self
      rw [levelsLoop, hpick i h1 h2]
      exact ih fun j hj => his j (List.mem_cons_of_mem _ hj)
  rw [mfqPass, hloop _ fun i hi => by simp at hi; omega]

/-- **Level 1 with a lottery it can run**: its winner runs and the bound becomes `1`. -/
theorem mfqPass_level1 {t : Fin NPROC → SchedProc} (h : LotteryOk t) (hne : cands t 1 ≠ [])
    {L : ℕ} (hL : 1 ≤ L) (g : Rng) :
    ∃ p g', mfqPass t L g = (some p, 1, g') ∧
      (level1 t (List.finRange NPROC) (-1) g).1 = some p := by
  obtain ⟨p, hp⟩ := Option.isSome_iff_exists.mp (level1_isSome h hne g)
  obtain ⟨L', rfl⟩ : ∃ L', L = L' + 1 := ⟨L - 1, by omega⟩
  refine ⟨p, (level1 t (List.finRange NPROC) (-1) g).2, ?_, hp⟩
  rw [mfqPass, List.range'_succ, levelsLoop, levelPick_one]
  rcases hl : level1 t (List.finRange NPROC) (-1) g with ⟨r, g'⟩
  rw [hl] at hp
  cases hp
  rfl

/-- **Level 2 when level 1 is empty**: its least-`ctime` candidate runs. -/
theorem mfqPass_level2 {t : Fin NPROC → SchedProc} (h1 : cands t 1 = []) {m : Fin NPROC}
    (hm : level2 t = some m) {L : ℕ} (hL : 2 ≤ L) (g : Rng) :
    mfqPass t L g = (some m, 2, g) := by
  obtain ⟨L', rfl⟩ : ∃ L', L = L' + 2 := ⟨L - 2, by omega⟩
  simp only [mfqPass, List.range'_succ, Nat.reduceAdd, levelsLoop, levelPick_one,
    level1_of_cands_nil h1, levelPick_two, hm]

/-- **Level 3 when levels 1 and 2 are empty**: its least-`priority` candidate runs. -/
theorem mfqPass_level3 {t : Fin NPROC → SchedProc} (h1 : cands t 1 = []) (h2 : cands t 2 = [])
    {m : Fin NPROC} (hm : level3 t = some m) {L : ℕ} (hL : 3 ≤ L) (g : Rng) :
    mfqPass t L g = (some m, 3, g) := by
  obtain ⟨L', rfl⟩ : ∃ L', L = L' + 3 := ⟨L - 3, by omega⟩
  simp only [mfqPass, List.range'_succ, Nat.reduceAdd, levelsLoop, levelPick_one,
    level1_of_cands_nil h1, levelPick_two, (level2_spec t).2.mpr h2, levelPick_three, hm]

/-- Every level picks a `RUNNABLE` process: level 1 and 3 from their candidates, level 2
after its own test of `minP->state`. -/
theorem levelPick_runnable {t : Fin NPROC → SchedProc} {i : ℕ} {g g' : Rng} {p : Fin NPROC}
    (h : levelPick t i g = (some p, g')) : (t p).state = .runnable := by
  unfold levelPick at h
  split_ifs at h with h1 h2 h3
  · have hp := (level1_mem (congrArg Prod.fst h)).2
    simp only [SchedProc.runnableAt, Bool.and_eq_true, beq_iff_eq] at hp
    exact hp.1
  · split at h
    · split_ifs at h with hs
      · cases h
        exact hs
      · cases h
    · cases h
  · have hp := runnableAt_of_mem_cands ((level3_spec t).1 p (congrArg Prod.fst h)).1
    simp only [SchedProc.runnableAt, Bool.and_eq_true, beq_iff_eq] at hp
    exact hp.1
  · cases h

theorem levelsLoop_runnable {t : Fin NPROC → SchedProc} {p : Fin NPROC} {i : ℕ} :
    ∀ {is : List ℕ} {g g' : Rng}, levelsLoop t is g = (some (p, i), g') →
      (t p).state = .runnable
  | [], _, _, h => by cases h
  | j :: is, g, g', h => by
    unfold levelsLoop at h
    split at h
    · next g₁ hj =>
      cases h
      exact levelPick_runnable hj
    · exact levelsLoop_runnable h

/-- **`MFQscheduler` switches only to a `RUNNABLE` process.** -/
theorem mfqPass_runnable {t : Fin NPROC → SchedProc} {L L' : ℕ} {g g' : Rng} {p : Fin NPROC}
    (h : mfqPass t L g = (some p, L', g')) : (t p).state = .runnable := by
  unfold mfqPass at h
  split at h
  · next q i g₁ hl =>
    cases h
    exact levelsLoop_runnable hl
  · cases h

/-! ### Tickets the lottery gets wrong -/

/-- Two `RUNNABLE` level-1 processes of one ticket each, in slots 0 and 1. -/
def twoTickets : Fin NPROC → SchedProc := fun p =>
  if (p : ℕ) < 2 then ⟨.runnable, 1, 1, 0, 10⟩ else ⟨.unused, 0, 0, 0, 0⟩

/-- **The last process never wins.**  With tickets `1, 1` the draw is `0` or `1`; slot 1 should
win at `r = 1`, which `random(2)` returns from some generator states, but slot 0 runs for every
draw. -/
theorem lottery_skips_last :
    (random ⟨469961840, 790016, 4193514616, 1811939718⟩ 2).1 = 1 ∧
      ∀ g, (mfqPass twoTickets 1 g).1 = some 0 := by
  have hc : cands twoTickets 1 = [0, 1] := by decide
  have hok : LotteryOk twoTickets := ⟨by rw [hc]; decide, by rw [hc]; decide⟩
  refine ⟨by decide, fun g => ?_⟩
  obtain ⟨p, g', hpass, hp⟩ := mfqPass_level1 hok (by rw [hc]; decide) le_rfl g
  rw [hpass]
  -- the winner is the first slot whose ticket sum reaches the draw, and `r < 2` reaches `1`
  obtain ⟨pre, post, hdec, hle, hpre⟩ := (level1_eq_some_iff hok g p).mp hp
  have hr := random_mem g (show 0 < ticketSum twoTickets (cands twoTickets 1) by rw [hc]; decide)
  have h2 : ticketSum twoTickets [0, 1] = 2 := by decide
  rw [hc] at hdec
  rw [hc, h2] at hle hpre hr
  rcases pre with _ | ⟨a, _ | ⟨b, rest⟩⟩
  · -- slot 0 wins
    cases hdec
    rfl
  · -- slot 1 would need a draw past slot 0's single ticket
    cases hdec
    simp only [reduceCtorEq, false_or] at hpre
    have h1 : ticketSum twoTickets [0] = 1 := by decide
    omega
  · simp at hdec

/-- One `RUNNABLE` level-1 process, in slot 0, holding `-2` tickets (`chtickets` takes any
`int`). -/
def negativeTickets : Fin NPROC → SchedProc := fun p =>
  if (p : ℕ) = 0 then ⟨.runnable, 1, -2, 0, 10⟩ else ⟨.unused, 0, 0, 0, 0⟩

/-- **A runnable process the lottery never reaches.**  The total is `-2`, so no draw is made;
`rand = -1` minus `-2` is `1 > 0`, so slot 0 is passed over, and the iteration with bound `1`
runs nothing and moves the bound to `2`. -/
theorem negative_tickets_skip_level1 :
    (negativeTickets 0).runnableAt 1 = true ∧ ∀ g, mfqPass negativeTickets 1 g = (none, 2, g) := by
  have hc : cands negativeTickets 1 = [0] := by decide
  have htot : totalTickets negativeTickets = -2 := by decide
  refine ⟨rfl, fun g => ?_⟩
  have hl : level1 negativeTickets (List.finRange NPROC) (-1) g = (none, g) := by
    rw [level1_eq_finRange, hc, level1_of_no_draw negativeTickets rfl [] (by omega)]
    rfl
  simp only [mfqPass, List.range'_succ, List.range'_zero, levelsLoop, levelPick_one, hl]
  rfl

end Xv6Lab
