import Mathlib.Logic.Basic
import Mathlib.Data.List.Basic

/-!
# Runs of a partial step function

A system here is a **partial step function** `step : σ → α → Option σ`: a label `a` is enabled
in state `s` exactly when `step s a` is `some t`, and `t` is the state after it.  Every
interleaving model of this development has this shape — the label names the process and the
atomic action it takes, so the nondeterminism of the schedule lives entirely in the choice of
the label list.

* `exec step s as` — run the labels `as` from `s`, failing at the first disabled label;
* `Reachable init step t` — some run from an initial state ends in `t`;
* `exec_invariant` / `Reachable.induction` — **the invariant rule**: a predicate that holds
  initially and is kept by every enabled step holds at every reachable state;
* `exec_simulation` — **the simulation rule**: a relation under which every step of one system
  is matched by a step of another with the same label relates the ends of their runs;
* `exec_map` / `Reachable.map` — **the embedding rule**: a system whose every step is a step of
  another, up to a map of states and labels, reaches only images of the other's states;
* `exec_comm` / `Reachable.of_comm` — **the refinement rule for a function of states**: where one
  system does, on images, what another does followed by the function, its runs are the images;
* `logged` — a system that also keeps a log of what each step shows, for statements about the
  order of events along a run;
* `Reachable.next` / `reachable_of_exec` — reachability is closed under further steps, the
  form in which a concrete trace witnesses a reachable state.

Nothing here names a program: the lemmas are the ones every model below uses for its run lemmas.
-/

namespace Xv6Lab.Run

variable {σ α : Type*} (step : σ → α → Option σ)

/-- Run a label list, stopping at (and failing on) the first label that is not enabled. -/
def exec (s : σ) (as : List α) : Option σ := as.foldlM step s

@[simp] theorem exec_nil (s : σ) : exec step s [] = some s := rfl

@[simp] theorem exec_cons (s : σ) (a : α) (as : List α) :
    exec step s (a :: as) = (step s a).bind fun u => exec step u as := rfl

theorem exec_append (s : σ) (as bs : List α) :
    exec step s (as ++ bs) = (exec step s as).bind fun u => exec step u bs := by
  induction as generalizing s with
  | nil => rfl
  | cons a as ih =>
    simp only [List.cons_append, exec_cons]
    cases step s a with
    | none => rfl
    | some u => exact ih u

theorem exec_snoc (s : σ) (as : List α) (a : α) :
    exec step s (as ++ [a]) = (exec step s as).bind fun u => step u a := by
  rw [exec_append]
  cases exec step s as with
  | none => rfl
  | some u =>
    simp only [Option.bind_some, exec_cons, exec_nil]
    cases step u a <;> rfl

/-- A state some run from an initial state ends in. -/
def Reachable (init : σ → Prop) (t : σ) : Prop :=
  ∃ s as, init s ∧ exec step s as = some t

variable {step}

/-- **The invariant rule over the runs whose labels all pass a test**: a predicate kept by every
enabled step with such a label is kept by such a run. -/
theorem exec_invariant_of_forall (P : α → Prop) (inv : σ → Prop)
    (hstep : ∀ s a t, P a → inv s → step s a = some t → inv t) :
    ∀ (as : List α) (s t : σ), (∀ a ∈ as, P a) → inv s → exec step s as = some t → inv t := by
  intro as
  induction as with
  | nil =>
    intro s t _ hs h
    cases h
    exact hs
  | cons a as ih =>
    intro s t hP hs h
    rw [exec_cons] at h
    cases hu : step s a with
    | none => rw [hu] at h; cases h
    | some u =>
      rw [hu, Option.bind_some] at h
      have hu' := hstep s a u (hP a List.mem_cons_self) hs hu
      exact ih u t (fun b hb => hP b (List.mem_cons_of_mem a hb)) hu' h

/-- **The invariant rule over one run**: a predicate kept by every enabled step is kept by every
run. -/
theorem exec_invariant (inv : σ → Prop) (hstep : ∀ s a t, inv s → step s a = some t → inv t) :
    ∀ (as : List α) (s t : σ), inv s → exec step s as = some t → inv t :=
  fun as s t => exec_invariant_of_forall (fun _ => True) inv (fun s a t _ => hstep s a t) as s t
    fun _ _ => trivial

/-- **The simulation rule**: when every enabled step from a state related to `u` is matched by an
enabled step of `step'` from `u` with the same label, into related states, every run is matched
by a run of `step'` with the same labels. -/
theorem exec_simulation {τ : Type*} {step' : τ → α → Option τ} (R : σ → τ → Prop)
    (hstep : ∀ s u a t, R s u → step s a = some t → ∃ u', step' u a = some u' ∧ R t u') :
    ∀ (as : List α) (s : σ) (u : τ) (t : σ), R s u → exec step s as = some t →
      ∃ u', exec step' u as = some u' ∧ R t u' := by
  intro as
  induction as with
  | nil =>
    intro s u t hR h
    cases h
    exact ⟨u, rfl, hR⟩
  | cons a as ih =>
    intro s u t hR h
    rw [exec_cons] at h
    cases hs : step s a with
    | none => rw [hs] at h; cases h
    | some s' =>
      rw [hs, Option.bind_some] at h
      obtain ⟨u', hu', hR'⟩ := hstep s u a s' hR hs
      obtain ⟨u'', hrun, hR''⟩ := ih s' u' t hR' h
      refine ⟨u'', ?_, hR''⟩
      rw [exec_cons, hu', Option.bind_some]
      exact hrun

/-- **The embedding rule**: when every enabled step of `step` is, on the images of its states and
its label, an enabled step of `step'`, every run is. -/
theorem exec_map {τ β : Type*} {step' : τ → β → Option τ} (f : σ → τ) (g : α → β)
    (hstep : ∀ s a t, step s a = some t → step' (f s) (g a) = some (f t)) :
    ∀ (as : List α) (s t : σ), exec step s as = some t →
      exec step' (f s) (as.map g) = some (f t) := by
  intro as
  induction as with
  | nil =>
    intro s t h
    cases h
    rfl
  | cons a as ih =>
    intro s t h
    rw [exec_cons] at h
    cases hs : step s a with
    | none => rw [hs] at h; cases h
    | some u =>
      rw [hs, Option.bind_some] at h
      rw [List.map_cons, exec_cons, hstep s a u hs, Option.bind_some]
      exact ih u t h

/-- **The invariant rule**: what holds initially and is kept by every enabled step holds at every
reachable state. -/
theorem Reachable.induction {init : σ → Prop} (inv : σ → Prop) (h0 : ∀ s, init s → inv s)
    (hstep : ∀ s a t, inv s → step s a = some t → inv t) {t : σ}
    (ht : Reachable step init t) : inv t := by
  obtain ⟨s, as, hs, hrun⟩ := ht
  exact exec_invariant inv hstep as s t (h0 s hs) hrun

theorem reachable_of_exec {init : σ → Prop} {s t : σ} (as : List α) (hs : init s)
    (h : exec step s as = some t) : Reachable step init t :=
  ⟨s, as, hs, h⟩

theorem Reachable.init {init : σ → Prop} {s : σ} (hs : init s) : Reachable step init s :=
  reachable_of_exec [] hs rfl

/-- Reachability is closed under one more enabled step. -/
theorem Reachable.next {init : σ → Prop} {s t : σ} {a : α} (hs : Reachable step init s)
    (h : step s a = some t) : Reachable step init t := by
  obtain ⟨s₀, as, h0, hrun⟩ := hs
  refine ⟨s₀, as ++ [a], h0, ?_⟩
  rw [exec_snoc, hrun, Option.bind_some]
  exact h

/-- Reachability is closed under a further run. -/
theorem Reachable.exec {init : σ → Prop} {s t : σ} (as : List α) (hs : Reachable step init s)
    (h : Run.exec step s as = some t) : Reachable step init t := by
  obtain ⟨s₀, bs, h0, hrun⟩ := hs
  refine ⟨s₀, bs ++ as, h0, ?_⟩
  rw [exec_append, hrun, Option.bind_some]
  exact h

/-- The states an embedded system reaches are, by their images, states the other one reaches. -/
theorem Reachable.map {τ β : Type*} {step' : τ → β → Option τ} {init : σ → Prop}
    {init' : τ → Prop} (f : σ → τ) (g : α → β) (h0 : ∀ s, init s → init' (f s))
    (hstep : ∀ s a t, step s a = some t → step' (f s) (g a) = some (f t)) {t : σ}
    (ht : Reachable step init t) : Reachable step' init' (f t) := by
  obtain ⟨s, as, hs, hrun⟩ := ht
  exact ⟨f s, as.map g, h0 s hs, exec_map f g hstep as s t hrun⟩

/-- A run whose end state has a computed observation `b` witnesses a reachable state with it. -/
theorem exists_reachable_of_exec_map {β : Type*} {init : σ → Prop} {s : σ} (as : List α)
    (hs : init s) {f : σ → β} {b : β} (h : (Run.exec step s as).map f = some b) :
    ∃ t, Reachable step init t ∧ f t = b := by
  cases ht : Run.exec step s as with
  | none => rw [ht] at h; cases h
  | some t =>
    rw [ht, Option.map_some, Option.some.injEq] at h
    exact ⟨t, reachable_of_exec as hs ht, h⟩

/-! ### Refinement by a function of states, and logged runs -/

/-- **The refinement rule for a function of states**: where `step'` on the image of a state that
satisfies an invariant `inv` of `step` does what `step` does followed by `f`, the runs of `step'`
from an image are the images of the runs of `step`. -/
theorem exec_comm {τ : Type*} {step' : τ → α → Option τ} (f : σ → τ) (inv : σ → Prop)
    (hinv : ∀ s a t, inv s → step s a = some t → inv t)
    (hcomm : ∀ s a, inv s → step' (f s) a = (step s a).map f) :
    ∀ (as : List α) (s : σ), inv s → exec step' (f s) as = (exec step s as).map f := by
  intro as
  induction as with
  | nil =>
    intro s _
    rfl
  | cons a as ih =>
    intro s hs
    rw [exec_cons, exec_cons, hcomm s a hs]
    cases ht : step s a with
    | none => rfl
    | some t =>
      rw [Option.map_some, Option.bind_some, Option.bind_some]
      exact ih t (hinv s a t hs ht)

/-- The states `step'` reaches from images of initial states are images of reachable states. -/
theorem Reachable.of_comm {τ : Type*} {step' : τ → α → Option τ} {init : σ → Prop}
    {init' : τ → Prop} (f : σ → τ) (inv : σ → Prop) (h0 : ∀ s, init s → inv s)
    (hinv : ∀ s a t, inv s → step s a = some t → inv t)
    (hcomm : ∀ s a, inv s → step' (f s) a = (step s a).map f)
    (hinit : ∀ u, init' u → ∃ s, init s ∧ u = f s) {u : τ} (hu : Reachable step' init' u) :
    ∃ s, Reachable step init s ∧ u = f s := by
  obtain ⟨u₀, as, hu₀, hrun⟩ := hu
  obtain ⟨s₀, hs₀, rfl⟩ := hinit u₀ hu₀
  rw [exec_comm f inv hinv hcomm as s₀ (h0 s₀ hs₀)] at hrun
  obtain ⟨s, hs, rfl⟩ := Option.map_eq_some_iff.mp hrun
  exact ⟨s, reachable_of_exec as hs₀ hs, rfl⟩

variable (step) in
/-- `step`, with a log of what `obs` shows of each step taken. -/
def logged {β : Type*} (obs : σ → α → List β) (st : σ × List β) (a : α) : Option (σ × List β) :=
  (step st.1 a).map fun t => (t, st.2 ++ obs st.1 a)

theorem logged_eq_some {β : Type*} {obs : σ → α → List β} {st st' : σ × List β} {a : α}
    (h : logged step obs st a = some st') :
    step st.1 a = some st'.1 ∧ st'.2 = st.2 ++ obs st.1 a := by
  obtain ⟨t, ht, rfl⟩ := Option.map_eq_some_iff.mp h
  exact ⟨ht, rfl⟩

/-- Logged systems refine as the systems do, where the observations agree on images. -/
theorem logged_comm {τ β : Type*} {step' : τ → α → Option τ} {obs : σ → α → List β}
    {obs' : τ → α → List β} (f : σ → τ) (inv : σ → Prop)
    (hcomm : ∀ s a, inv s → step' (f s) a = (step s a).map f)
    (hobs : ∀ s a, inv s → obs' (f s) a = obs s a) (st : σ × List β) (a : α) (hst : inv st.1) :
    logged step' obs' (Prod.map f id st) a = (logged step obs st a).map (Prod.map f id) := by
  obtain ⟨s, evs⟩ := st
  simp only [logged, Prod.map_fst, Prod.map_snd, id_eq, hcomm s a hst, hobs s a hst,
    Option.map_map]
  rfl

/-! ### Computations in `Except` -/

section Except

universe u

variable {ε : Type*} {β γ : Type u}

@[simp] theorem except_ok_bind (a : β) (f : β → Except ε γ) : (Except.ok a >>= f) = f a := rfl

@[simp] theorem except_error_bind (e : ε) (f : β → Except ε γ) :
    (Except.error e >>= f) = .error e := rfl

/-- **Bind inversion**: a successful sequence is a successful first part and a successful rest. -/
theorem except_bind_eq_ok {x : Except ε β} {f : β → Except ε γ} {c : γ} :
    (x >>= f) = .ok c ↔ ∃ b, x = .ok b ∧ f b = .ok c := by
  cases x with
  | error e => simp only [except_error_bind, reduceCtorEq, false_and, exists_false]
  | ok b => simp only [except_ok_bind, Except.ok.injEq, exists_eq_left']

/-- A failed sequence failed in its first part or in the rest. -/
theorem except_bind_eq_error {x : Except ε β} {f : β → Except ε γ} {e : ε} :
    (x >>= f) = .error e ↔ x = .error e ∨ ∃ b, x = .ok b ∧ f b = .error e := by
  cases x with
  | error e' => simp only [except_error_bind, Except.error.injEq, reduceCtorEq, false_and,
      exists_false, or_false]
  | ok b => simp only [except_ok_bind, reduceCtorEq, Except.ok.injEq, exists_eq_left', false_or]

theorem except_map_eq_ok {x : Except ε β} {f : β → γ} {c : γ} :
    x.map f = .ok c ↔ ∃ b, x = .ok b ∧ f b = c := by
  cases x with
  | error e => simp only [Except.map, reduceCtorEq, false_and, exists_false]
  | ok b => simp only [Except.map, Except.ok.injEq, exists_eq_left']

theorem except_map_eq_error {x : Except ε β} {f : β → γ} {e : ε} :
    x.map f = .error e ↔ x = .error e := by
  cases x with
  | error e' => simp only [Except.map, Except.error.injEq]
  | ok b => simp only [Except.map, reduceCtorEq]

theorem except_toOption_eq_some {x : Except ε β} {b : β} : x.toOption = some b ↔ x = .ok b := by
  cases x with
  | error e => simp only [Except.toOption, reduceCtorEq]
  | ok b' => simp only [Except.toOption, Option.some.injEq, Except.ok.injEq]

/-- A `mapM` whose every call succeeds returns the mapped list. -/
theorem except_mapM_eq_ok {f : β → Except ε γ} {g : β → γ} (l : List β)
    (h : ∀ b ∈ l, f b = .ok (g b)) : l.mapM f = .ok (l.map g) := by
  induction l with
  | nil => rfl
  | cons b l ih =>
    rw [List.mapM_cons, h b List.mem_cons_self, except_ok_bind,
      ih fun b' hb' => h b' (List.mem_cons_of_mem b hb')]
    rfl

/-- The error a computation stops with, if it fails: a decidable observation of a failure. -/
def errorOf : Except ε β → Option ε
  | .error e => some e
  | .ok _ => none

theorem errorOf_eq_some {x : Except ε β} {e : ε} : errorOf x = some e ↔ x = .error e := by
  cases x with
  | error e' => simp only [errorOf, Option.some.injEq, Except.error.injEq]
  | ok b => simp only [errorOf, reduceCtorEq]

end Except

/-! ### Loops in `Except` -/

/-- **A loop's projection follows a pure fold.**  If every successful iteration keeps `P` and
moves the projection `g` of the state as `v` does, a successful loop keeps `P` and moves `g` as
`List.foldl v` does. -/
theorem foldlM_except_proj {ε β τ : Type*} (f : σ → β → Except ε σ) (P : σ → Prop) (g : σ → τ)
    (v : τ → β → τ) (h : ∀ s x s', P s → f s x = .ok s' → P s' ∧ g s' = v (g s) x) :
    ∀ (xs : List β) (s t : σ), P s → xs.foldlM f s = .ok t → P t ∧ g t = xs.foldl v (g s) := by
  intro xs
  induction xs with
  | nil =>
    intro s t hs hrun
    cases hrun
    exact ⟨hs, rfl⟩
  | cons x xs ih =>
    intro s t hs hrun
    rw [List.foldlM_cons] at hrun
    cases hx : f s x with
    | error e => rw [hx] at hrun; cases hrun
    | ok u =>
      rw [hx] at hrun
      obtain ⟨hu, hg⟩ := h s x u hs hx
      obtain ⟨ht, hgt⟩ := ih u t hu hrun
      rw [hgt, hg, List.foldl_cons]
      exact ⟨ht, rfl⟩

end Xv6Lab.Run
