import Mathlib.Data.List.Nodup

/-!
# Walks along a successor function

A linked structure read through its `next` pointers: `Path next a xs b` says that from `a` the
pointers run through the nodes `xs` and reach `b`, and `IsCycle next ns` that they run round the
nodes `ns` and back to the first.  The loop that follows the pointers until a node passes a test
is `walkUntil`, with fuel for its rounds.

* `Path.append` — a path through a node is a path to it and a path from it;
* `walkUntil_path` — walking along a path whose nodes fail the test ends where the path does;
* `IsCycle.path` — on a cycle without repeated nodes, any node reaches any other by a path
  shorter than the cycle, through nodes of the cycle, without passing the target;
* `IsCycle.walkUntil_eq` — from any node of such a cycle, a walk whose test only one node of
  the cycle passes stops there, given a round for each node.
-/

namespace Xv6Lab.Walk

variable {α : Type*} {next : α → α}

/-- From `a` the pointers run through the nodes `xs` and reach `b`. -/
def Path (next : α → α) (a : α) : List α → α → Prop
  | [], b => next a = b
  | x :: xs, b => next a = x ∧ Path next x xs b

@[simp] theorem path_nil {a b : α} : Path next a [] b ↔ next a = b := Iff.rfl

@[simp] theorem path_cons {a x b : α} {xs : List α} :
    Path next a (x :: xs) b ↔ next a = x ∧ Path next x xs b := Iff.rfl

/-- A path through `b` is a path to `b` and a path from it. -/
theorem Path.append {a b c : α} {xs : List α} (ys : List α) :
    Path next a (xs ++ b :: ys) c ↔ Path next a xs b ∧ Path next b ys c := by
  induction xs generalizing a with
  | nil => rfl
  | cons x xs ih => simp [ih, and_assoc]

/-- The loop `while(!stop(x)) x = next(x);`, with `fuel` rounds: where it stops. -/
def walkUntil (next : α → α) (stop : α → Bool) : ℕ → α → Option α
  | 0, _ => none
  | fuel + 1, x => if stop x then some x else walkUntil next stop fuel (next x)

variable {stop : α → Bool}

theorem walkUntil_stop {x : α} (h : stop x = true) (fuel : ℕ) :
    walkUntil next stop (fuel + 1) x = some x := by
  rw [walkUntil, if_pos h]

/-- **A walk along a path** whose nodes fail the test ends where the path does. -/
theorem walkUntil_path {x y : α} {ys : List α} (h : Path next x ys y)
    (hskip : ∀ z ∈ x :: ys, stop z = false) (fuel : ℕ) :
    walkUntil next stop (fuel + ys.length + 1) x = walkUntil next stop fuel y := by
  induction ys generalizing x with
  | nil =>
    rw [walkUntil, if_neg (by simp [hskip x (by simp)])]
    exact congrArg _ h
  | cons z ys ih =>
    obtain ⟨hxz, hzy⟩ := path_cons.mp h
    rw [show fuel + (z :: ys).length + 1 = fuel + ys.length + 1 + 1 by simp; omega, walkUntil,
      if_neg (by simp [hskip x (by simp)]), hxz]
    exact ih hzy fun w hw => hskip w (List.mem_cons_of_mem _ hw)

/-- `ns` is a cycle of `next`: each node's `next` is the node after it, the last node's the
first. -/
def IsCycle (next : α → α) (ns : List α) : Prop := ∃ a as, ns = a :: as ∧ Path next a as a

/-- **On a cycle, any node reaches any other** by a path shorter than the cycle, through nodes
of the cycle, without passing the target on the way. -/
theorem IsCycle.path {ns : List α} (hc : IsCycle next ns) (hnd : ns.Nodup) {x y : α}
    (hx : x ∈ ns) (hy : y ∈ ns) (hxy : x ≠ y) :
    ∃ ys, Path next x ys y ∧ ys.length + 2 ≤ ns.length ∧ y ∉ x :: ys ∧ ∀ z ∈ ys, z ∈ ns := by
  obtain ⟨a, as, rfl, hpath⟩ := hc
  -- cut the cycle at `x`: `a :: as = A ++ x :: B`, and the path from `x` runs through `B` to `a`
  obtain ⟨A, B, hAB⟩ := List.append_of_mem hx
  have hfrom : Path next x B a := by
    cases A with
    | nil =>
      obtain ⟨rfl, rfl⟩ := List.cons.inj hAB
      exact hpath
    | cons a' A =>
      obtain ⟨rfl, rfl⟩ := List.cons.inj hAB
      exact ((Path.append B).mp hpath).2
  rw [hAB] at hnd hy ⊢
  simp only [List.nodup_cons, List.nodup_append, List.mem_cons] at hnd
  rcases List.mem_append.mp hy with hyA | hyB
  · -- `y` comes before `x`: round the end of the cycle, back through `a`
    cases A with
    | nil => cases hyA
    | cons a' A =>
      obtain ⟨rfl, rfl⟩ := List.cons.inj hAB
      have hpre : Path next a A x := ((Path.append B).mp hpath).1
      rcases List.mem_cons.mp hyA with rfl | hyA
      · refine ⟨B, hfrom, by simp, ?_, fun z hz => by simp [hz]⟩
        simp only [List.mem_cons, not_or]
        grind
      · obtain ⟨C, D, rfl⟩ := List.append_of_mem hyA
        refine ⟨B ++ a :: C, (Path.append C).mpr ⟨hfrom, ((Path.append D).mp hpre).1⟩,
          by simp; omega, ?_, fun z hz => ?_⟩
        · simp only [List.mem_cons, List.mem_append, not_or]
          grind
        · simp only [List.mem_append, List.mem_cons] at hz ⊢
          grind
  · -- `y` comes after `x`: along `B`
    rcases List.mem_cons.mp hyB with rfl | hyB
    · exact absurd rfl hxy
    obtain ⟨C, D, rfl⟩ := List.append_of_mem hyB
    refine ⟨C, ((Path.append D).mp hfrom).1, by simp; omega, ?_, fun z hz => by simp [hz]⟩
    simp only [List.mem_cons, not_or]
    grind

/-- **A walk round a cycle** whose test only `y` passes among the cycle's nodes stops at `y`,
from any node of the cycle, given a round for each node. -/
theorem IsCycle.walkUntil_eq {ns : List α} (hc : IsCycle next ns) (hnd : ns.Nodup) {x y : α}
    (hx : x ∈ ns) (hy : y ∈ ns) (hstop : stop y = true) (honly : ∀ z ∈ ns, stop z = true → z = y)
    {fuel : ℕ} (hfuel : ns.length ≤ fuel) :
    walkUntil next stop fuel x = some y := by
  obtain ⟨k, rfl⟩ : ∃ k, fuel = k + 1 := ⟨fuel - 1, by
    obtain ⟨a, as, rfl, -⟩ := hc
    simp at hfuel
    omega⟩
  by_cases hxy : x = y
  · rw [hxy, walkUntil_stop hstop]
  obtain ⟨ys, hpath, hlen, hnot, hin⟩ := hc.path hnd hx hy hxy
  -- every node on the way is a node of the cycle other than `y`, so it fails the test
  have hskip : ∀ z ∈ x :: ys, stop z = false := by
    intro z hz
    cases hs : stop z
    · rfl
    · have hzy := honly z (by rcases List.mem_cons.mp hz with rfl | hz; exacts [hx, hin z hz]) hs
      exact absurd (hzy ▸ hz) hnot
  rw [show k + 1 = (k - ys.length - 1 + 1) + ys.length + 1 by omega, walkUntil_path hpath hskip,
    walkUntil_stop hstop]

end Xv6Lab.Walk
