import Mathlib.Logic.Function.Basic
import Mathlib.Data.List.Basic
import Mathlib.Data.List.Nodup

/-!
# Circular doubly linked lists through a head node

A list kept as `next`/`prev` pointers in a ring that starts and ends at a head node, the head
written `none` and an element `a` written `some a`.  `ofList l` is the ring whose elements,
from the head's `next` on, are `l`; the pointer surgery C code does on such a ring is here
with the list it leaves:

* `nextIn` — the ring's `next` pointers, computed from the list, and its laws
  (`nextIn_append_of_mem`, `nextIn_append_of_not_mem`, `nextIn_eq_none_iff`); the `prev`
  pointers are the `next` pointers of the reversed list;
* `Links.unlink`, `Links.pushFront` — `b->next->prev = b->prev; b->prev->next = b->next;` and
  the four assignments that put `b` after the head;
* `moveFront_ofList` — unlinking an element and putting it after the head moves it to the
  front of the list;
* `Agrees.foldl_pushFront`, `Agrees.eq_ofList` — putting elements after the head one by one
  builds the ring of the list, whatever the new elements' pointers held;
* `walkFind_ofList` — following `next` from the head's `next` to the first element that passes a
  test finds what `List.find?` finds, and `walkFind_spec` — what it finds passes the test.
-/

namespace LinkedRing

open Function

variable {α : Type*} [DecidableEq α]

/-- The `next` pointer of each node of the ring `head, l₀, l₁, …, head`. -/
def nextIn : List α → Option α → Option α
  | l, none => l.head?
  | [], some _ => none
  | a :: l, some y => if y = a then l.head? else nextIn l (some y)

@[simp] theorem nextIn_none (l : List α) : nextIn l none = l.head? := by
  cases l <;> rfl

@[simp] theorem nextIn_nil (y : α) : nextIn [] (some y) = none := rfl

@[simp] theorem nextIn_cons (a y : α) (l : List α) :
    nextIn (a :: l) (some y) = if y = a then l.head? else nextIn l (some y) := rfl

theorem nextIn_of_not_mem {l : List α} {y : α} (h : y ∉ l) : nextIn l (some y) = none := by
  induction l with
  | nil => rfl
  | cons a l ih =>
    rw [List.mem_cons, not_or] at h
    rw [nextIn_cons, if_neg h.1, ih h.2]

/-- Inside the first part, a node's successor is its successor there, or the second part's
first element after the first part's last. -/
theorem nextIn_append_of_mem {l₁ : List α} (l₂ : List α) {y : α} (h : y ∈ l₁) :
    nextIn (l₁ ++ l₂) (some y) = (nextIn l₁ (some y)).or l₂.head? := by
  induction l₁ with
  | nil => cases h
  | cons a l₁ ih =>
    rw [List.cons_append, nextIn_cons, nextIn_cons]
    by_cases hy : y = a
    · rw [if_pos hy, if_pos hy, List.head?_append]
    · rw [if_neg hy, if_neg hy]
      exact ih ((List.mem_cons.mp h).resolve_left hy)

theorem nextIn_append_of_not_mem {l₁ : List α} (l₂ : List α) {y : α} (h : y ∉ l₁) :
    nextIn (l₁ ++ l₂) (some y) = nextIn l₂ (some y) := by
  induction l₁ with
  | nil => rfl
  | cons a l₁ ih =>
    rw [List.mem_cons, not_or] at h
    rw [List.cons_append, nextIn_cons, if_neg h.1, ih h.2]

/-- In a list without repeats, only the last element points back to the head. -/
theorem nextIn_eq_none_iff {l : List α} (hnd : l.Nodup) {y : α} (hy : y ∈ l) :
    nextIn l (some y) = none ↔ l.getLast? = some y := by
  induction l with
  | nil => cases hy
  | cons a l ih =>
    rw [List.nodup_cons] at hnd
    rw [nextIn_cons]
    by_cases hya : y = a
    · subst hya
      rw [if_pos rfl, List.head?_eq_none_iff]
      cases l with
      | nil => simp
      | cons c l =>
        rw [List.getLast?_cons_cons, List.getLast?_eq_some_getLast (List.cons_ne_nil c l)]
        simp only [reduceCtorEq, false_iff, Option.some.injEq]
        intro h
        exact hnd.1 (h ▸ List.getLast_mem _)
    · have hl : y ∈ l := (List.mem_cons.mp hy).resolve_left hya
      rw [if_neg hya, ih hnd.2 hl]
      cases l with
      | nil => cases hl
      | cons c l => rw [List.getLast?_cons_cons]

/-- An element other than the last points to an element, which no fallback replaces. -/
theorem nextIn_or_of_ne_getLast {l : List α} (hnd : l.Nodup) {y : α} (hy : y ∈ l)
    (hlast : l.getLast? ≠ some y) (o : Option α) : (nextIn l (some y)).or o = nextIn l (some y) :=
  Option.or_of_isSome (Option.isSome_iff_ne_none.mpr fun h => hlast ((nextIn_eq_none_iff hnd hy).mp h))

/-- In the reversed list followed by `b`, the list's first element points to `b`. -/
theorem nextIn_reverse_append_head {m : List α} (hm : m.Nodup) (b : α) :
    nextIn (m.reverse ++ [b]) m.head? = some b := by
  cases m with
  | nil => rfl
  | cons h t =>
    have hmem : h ∈ (h :: t).reverse := by simp
    rw [List.head?_cons, nextIn_append_of_mem _ hmem,
      (nextIn_eq_none_iff (List.nodup_reverse.mpr hm) hmem).mpr (by simp)]
    rfl

/-! ### Pointer fields and their surgery -/

/-- The `next` and `prev` fields of every node. -/
structure Links (α : Type*) where
  next : Option α → Option α
  prev : Option α → Option α

/-- The ring whose elements, from the head's `next` on, are `l`. -/
def ofList (l : List α) : Links α := ⟨nextIn l, nextIn l.reverse⟩

namespace Links

/-- `x->next = y`. -/
def setNext (r : Links α) (x y : Option α) : Links α := { r with next := update r.next x y }

/-- `x->prev = y`. -/
def setPrev (r : Links α) (x y : Option α) : Links α := { r with prev := update r.prev x y }

/-- `b->next->prev = b->prev; b->prev->next = b->next;` -/
def unlink (r : Links α) (b : α) : Links α :=
  let r := r.setPrev (r.next (some b)) (r.prev (some b))
  r.setNext (r.prev (some b)) (r.next (some b))

/-- `b->next = head.next; b->prev = &head; head.next->prev = b; head.next = b;` -/
def pushFront (r : Links α) (b : α) : Links α :=
  let r := r.setNext (some b) (r.next none)
  let r := r.setPrev (some b) none
  let r := r.setPrev (r.next none) (some b)
  r.setNext none (some b)

/-- What `pushFront` leaves, in terms of the pointers before. -/
theorem pushFront_eq (r : Links α) (b : α) :
    r.pushFront b =
      ⟨update (update r.next (some b) (r.next none)) none (some b),
        update (update r.prev (some b) none) (r.next none) (some b)⟩ := by
  simp [pushFront, setNext, setPrev, update_of_ne, show (none : Option α) ≠ some b from nofun]

/-- `unlink` then `pushFront`, as `brelse` does. -/
def moveFront (r : Links α) (b : α) : Links α := (r.unlink b).pushFront b

/-- What `moveFront` leaves, in terms of the pointers before: the node before `b` points past
it, and `b` goes between the head and the head's old successor. -/
theorem moveFront_eq (r : Links α) (b : α) :
    r.moveFront b =
      let H := update r.next (r.prev (some b)) (r.next (some b)) none
      ⟨update (update (update r.next (r.prev (some b)) (r.next (some b))) (some b) H) none (some b),
        update (update (update r.prev (r.next (some b)) (r.prev (some b))) (some b) none) H
          (some b)⟩ := by
  have hP : update r.prev (r.next (some b)) (r.prev (some b)) (some b) = r.prev (some b) := by
    rw [update_apply, ite_self]
  simp [moveFront, unlink, pushFront, setNext, setPrev, hP, update_of_ne,
    show (none : Option α) ≠ some b from nofun]

end Links

section Middle

variable {l₁ l₂ : List α} {b : α}

omit [DecidableEq α] in
/-- What a list without repeats says about an element and the parts around it. -/
theorem middle_facts (hnd : (l₁ ++ b :: l₂).Nodup) :
    b ∉ l₁ ∧ b ∉ l₂ ∧ l₁.Nodup ∧ l₂.Nodup ∧ ∀ y ∈ l₁, y ∉ l₂ := by
  obtain ⟨hnd₁, hnd₂, hdis⟩ := List.nodup_append.mp hnd
  rw [List.nodup_cons] at hnd₂
  exact ⟨fun h => hdis b h b List.mem_cons_self rfl, hnd₂.1, hnd₁, hnd₂.2,
    fun y hy h => hdis y hy y (List.mem_cons_of_mem _ h) rfl⟩

theorem nextIn_middle_self (hb : b ∉ l₁) : nextIn (l₁ ++ b :: l₂) (some b) = l₂.head? := by
  rw [nextIn_append_of_not_mem _ hb, nextIn_cons, if_pos rfl]

theorem prevIn_middle_self (hb : b ∉ l₂) :
    nextIn (l₁ ++ b :: l₂).reverse (some b) = l₁.getLast? := by
  rw [List.reverse_append, List.reverse_cons, List.append_assoc, List.singleton_append,
    nextIn_append_of_not_mem _ (by simpa using hb), nextIn_cons, if_pos rfl, List.head?_reverse]

/-- After `b` is unlinked, the head points to the first element of the rest. -/
theorem head_after_unlink :
    update (nextIn (l₁ ++ b :: l₂)) l₁.getLast? l₂.head? none = (l₁ ++ l₂).head? := by
  cases l₁ with
  | nil => simp
  | cons c l₁ =>
    rw [update_of_ne (by simp [List.getLast?_eq_some_getLast])]
    simp

theorem moveFront_next_middle (hnd : (l₁ ++ b :: l₂).Nodup) :
    ((ofList (l₁ ++ b :: l₂)).moveFront b).next = nextIn (b :: (l₁ ++ l₂)) := by
  obtain ⟨hb₁, -, hnd₁, -, -⟩ := middle_facts hnd
  rw [Links.moveFront_eq]
  simp only [ofList, nextIn_middle_self hb₁, prevIn_middle_self (middle_facts hnd).2.1,
    head_after_unlink]
  funext x
  rcases x with _ | y
  · simp
  rw [update_of_ne (by simp), nextIn_cons]
  by_cases hyb : y = b
  · rw [hyb, update_self, if_pos rfl]
  rw [update_of_ne (by simpa using hyb), if_neg hyb, update_apply]
  by_cases hy₁ : y ∈ l₁
  · rw [nextIn_append_of_mem _ hy₁, nextIn_append_of_mem _ hy₁]
    split_ifs with hlast
    · rw [(nextIn_eq_none_iff hnd₁ hy₁).mpr hlast.symm]
      rfl
    · rw [nextIn_or_of_ne_getLast hnd₁ hy₁ (Ne.symm hlast),
        nextIn_or_of_ne_getLast hnd₁ hy₁ (Ne.symm hlast)]
  · have hlast : some y ≠ l₁.getLast? := fun h => hy₁ (List.mem_of_getLast? h.symm)
    rw [if_neg hlast, nextIn_append_of_not_mem _ hy₁, nextIn_append_of_not_mem _ hy₁, nextIn_cons,
      if_neg hyb]

theorem moveFront_prev_middle (hnd : (l₁ ++ b :: l₂).Nodup) :
    ((ofList (l₁ ++ b :: l₂)).moveFront b).prev = nextIn (b :: (l₁ ++ l₂)).reverse := by
  obtain ⟨hb₁, hb₂, hnd₁, hnd₂, hdis⟩ := middle_facts hnd
  have hm : (l₁ ++ l₂).Nodup := List.nodup_append.mpr ⟨hnd₁, hnd₂, fun y hy z hz hyz => hdis y hy (hyz ▸ hz)⟩
  have hbm : b ∉ (l₁ ++ l₂).reverse := by simp [hb₁, hb₂]
  rw [Links.moveFront_eq]
  simp only [ofList, nextIn_middle_self hb₁, prevIn_middle_self hb₂, head_after_unlink,
    List.reverse_cons]
  funext x
  rw [update_apply]
  split_ifs with hxH
  · rw [hxH, nextIn_reverse_append_head hm]
  rw [update_apply]
  split_ifs with hxb
  · rw [hxb, nextIn_append_of_not_mem _ hbm, nextIn_cons, if_pos rfl]
    rfl
  rw [update_apply]
  split_ifs with hxN
  · -- `x` is the node after `b`, so `l₁` is not empty and `x` now points back to its last
    have hl₁ : l₁ ≠ [] := by
      rintro rfl
      exact hxH (by rw [hxN]; rfl)
    have hlast : l₁.getLast?.or (some b) = l₁.getLast? :=
      Option.or_of_isSome (by simp [List.getLast?_eq_some_getLast hl₁])
    subst hxN
    cases l₂ with
    | nil => simp [List.head?_reverse, hlast]
    | cons h t =>
      have hh : h ∉ t.reverse := by simpa using (List.nodup_cons.mp hnd₂).1
      rw [List.head?_cons, List.reverse_append, List.reverse_cons, List.append_assoc,
        List.append_assoc, nextIn_append_of_not_mem _ hh]
      simp [List.head?_reverse, hlast]
  rw [List.reverse_append, List.reverse_cons, List.append_assoc, List.singleton_append,
    List.reverse_append, List.append_assoc]
  rcases x with _ | y
  · -- the head: `l₂` is not empty, and its last element stays the head's `prev`
    have hl₂ : l₂ ≠ [] := by
      rintro rfl
      exact hxN rfl
    have hsome : (l₂.reverse.head?).isSome := by simp [List.head?_reverse, List.getLast?_eq_some_getLast hl₂]
    simp only [nextIn_none, List.head?_append, Option.or_of_isSome hsome]
  have hyb : y ≠ b := fun h => hxb (h ▸ rfl)
  by_cases hy₂ : y ∈ l₂
  · have hy₂' : y ∈ l₂.reverse := List.mem_reverse.mpr hy₂
    have hlast : l₂.reverse.getLast? ≠ some y := by rw [List.getLast?_reverse]; exact Ne.symm hxN
    rw [nextIn_append_of_mem _ hy₂', nextIn_append_of_mem _ hy₂',
      nextIn_or_of_ne_getLast (List.nodup_reverse.mpr hnd₂) hy₂' hlast,
      nextIn_or_of_ne_getLast (List.nodup_reverse.mpr hnd₂) hy₂' hlast]
  have hy₂' : y ∉ l₂.reverse := by simpa using hy₂
  rw [nextIn_append_of_not_mem _ hy₂', nextIn_append_of_not_mem _ hy₂', nextIn_cons, if_neg hyb]
  by_cases hy₁ : y ∈ l₁
  · have hy₁' : y ∈ l₁.reverse := List.mem_reverse.mpr hy₁
    have hl₁ : l₁ ≠ [] := List.ne_nil_of_mem hy₁
    have hlast : l₁.reverse.getLast? ≠ some y := by
      rw [List.getLast?_reverse]
      intro h
      apply hxH
      rw [List.head?_append, h]
      rfl
    rw [nextIn_append_of_mem _ hy₁', nextIn_or_of_ne_getLast (List.nodup_reverse.mpr hnd₁) hy₁' hlast]
  · have hy₁' : y ∉ l₁.reverse := by simpa using hy₁
    rw [nextIn_of_not_mem hy₁', nextIn_append_of_not_mem _ hy₁', nextIn_cons, if_neg hyb]
    rfl

/-- **Moving an element to the front**: `unlink` and `pushFront` on the ring of a list without
repeats give the ring of the list with the element moved to its front. -/
theorem moveFront_ofList {l : List α} (hnd : l.Nodup) {b : α} (hb : b ∈ l) :
    (ofList l).moveFront b = ofList (b :: l.erase b) := by
  obtain ⟨l₁, l₂, rfl⟩ := List.append_of_mem hb
  have herase : (l₁ ++ b :: l₂).erase b = l₁ ++ l₂ := by
    rw [List.erase_append_right _ (middle_facts hnd).1, List.erase_cons_head]
  rw [herase]
  exact congrArg₂ Links.mk (moveFront_next_middle hnd) (moveFront_prev_middle hnd)

end Middle

/-! ### Building a ring, and walking it -/

/-- `r` has the pointers of the ring of `l` at the head and at the elements of `l`. -/
def Agrees (r : Links α) (l : List α) : Prop :=
  ∀ x, (x = none ∨ ∃ a ∈ l, x = some a) → r.next x = nextIn l x ∧ r.prev x = nextIn l.reverse x

/-- Putting a new element after the head of a ring gives the ring of the list with the element in
front, whatever the element's own pointers held before. -/
theorem Agrees.pushFront {r : Links α} {l : List α} (h : Agrees r l) (hnd : l.Nodup) {b : α}
    (hb : b ∉ l) : Agrees (r.pushFront b) (b :: l) := by
  have hH : r.next none = l.head? := (h none (Or.inl rfl)).1.trans (nextIn_none l)
  intro x hx
  rw [Links.pushFront_eq, List.reverse_cons]
  dsimp only
  refine ⟨?next, ?prev⟩
  case next =>
    rcases x with _ | y
    · simp
    rw [update_of_ne (by simp), nextIn_cons]
    by_cases hyb : y = b
    · rw [hyb, update_self, if_pos rfl, hH]
    · rw [update_of_ne (by simpa using hyb), if_neg hyb]
      obtain ⟨a, ha, hya⟩ := hx.resolve_left nofun
      have hal : a ∈ l := (List.mem_cons.mp ha).resolve_left fun e => hyb (by
        rw [← e]
        exact Option.some.inj hya)
      exact (h (some y) (Or.inr ⟨a, hal, hya⟩)).1
  case prev =>
    rw [update_apply]
    split_ifs with hxH
    · rw [hxH, hH, nextIn_reverse_append_head hnd]
    rw [update_apply]
    split_ifs with hxb
    · rw [hxb, nextIn_append_of_not_mem _ (by simpa using hb), nextIn_cons, if_pos rfl]
      rfl
    have hx' : x = none ∨ ∃ a ∈ l, x = some a := by
      rcases hx with hx | ⟨a, ha, rfl⟩
      · exact Or.inl hx
      · rcases List.mem_cons.mp ha with rfl | ha
        · exact absurd rfl hxb
        · exact Or.inr ⟨a, ha, rfl⟩
    rw [(h x hx').2]
    rcases hx' with rfl | ⟨a, ha, rfl⟩
    · -- the head: `l` is not empty, since its first element is not the head
      have hl : l ≠ [] := by
        rintro rfl
        exact hxH hH.symm
      have hsome : (l.reverse.head?).isSome := by
        simp [List.head?_reverse, List.getLast?_eq_some_getLast hl]
      simp only [nextIn_none, List.head?_append, Option.or_of_isSome hsome]
    · have ha' : a ∈ l.reverse := List.mem_reverse.mpr ha
      have hlast : l.reverse.getLast? ≠ some a := by
        rw [List.getLast?_reverse, ← hH]
        exact Ne.symm hxH
      rw [nextIn_append_of_mem _ ha', nextIn_or_of_ne_getLast (List.nodup_reverse.mpr hnd) ha' hlast]

/-- Putting the elements of a list after the head one by one, from a ring of `l`. -/
theorem Agrees.foldl_pushFront {r : Links α} {l : List α} (h : Agrees r l) {bs : List α}
    (hnd : (bs.reverse ++ l).Nodup) : Agrees (bs.foldl Links.pushFront r) (bs.reverse ++ l) := by
  induction bs generalizing r l with
  | nil => exact h
  | cons b bs ih =>
    rw [List.reverse_cons, List.append_assoc, List.singleton_append] at hnd ⊢
    obtain ⟨-, hb, -, hnd', -⟩ := middle_facts hnd
    exact ih (h.pushFront hnd' hb) hnd

/-- A ring that agrees with the ring of a list holding every element is that ring. -/
theorem Agrees.eq_ofList {r : Links α} {l : List α} (h : Agrees r l) (hall : ∀ a, a ∈ l) :
    r = ofList l := by
  have hx : ∀ x : Option α, x = none ∨ ∃ a ∈ l, x = some a := fun x => by
    rcases x with _ | a
    · exact Or.inl rfl
    · exact Or.inr ⟨a, hall a, rfl⟩
  cases r
  exact congrArg₂ Links.mk (funext fun x => (h x (hx x)).1) (funext fun x => (h x (hx x)).2)

/-- Following `next` until an element passes `p` or the walk is back at the head, at most `k`
elements. -/
def walkFind (next : Option α → Option α) (p : α → Bool) : ℕ → Option α → Option α
  | 0, _ => none
  | _ + 1, none => none
  | k + 1, some a => if p a then some a else walkFind next p k (next (some a))

omit [DecidableEq α] in
/-- What a walk finds passes the test. -/
theorem walkFind_spec {next : Option α → Option α} {p : α → Bool} {k : ℕ} {x : Option α} {b : α}
    (h : walkFind next p k x = some b) : p b = true := by
  induction k generalizing x with
  | zero => cases h
  | succ k ih =>
    rcases x with _ | a
    · cases h
    · rw [walkFind] at h
      split_ifs at h with ha
      · cases h
        exact ha
      · exact ih h

/-- **A walk of the ring** from the first element of `t`, a final part of the list, finds what
`List.find?` finds in `t`. -/
theorem walkFind_ofList {s t : List α} (hnd : (s ++ t).Nodup) (p : α → Bool) {k : ℕ}
    (hk : t.length ≤ k) : walkFind (nextIn (s ++ t)) p k t.head? = t.find? p := by
  induction t generalizing s k with
  | nil => cases k <;> rfl
  | cons a t ih =>
    obtain ⟨k, rfl⟩ : ∃ k', k = k' + 1 := ⟨k - 1, by simp at hk; omega⟩
    rw [List.head?_cons, walkFind, List.find?_cons, nextIn_middle_self (middle_facts hnd).1]
    have ih' := ih (s := s ++ [a]) (by simpa using hnd) (by simp at hk; omega)
    rw [List.append_assoc, List.singleton_append] at ih'
    cases p a <;> simp [ih']

end LinkedRing
