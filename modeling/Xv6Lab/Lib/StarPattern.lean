import Mathlib.Computability.Language

/-!
# Star patterns and their languages

The fragment of regular expressions that a Kernighan–Pike matcher reads: a sequence of items,
each an atom (a letter, or the wildcard that accepts any letter) taken once or starred.  Its
language is Mathlib's: the product of the items' languages, where a starred atom stands for the
Kleene star of the atom's language.

* `mem_kstar_atom` — a word is in the star of an atom's language when the atom accepts each of
  its letters;
* `mem_lang_one_cons` / `mem_lang_star_cons` — a word of `i :: is` is a word of `i` followed by
  a word of `is`;
* `Prefixed` / `Occurs` — a prefix of a text is in a language (the whole text when anchored at
  the back), and a subword is (starting at the front when anchored there), with the laws that
  a matcher's loops follow: `prefixed_one_cons`, `prefixed_star_cons`, `occurs_cons`.
-/

namespace Xv6Lab.StarPattern

variable {α : Type*}

/-- A letter, or the wildcard. -/
inductive Atom (α : Type*) where
  | lit (a : α)
  | any
  deriving DecidableEq, Repr

/-- An atom, once or starred. -/
inductive Item (α : Type*) where
  | one (a : Atom α)
  | star (a : Atom α)
  deriving DecidableEq, Repr

/-- The atom of an item. -/
def Item.atom : Item α → Atom α
  | .one a => a
  | .star a => a

/-- The letters an atom accepts. -/
def Atom.Accepts : Atom α → α → Prop
  | .lit a, x => x = a
  | .any, _ => True

/-- The words of one accepted letter. -/
def Atom.lang (a : Atom α) : Language α := {w | ∃ x, a.Accepts x ∧ w = [x]}

/-- An item's language: its atom's, or the Kleene star of it. -/
def Item.lang : Item α → Language α
  | .one a => a.lang
  | .star a => KStar.kstar a.lang

/-- The language of a sequence of items: the product of theirs. -/
def lang (items : List (Item α)) : Language α := (items.map Item.lang).prod

theorem mem_atom_lang {a : Atom α} {w : List α} : w ∈ a.lang ↔ ∃ x, a.Accepts x ∧ w = [x] :=
  Iff.rfl

/-- **A starred atom** accepts exactly the words all of whose letters it accepts. -/
theorem mem_kstar_atom {a : Atom α} {w : List α} :
    w ∈ KStar.kstar a.lang ↔ ∀ x ∈ w, a.Accepts x := by
  rw [Language.mem_kstar]
  constructor
  · rintro ⟨L, rfl, hL⟩ x hx
    obtain ⟨y, hy, hxy⟩ := List.mem_flatten.mp hx
    obtain ⟨x', hx', rfl⟩ := hL y hy
    rw [List.mem_singleton] at hxy
    rw [hxy]
    exact hx'
  · intro h
    -- one singleton word for each letter
    induction w with
    | nil => exact ⟨[], rfl, fun _ hy => absurd hy List.not_mem_nil⟩
    | cons x xs ih =>
      obtain ⟨L, hL, hLmem⟩ := ih fun y hy => h y (List.mem_cons_of_mem x hy)
      refine ⟨[x] :: L, by rw [List.flatten_cons, ← hL]; rfl, ?_⟩
      intro y hy
      rcases List.mem_cons.mp hy with rfl | hy
      · exact ⟨x, h x List.mem_cons_self, rfl⟩
      · exact hLmem y hy

theorem mem_lang_nil {w : List α} : w ∈ lang ([] : List (Item α)) ↔ w = [] :=
  Language.mem_one w

theorem mem_lang_cons {i : Item α} {is : List (Item α)} {w : List α} :
    w ∈ lang (i :: is) ↔ ∃ u ∈ i.lang, ∃ v ∈ lang is, u ++ v = w := by
  rw [lang, List.map_cons, List.prod_cons]
  exact Language.mem_mul

theorem mem_lang_one_cons {a : Atom α} {is : List (Item α)} {w : List α} :
    w ∈ lang (.one a :: is) ↔ ∃ x v, w = x :: v ∧ a.Accepts x ∧ v ∈ lang is := by
  rw [mem_lang_cons]
  constructor
  · rintro ⟨u, ⟨x, hx, rfl⟩, v, hv, rfl⟩
    exact ⟨x, v, rfl, hx, hv⟩
  · rintro ⟨x, v, rfl, hx, hv⟩
    exact ⟨[x], ⟨x, hx, rfl⟩, v, hv, rfl⟩

theorem mem_lang_star_cons {a : Atom α} {is : List (Item α)} {w : List α} :
    w ∈ lang (.star a :: is) ↔ ∃ u v, w = u ++ v ∧ (∀ x ∈ u, a.Accepts x) ∧ v ∈ lang is := by
  rw [mem_lang_cons]
  constructor
  · rintro ⟨u, hu, v, hv, rfl⟩
    exact ⟨u, v, rfl, mem_kstar_atom.mp hu, hv⟩
  · rintro ⟨u, v, rfl, hu, hv⟩
    exact ⟨u, mem_kstar_atom.mpr hu, v, hv, rfl⟩

/-! ### Searching a text -/

/-- A prefix of `text` is in `L`; the whole of it when anchored at the `back`. -/
def Prefixed (L : Language α) (back : Bool) (text : List α) : Prop :=
  ∃ v w, text = v ++ w ∧ v ∈ L ∧ (back = true → w = [])

/-- A subword of `text` is in `L`, starting at the start when anchored at the `front`, and ending
at the end when anchored at the `back`. -/
def Occurs (L : Language α) (front back : Bool) (text : List α) : Prop :=
  ∃ u rest, text = u ++ rest ∧ (front = true → u = []) ∧ Prefixed L back rest

theorem prefixed_nil_items (back : Bool) (text : List α) :
    Prefixed (lang ([] : List (Item α))) back text ↔ (back = true → text = []) := by
  constructor
  · rintro ⟨v, w, rfl, hv, hw⟩ hb
    rw [mem_lang_nil.mp hv, hw hb]
    rfl
  · intro h
    exact ⟨[], text, rfl, mem_lang_nil.mpr rfl, h⟩

theorem prefixed_one_cons {a : Atom α} {is : List (Item α)} {back : Bool} {text : List α} :
    Prefixed (lang (.one a :: is)) back text ↔
      ∃ x ts, text = x :: ts ∧ a.Accepts x ∧ Prefixed (lang is) back ts := by
  constructor
  · rintro ⟨v, w, rfl, hv, hw⟩
    obtain ⟨x, v', rfl, hx, hv'⟩ := mem_lang_one_cons.mp hv
    exact ⟨x, v' ++ w, rfl, hx, v', w, rfl, hv', hw⟩
  · rintro ⟨x, ts, rfl, hx, v, w, rfl, hv, hw⟩
    exact ⟨x :: v, w, rfl, mem_lang_one_cons.mpr ⟨x, v, rfl, hx, hv⟩, hw⟩

theorem prefixed_star_cons {a : Atom α} {is : List (Item α)} {back : Bool} {text : List α} :
    Prefixed (lang (.star a :: is)) back text ↔
      ∃ u rest, text = u ++ rest ∧ (∀ x ∈ u, a.Accepts x) ∧ Prefixed (lang is) back rest := by
  constructor
  · rintro ⟨v, w, rfl, hv, hw⟩
    obtain ⟨u, v', rfl, hu, hv'⟩ := mem_lang_star_cons.mp hv
    exact ⟨u, v' ++ w, List.append_assoc u v' w, hu, v', w, rfl, hv', hw⟩
  · rintro ⟨u, rest, rfl, hu, v, w, rfl, hv, hw⟩
    exact ⟨u ++ v, w, (List.append_assoc u v w).symm,
      mem_lang_star_cons.mpr ⟨u, v, rfl, hu, hv⟩, hw⟩

theorem occurs_front (L : Language α) (back : Bool) (text : List α) :
    Occurs L true back text ↔ Prefixed L back text := by
  constructor
  · rintro ⟨u, rest, rfl, hu, hp⟩
    rw [hu rfl]
    exact hp
  · intro hp
    exact ⟨[], text, rfl, fun _ => rfl, hp⟩

theorem occurs_nil (L : Language α) (back : Bool) :
    Occurs L false back [] ↔ Prefixed L back [] := by
  constructor
  · rintro ⟨u, rest, h, -, hp⟩
    rw [(List.append_eq_nil_iff.mp h.symm).2] at hp
    exact hp
  · intro hp
    exact ⟨[], [], rfl, fun _ => rfl, hp⟩

/-- **Unanchored search** tries the text, then its tail. -/
theorem occurs_cons (L : Language α) (back : Bool) (x : α) (xs : List α) :
    Occurs L false back (x :: xs) ↔ Prefixed L back (x :: xs) ∨ Occurs L false back xs := by
  constructor
  · rintro ⟨u, rest, h, -, hp⟩
    cases u with
    | nil =>
      rw [List.nil_append] at h
      rw [h]
      exact .inl hp
    | cons y u =>
      obtain ⟨-, rfl⟩ := List.cons.inj h
      exact .inr ⟨u, rest, rfl, nofun, hp⟩
  · rintro (hp | ⟨u, rest, rfl, -, hp⟩)
    · exact ⟨[], x :: xs, rfl, fun _ => rfl, hp⟩
    · exact ⟨x :: u, rest, rfl, nofun, hp⟩

end Xv6Lab.StarPattern
