import Xv6Lab.Lib.StarPattern

/-!
# grep's matcher (`grep.c`)

Kernighan and Pike's matcher reads the pattern's bytes as it goes: `^` first anchors the match
at the start of the text, `$` last anchors it at the end, a byte followed by `*` matches any
number of copies of itself (any bytes for `.`), `.` matches any byte, and every other byte
itself.  A C string is the list of its bytes before the `'\0'`, so `re[0] == '\0'` is
`re = []` and `*text == '\0'` is `text = []`.

`matchhere` is recursive on the pattern and hands `matchstar` the matcher of the rest of it, so
the three functions are structurally recursive: each terminates on every input.

A `Pattern` is the grammar the matcher reads, with `Pattern.bytes` its text.  It is
`WellFormed` when every literal byte is one the matcher takes as itself: not `.` or `*`, not `^`
first unless anchored, and not a lone `$` last unless anchored.

* `matchstar_eq_true` — `matchstar` tries every split of the text after a run of accepted bytes,
  shortest first;
* `matchhere_eq_true` — `matchhere` finds the prefixes in the language of the items;
* `match_eq_true` — **`match` decides its language**: for every well-formed pattern and every
  text, `match` returns `1` exactly when some subword of the text is in the language of the
  pattern's items, at the start if anchored by `^` and at the end if anchored by `$`.
-/

namespace Xv6Lab.Grep

open StarPattern

/-- `matchstar(c, re, text)`, with `here` the matcher `matchhere(re, ·)` of the rest. -/
def matchstar (c : UInt8) (here : List UInt8 → Bool) : List UInt8 → Bool
  | [] => here []
  | t :: ts => here (t :: ts) || ((t == c || c == '.'.toUInt8) && matchstar c here ts)

/-- The last test of `matchhere`: the pattern's first byte `c` against the text's, then `here`
on the rest of both. -/
def matchOne (c : UInt8) (here : List UInt8 → Bool) : List UInt8 → Bool
  | [] => false
  | t :: ts => (c == '.'.toUInt8 || c == t) && here ts

/-- `matchhere(re, text)`: `re` matched at the start of `text`. -/
def matchhere : List UInt8 → List UInt8 → Bool
  | [], _ => true
  | c :: rest@(d :: re), text =>
    -- `re[1] == '*'` is tested before the end anchor
    if d = '*'.toUInt8 then matchstar c (matchhere re) text else matchOne c (matchhere rest) text
  | c :: rest@([]), text => if c = '$'.toUInt8 then text.isEmpty else matchOne c (matchhere rest) text

/-- The `do … while(*text++ != '\0')` loop of `match`: every suffix of `text`, the empty one
included. -/
def matchLoop (re : List UInt8) : List UInt8 → Bool
  | [] => matchhere re []
  | t :: ts => matchhere re (t :: ts) || matchLoop re ts

/-- `match(re, text)`. -/
def «match» (re text : List UInt8) : Bool :=
  if re.head? = some '^'.toUInt8 then matchhere re.tail text else matchLoop re text

/-! ### Patterns -/

/-- A pattern of the grammar the matcher reads. -/
structure Pattern where
  front : Bool
  items : List (Item UInt8)
  back : Bool
  deriving DecidableEq, Repr

/-- The byte an atom is written as. -/
def atomByte : Atom UInt8 → UInt8
  | .lit c => c
  | .any => '.'.toUInt8

/-- The bytes an item is written as. -/
def itemBytes : Item UInt8 → List UInt8
  | .one a => [atomByte a]
  | .star a => [atomByte a, '*'.toUInt8]

/-- The bytes after the items: `$` when anchored at the back. -/
def backBytes (back : Bool) : List UInt8 := if back then ['$'.toUInt8] else []

/-- The text of a pattern. -/
def Pattern.bytes (p : Pattern) : List UInt8 :=
  (if p.front then ['^'.toUInt8] else []) ++ (p.items.flatMap itemBytes ++ backBytes p.back)

/-- A byte the matcher takes as itself wherever it stands. -/
def Plain : Atom UInt8 → Prop
  | .lit c => c ≠ '.'.toUInt8 ∧ c ≠ '*'.toUInt8
  | .any => True

/-- Every byte of the pattern means what the grammar says. -/
structure Pattern.WellFormed (p : Pattern) : Prop where
  plain : ∀ i ∈ p.items, Plain i.atom
  /-- without `^`, a first `^` would be read as the anchor -/
  no_caret : p.front = false → ∀ i ∈ p.items.head?, i.atom ≠ .lit '^'.toUInt8
  /-- without `$`, a last lone `$` would be read as the anchor -/
  no_dollar : p.back = false → p.items.getLast? ≠ some (.one (.lit '$'.toUInt8))

/-! ### The three functions -/

/-- The matcher's byte test is the atom's. -/
theorem atomByte_test {a : Atom UInt8} (ha : Plain a) (t : UInt8) :
    (atomByte a == '.'.toUInt8 || atomByte a == t) = true ↔ a.Accepts t := by
  cases a with
  | lit c =>
    have hc : c ≠ '.'.toUInt8 := ha.1
    simp only [atomByte, Atom.Accepts, Bool.or_eq_true, beq_iff_eq, hc, false_or]
    exact eq_comm
  | any => simp [atomByte, Atom.Accepts]

theorem matchOne_eq_true {a : Atom UInt8} (ha : Plain a) (here : List UInt8 → Bool)
    (text : List UInt8) :
    matchOne (atomByte a) here text = true ↔ ∃ t ts, text = t :: ts ∧ a.Accepts t ∧ here ts = true := by
  cases text with
  | nil => simp [matchOne]
  | cons t ts =>
    rw [matchOne, Bool.and_eq_true, atomByte_test ha]
    simp

/-- **`matchstar` tries every split**: a run of bytes the atom accepts, then the rest of the
pattern on what follows. -/
theorem matchstar_eq_true {a : Atom UInt8} (ha : Plain a) (here : List UInt8 → Bool)
    (text : List UInt8) :
    matchstar (atomByte a) here text = true ↔
      ∃ u rest, text = u ++ rest ∧ (∀ x ∈ u, a.Accepts x) ∧ here rest = true := by
  induction text with
  | nil =>
    constructor
    · intro h
      exact ⟨[], [], rfl, nofun, h⟩
    · rintro ⟨u, rest, h, -, hrest⟩
      obtain ⟨rfl, rfl⟩ := List.append_eq_nil_iff.mp h.symm
      exact hrest
  | cons t ts ih =>
    have htest : (t == atomByte a || atomByte a == '.'.toUInt8) = true ↔ a.Accepts t := by
      rw [← atomByte_test ha t]
      simp only [Bool.or_eq_true, beq_iff_eq]
      exact ⟨fun h => h.elim (fun h => .inr h.symm) .inl, fun h => h.elim .inr fun h => .inl h.symm⟩
    rw [matchstar, Bool.or_eq_true, Bool.and_eq_true, htest, ih]
    constructor
    · rintro (h | ⟨hx, u, rest, rfl, hu, hrest⟩)
      · -- the empty run
        exact ⟨[], t :: ts, rfl, nofun, h⟩
      · refine ⟨t :: u, rest, rfl, ?_, hrest⟩
        intro x hx'
        rcases List.mem_cons.mp hx' with rfl | hx'
        · exact hx
        · exact hu x hx'
    · rintro ⟨u, rest, h, hu, hrest⟩
      cases u with
      | nil =>
        rw [List.nil_append] at h
        rw [← h] at hrest
        exact .inl hrest
      | cons y u =>
        obtain ⟨rfl, rfl⟩ := List.cons.inj h
        exact .inr ⟨hu _ List.mem_cons_self, u, rest, rfl, fun x hx => hu x (List.mem_cons_of_mem _ hx), hrest⟩

theorem matchhere_star (c : UInt8) (re text : List UInt8) :
    matchhere (c :: '*'.toUInt8 :: re) text = matchstar c (matchhere re) text := by
  rw [matchhere]
  exact if_pos rfl

/-- Unless a `*` follows, or `c` is a last `$`, `matchhere` tests one byte. -/
theorem matchhere_one {c : UInt8} {rest : List UInt8} (hstar : rest.head? ≠ some '*'.toUInt8)
    (hdollar : rest = [] → c ≠ '$'.toUInt8) (text : List UInt8) :
    matchhere (c :: rest) text = matchOne c (matchhere rest) text := by
  cases rest with
  | nil =>
    rw [matchhere]
    exact if_neg (hdollar rfl)
  | cons d re =>
    have hd : d ≠ '*'.toUInt8 := fun h => hstar (by rw [h]; rfl)
    rw [matchhere]
    exact if_neg hd

/-- The first byte of a nonempty item list is its first atom's. -/
theorem head_bytes_cons (i : Item UInt8) (is : List (Item UInt8)) (back : Bool) :
    ((i :: is).flatMap itemBytes ++ backBytes back).head? = some (atomByte i.atom) := by
  cases i <;> rfl

/-- What follows an item's bytes: never a `*`, for plain atoms. -/
theorem head_items_ne_star {is : List (Item UInt8)} (hplain : ∀ i ∈ is, Plain i.atom) (back : Bool) :
    (is.flatMap itemBytes ++ backBytes back).head? ≠ some '*'.toUInt8 := by
  cases is with
  | nil =>
    cases back <;> decide
  | cons i is =>
    have hi : atomByte i.atom ≠ '*'.toUInt8 := by
      have := hplain i List.mem_cons_self
      cases h : i.atom with
      | lit c => rw [h] at this; exact this.2
      | any => decide
    rw [head_bytes_cons]
    exact fun h => hi (Option.some.inj h)

/-- **`matchhere` finds the prefixes in the language** of the items, the whole text when the
pattern ends in `$`. -/
theorem matchhere_eq_true (is : List (Item UInt8)) (back : Bool) (hplain : ∀ i ∈ is, Plain i.atom)
    (hlast : back = false → is.getLast? ≠ some (.one (.lit '$'.toUInt8))) (text : List UInt8) :
    matchhere (is.flatMap itemBytes ++ backBytes back) text = true ↔ Prefixed (lang is) back text := by
  induction is generalizing text with
  | nil =>
    rw [prefixed_nil_items]
    cases back with
    | false => simp [backBytes, matchhere]
    | true => simp [backBytes, matchhere]
  | cons i is ih =>
    have hplain' : ∀ j ∈ is, Plain j.atom := fun j hj => hplain j (List.mem_cons_of_mem i hj)
    have hlast' : back = false → is.getLast? ≠ some (.one (.lit '$'.toUInt8)) := by
      intro hb
      cases is with
      | nil => nofun
      | cons j js =>
        have := hlast hb
        rwa [List.getLast?_cons_cons] at this
    have hstar := head_items_ne_star hplain' back
    cases i with
    | one a =>
      have ha : Plain a := hplain _ List.mem_cons_self
      -- a last `one a` is not a lone `$`
      have hdollar : is.flatMap itemBytes ++ backBytes back = [] → atomByte a ≠ '$'.toUInt8 := by
        intro hnil hc
        -- nothing follows: `one a` is the last item and there is no `$`
        cases is with
        | cons j js => cases j <;> simp [itemBytes] at hnil
        | nil =>
          cases back with
          | true => simp [backBytes] at hnil
          | false =>
            apply hlast rfl
            cases a with
            | lit c => rw [show c = '$'.toUInt8 from hc]; rfl
            | any => exact absurd hc (by decide)
      show matchhere (atomByte a :: (is.flatMap itemBytes ++ backBytes back)) text = true ↔ _
      rw [matchhere_one hstar hdollar, matchOne_eq_true ha, prefixed_one_cons]
      simp only [ih hplain' hlast']
    | star a =>
      have ha : Plain a := hplain _ List.mem_cons_self
      show matchhere (atomByte a :: '*'.toUInt8 :: (is.flatMap itemBytes ++ backBytes back)) text = true ↔ _
      rw [matchhere_star, matchstar_eq_true ha, prefixed_star_cons]
      simp only [ih hplain' hlast']

/-- The loop of `match` tries `matchhere` at every suffix. -/
theorem matchLoop_eq_true (re text : List UInt8) :
    matchLoop re text = true ↔ ∃ u rest, text = u ++ rest ∧ matchhere re rest = true := by
  induction text with
  | nil =>
    constructor
    · intro h
      exact ⟨[], [], rfl, h⟩
    · rintro ⟨u, rest, h, hm⟩
      obtain ⟨rfl, rfl⟩ := List.append_eq_nil_iff.mp h.symm
      exact hm
  | cons t ts ih =>
    rw [matchLoop, Bool.or_eq_true, ih]
    constructor
    · rintro (h | ⟨u, rest, rfl, hm⟩)
      · exact ⟨[], t :: ts, rfl, h⟩
      · exact ⟨t :: u, rest, rfl, hm⟩
    · rintro ⟨u, rest, h, hm⟩
      cases u with
      | nil =>
        rw [List.nil_append] at h
        rw [← h] at hm
        exact .inl hm
      | cons y u =>
        obtain ⟨rfl, rfl⟩ := List.cons.inj h
        exact .inr ⟨u, rest, rfl, hm⟩

/-- **`match` decides its language**: for every well-formed pattern and every text, `match`
returns `1` exactly when a subword of the text is in the language of the pattern's items,
starting at the start when the pattern begins with `^` and ending at the end when it ends with
`$`. -/
theorem match_eq_true (p : Pattern) (hp : p.WellFormed) (text : List UInt8) :
    «match» p.bytes text = true ↔ Occurs (lang p.items) p.front p.back text := by
  have hhere := matchhere_eq_true p.items p.back hp.plain hp.no_dollar
  cases hfront : p.front with
  | true =>
    have hbytes : p.bytes = '^'.toUInt8 :: (p.items.flatMap itemBytes ++ backBytes p.back) := by
      rw [Pattern.bytes, hfront]
      rfl
    rw [occurs_front, «match», hbytes, List.head?_cons, if_pos rfl, List.tail_cons, hhere]
  | false =>
    have hbytes : p.bytes = p.items.flatMap itemBytes ++ backBytes p.back := by
      rw [Pattern.bytes, hfront]
      rfl
    -- the first byte is not `^`: the first atom is plain and not `^`, or there is none
    have hhead : p.bytes.head? ≠ some '^'.toUInt8 := by
      rw [hbytes]
      cases hi : p.items with
      | nil => cases p.back <;> decide
      | cons i is =>
        have hne := hp.no_caret hfront i (by rw [hi]; rfl)
        rw [head_bytes_cons]
        intro h
        have hc : atomByte i.atom = '^'.toUInt8 := Option.some.inj h
        cases ha : i.atom with
        | lit c =>
          rw [ha] at hc hne
          exact hne (congrArg Atom.lit hc)
        | any =>
          rw [ha] at hc
          exact absurd hc (by decide)
    rw [«match», if_neg hhead, matchLoop_eq_true, hbytes]
    constructor
    · rintro ⟨u, rest, rfl, hm⟩
      exact ⟨u, rest, rfl, nofun, (hhere rest).mp hm⟩
    · rintro ⟨u, rest, rfl, -, hpre⟩
      exact ⟨u, rest, rfl, (hhere rest).mpr hpre⟩

/-- `^a*b$` is well formed, and `match` decides it on `aab`. -/
theorem match_eq_true_anchored :
    let p : Pattern := ⟨true, [.star (.lit 97), .one (.lit 98)], true⟩
    p.WellFormed ∧
      («match» p.bytes [97, 97, 98] = true ↔ Occurs (lang p.items) p.front p.back [97, 97, 98]) := by
  intro p
  have hp : p.WellFormed := by
    refine ⟨?_, fun h => absurd h (by decide), fun h => absurd h (by decide)⟩
    intro i hi
    simp only [p, List.mem_cons, List.not_mem_nil, or_false] at hi
    rcases hi with rfl | rfl <;> exact ⟨by decide, by decide⟩
  exact ⟨hp, match_eq_true p hp [97, 97, 98]⟩

end Xv6Lab.Grep
