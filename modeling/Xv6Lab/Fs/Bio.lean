import Xv6Lab.Fs.Layout
import Xv6Lab.Kernel.Basic
import Xv6Lab.Lib.LinkedRing
import Xv6Lab.Lib.Run
import Xv6Lab.Lib.Tally

/-!
# The buffer cache (`bio.c`)

`bcache` keeps `NBUF` buffers on a circular doubly linked list through `bcache.head`, most
recently released first.  `bget` looks for the block from `head.next` on, else recycles the
first buffer from `head.prev` back that has `refcnt == 0` and no `B_DIRTY`; `brelse` moves a
buffer whose last reference it drops to `head.next`.  Each of `m` callers holds at most one
buffer: it is `waiting` between `bget`'s scan and `acquiresleep`, then `holding`.

The buffers are zeroed before `binit`, so every buffer no `bget` has returned carries block `0`
of device `0`: a buffer is `Fresh` while it is neither valid nor referenced.

* `BioInv` — what every reachable state keeps: the links are the ring of a list of all the
  buffers, `refcnt` counts the callers that got the buffer, a sleep lock has one holder, no two
  buffers that are not fresh carry one block, and no fresh buffer comes before one that is not
  fresh and carries block `0` of device `0`;
* `bioInv_step`, `bioInv_reachable` — every step keeps it;
* `bget_hit` — `bget` returns the buffer that carries the block, if one that is not fresh does;
* `bget_recycles_free` — a recycled buffer had `refcnt == 0` and no `B_DIRTY`;
* `bcache_well_formed` — all of it for the reachable states, and `bcache_zero_block_twice` —
  after `bread(0, 0)` two buffers carry block `0` of device `0`.
-/

namespace Xv6Lab

open Function Tally LinkedRing

/-- The first element that passes a test is still first when the test changes only at another
element, which fails the new test. -/
theorem find?_eq_of_agree {α : Type*} {l : List α} {p q : α → Bool} {b y : α}
    (hf : l.find? p = some y) (hyb : y ≠ b) (hq : ∀ x, x ≠ b → q x = p x) (hqb : q b = false) :
    l.find? q = some y := by
  rw [List.find?_eq_some_iff_append] at hf ⊢
  obtain ⟨hpy, as, bs, rfl, has⟩ := hf
  refine ⟨by rw [hq y hyb]; exact hpy, as, bs, rfl, fun a ha => ?_⟩
  by_cases hab : a = b
  · rw [hab, hqb]
    rfl
  · rw [hq a hab]
    exact has a ha

/-- Removing an element that fails the test does not change what `find?` finds. -/
theorem find?_erase_of_false {α : Type*} [DecidableEq α] {p : α → Bool} {b : α} (hb : p b = false)
    (l : List α) : (l.erase b).find? p = l.find? p := by
  induction l with
  | nil => rfl
  | cons a l ih =>
    rw [List.erase_cons]
    by_cases hab : a = b
    · subst hab
      rw [if_pos (beq_self_eq_true a), List.find?_cons_of_neg (by rw [hb]; exact Bool.false_ne_true)]
    · rw [if_neg (by simpa using hab), List.find?_cons, List.find?_cons, ih]

/-- `NBUF`. -/
def NBUF : ℕ := MAXOPBLOCKS * 3

/-- The fields of `struct buf` that `bio.c` reads and writes (`data` is moved by `iderw` and the
callers only). -/
structure BufHdr where
  dev : ℕ
  blockno : ℕ
  /-- `B_VALID`. -/
  valid : Bool
  /-- `B_DIRTY`. -/
  dirty : Bool
  refcnt : ℕ
  deriving DecidableEq, Repr

namespace BufHdr

/-- A zeroed `struct buf`. -/
def zero : BufHdr := ⟨0, 0, false, false, 0⟩

/-- `b->dev == dev && b->blockno == blockno`. -/
def holds (h : BufHdr) (dev blockno : ℕ) : Bool := h.dev == dev && h.blockno == blockno

/-- `b->refcnt == 0 && (b->flags & B_DIRTY) == 0`. -/
def free (h : BufHdr) : Bool := h.refcnt == 0 && !h.dirty

/-- Not valid and not referenced: as the zeroed memory left it. -/
def Fresh (h : BufHdr) : Prop := h.valid = false ∧ h.refcnt = 0

instance (h : BufHdr) : Decidable h.Fresh := by unfold Fresh; infer_instance

theorem holds_iff {h : BufHdr} {dev blockno : ℕ} :
    h.holds dev blockno = true ↔ h.dev = dev ∧ h.blockno = blockno := by
  simp [holds]

/-- Two blocks one buffer carries are one block. -/
theorem holds_inj {h : BufHdr} {d k d' k' : ℕ} (h₁ : h.holds d k = true) (h₂ : h.holds d' k' = true) :
    d = d' ∧ k = k' := by
  rw [holds_iff] at h₁ h₂
  omega

end BufHdr

/-- `bcache`: the buffers, and the `next`/`prev` links, `none` standing for `&bcache.head`. -/
structure BCache (n : ℕ) where
  buf : Fin n → BufHdr
  links : Links (Fin n)

namespace BCache

variable {n : ℕ}

/-- `binit`: the head points to itself, and each buffer in turn goes after the head; the links
of a buffer before `binit` are whatever memory held. -/
def binit (r : Links (Fin n)) : BCache n where
  buf := fun _ => BufHdr.zero
  links := (List.finRange n).foldl Links.pushFront ((r.setPrev none none).setNext none none)

/-- Buffer `b` with its header changed by `f`. -/
def modify (c : BCache n) (b : Fin n) (f : BufHdr → BufHdr) : BCache n :=
  { c with buf := update c.buf b (f (c.buf b)) }

/-- `bget(dev, blockno)` up to `acquiresleep`: the first buffer from `head.next` that carries the
block gets `refcnt++`; else the first from `head.prev` back with `refcnt == 0` and no `B_DIRTY`
is given the block, `flags = 0` and `refcnt = 1`; else `panic("bget: no buffers")`.  The ring
holds `n` buffers, so `n` steps of a walk reach the head. -/
def bget (c : BCache n) (dev blockno : ℕ) : Except Crash (BCache n × Fin n) :=
  match walkFind c.links.next (fun b => (c.buf b).holds dev blockno) n (c.links.next none) with
  | some b => .ok (c.modify b fun h => { h with refcnt := h.refcnt + 1 }, b)
  | none =>
    match walkFind c.links.prev (fun b => (c.buf b).free) n (c.links.prev none) with
    | some b => .ok (c.modify b fun _ => ⟨dev, blockno, false, false, 1⟩, b)
    | none => .error (.panic "bget: no buffers")

/-- `brelse(b)` after `releasesleep`: `refcnt--`, and a buffer no one references any more moves to
`head.next`. -/
def brelse (c : BCache n) (b : Fin n) : BCache n :=
  let c' := c.modify b fun h => { h with refcnt := h.refcnt - 1 }
  if (c.buf b).refcnt - 1 = 0 then { c' with links := c'.links.moveFront b } else c'

@[simp] theorem modify_buf_self (c : BCache n) (b : Fin n) (f : BufHdr → BufHdr) :
    (c.modify b f).buf b = f (c.buf b) := update_self _ _ _

@[simp] theorem modify_buf_of_ne (c : BCache n) {b x : Fin n} (f : BufHdr → BufHdr) (h : x ≠ b) :
    (c.modify b f).buf x = c.buf x := update_of_ne h _ _

@[simp] theorem modify_links (c : BCache n) (b : Fin n) (f : BufHdr → BufHdr) :
    (c.modify b f).links = c.links := rfl

/-! ### The list behind the links -/

/-- The list whose ring the links of `c` are, and the fact `bget`'s lookup needs about the
buffers of block `0` of device `0`: if one that is not fresh carries it, the first to carry it
is not fresh. -/
structure MruList (c : BCache n) (l : List (Fin n)) : Prop where
  nodup : l.Nodup
  mem : ∀ b, b ∈ l
  links : c.links = ofList l
  zero_first : (∃ b, ¬(c.buf b).Fresh ∧ (c.buf b).holds 0 0 = true) →
    ∃ b, l.find? (fun x => (c.buf x).holds 0 0) = some b ∧ ¬(c.buf b).Fresh

theorem MruList.length_le {c : BCache n} {l : List (Fin n)} (h : MruList c l) : l.length ≤ n := by
  have := (h.nodup.subperm fun x _ => List.mem_finRange x).length_le
  simpa using this

/-- `bget`'s two walks of the ring are `find?` on the list and on the reversed list. -/
theorem MruList.bget_eq {c : BCache n} {l : List (Fin n)} (h : MruList c l) (dev blockno : ℕ) :
    c.bget dev blockno =
      match l.find? (fun b => (c.buf b).holds dev blockno) with
      | some b => .ok (c.modify b fun h => { h with refcnt := h.refcnt + 1 }, b)
      | none =>
        match l.reverse.find? (fun b => (c.buf b).free) with
        | some b => .ok (c.modify b fun _ => ⟨dev, blockno, false, false, 1⟩, b)
        | none => .error (.panic "bget: no buffers") := by
  have hnext : walkFind c.links.next (fun b => (c.buf b).holds dev blockno) n (c.links.next none) =
      l.find? (fun b => (c.buf b).holds dev blockno) := by
    rw [h.links]
    show walkFind (nextIn l) _ n (nextIn l none) = _
    rw [nextIn_none]
    exact walkFind_ofList (s := []) h.nodup _ h.length_le
  have hprev : walkFind c.links.prev (fun b => (c.buf b).free) n (c.links.prev none) =
      l.reverse.find? (fun b => (c.buf b).free) := by
    have hlen : l.reverse.length ≤ n := by
      rw [List.length_reverse]
      exact h.length_le
    rw [h.links]
    show walkFind (nextIn l.reverse) _ n (nextIn l.reverse none) = _
    rw [nextIn_none]
    exact walkFind_ofList (s := []) (List.nodup_reverse.mpr h.nodup) _ hlen
  rw [bget, hnext, hprev]

/-- What `bget` returns: the first buffer carrying the block, with one more reference, or, when
no buffer carries it, the last buffer that is free, recycled for the block. -/
theorem MruList.bget_eq_ok {c c' : BCache n} {l : List (Fin n)} (hl : MruList c l)
    {dev blockno : ℕ} {b : Fin n} (h : c.bget dev blockno = .ok (c', b)) :
    (l.find? (fun x => (c.buf x).holds dev blockno) = some b ∧
        c' = c.modify b fun h => { h with refcnt := h.refcnt + 1 }) ∨
      (l.find? (fun x => (c.buf x).holds dev blockno) = none ∧
        l.reverse.find? (fun x => (c.buf x).free) = some b ∧
        c' = c.modify b fun _ => ⟨dev, blockno, false, false, 1⟩) := by
  rw [hl.bget_eq] at h
  cases hf : l.find? (fun x => (c.buf x).holds dev blockno) with
  | some b₀ =>
    simp only [hf, Except.ok.injEq, Prod.mk.injEq] at h
    obtain ⟨rfl, rfl⟩ := h
    exact Or.inl ⟨rfl, rfl⟩
  | none =>
    cases hr : l.reverse.find? (fun x => (c.buf x).free) with
    | some b₀ =>
      simp only [hf, hr, Except.ok.injEq, Prod.mk.injEq] at h
      obtain ⟨rfl, rfl⟩ := h
      exact Or.inr ⟨rfl, rfl, rfl⟩
    | none => simp only [hf, hr, reduceCtorEq] at h

/-- `binit` links the buffers as the ring of `[n-1, …, 1, 0]`, whatever the links held. -/
theorem binit_links (r : Links (Fin n)) :
    (binit r).links = ofList (List.finRange n).reverse := by
  have h0 : Agrees ((r.setPrev none none).setNext none none) [] := by
    intro x hx
    rcases hx with rfl | ⟨a, ha, -⟩
    · simp [Links.setNext, Links.setPrev]
    · cases ha
  have h : Agrees ((List.finRange n).foldl Links.pushFront ((r.setPrev none none).setNext none none))
      ((List.finRange n).reverse ++ []) :=
    h0.foldl_pushFront (by simpa using List.nodup_finRange n)
  rw [List.append_nil] at h
  exact h.eq_ofList fun a => List.mem_reverse.mpr (List.mem_finRange a)

/-! ### The cache invariant -/

/-- What the cache keeps on its own: its links are the ring of a list of every buffer, a fresh
buffer carries block `0` of device `0` and is clean, and no two buffers that are not fresh carry
one block. -/
structure CacheInv (c : BCache n) : Prop where
  ring : ∃ l, MruList c l
  fresh : ∀ b, (c.buf b).Fresh → (c.buf b).holds 0 0 = true ∧ (c.buf b).dirty = false
  unique : ∀ b b' dev blockno, ¬(c.buf b).Fresh → ¬(c.buf b').Fresh →
    (c.buf b).holds dev blockno = true → (c.buf b').holds dev blockno = true → b = b'

/-- The first buffer that carries a block is the only one that is not fresh and carries it. -/
theorem CacheInv.eq_of_find {c : BCache n} (hc : CacheInv c) {l : List (Fin n)} (hl : MruList c l)
    {dev blockno : ℕ} {b y : Fin n} (hf : l.find? (fun x => (c.buf x).holds dev blockno) = some b)
    (hy : ¬(c.buf y).Fresh) (hyh : (c.buf y).holds dev blockno = true) : y = b := by
  have hbh : (c.buf b).holds dev blockno = true :=
    List.find?_some (p := fun x => (c.buf x).holds dev blockno) hf
  by_cases hb : (c.buf b).Fresh
  · -- a fresh first carrier carries block `0` of device `0`, whose first carrier is not fresh
    obtain ⟨rfl, rfl⟩ := BufHdr.holds_inj (hc.fresh b hb).1 hbh
    obtain ⟨b', hb', hnf⟩ := hl.zero_first ⟨y, hy, hyh⟩
    rw [hf] at hb'
    cases hb'
    exact absurd hb hnf
  · exact hc.unique y b dev blockno hy hb hyh hbh

/-- **`bget` finds a cached block**: when a buffer that is not fresh carries the block, `bget`
returns it with one more reference. -/
theorem CacheInv.bget_hit {c : BCache n} (hc : CacheInv c) {b : Fin n} {dev blockno : ℕ}
    (hb : ¬(c.buf b).Fresh) (hh : (c.buf b).holds dev blockno = true) :
    c.bget dev blockno = .ok (c.modify b fun h => { h with refcnt := h.refcnt + 1 }, b) := by
  obtain ⟨l, hl⟩ := hc.ring
  obtain ⟨b', hb'⟩ : ∃ b', l.find? (fun x => (c.buf x).holds dev blockno) = some b' :=
    Option.isSome_iff_exists.mp (List.find?_isSome.mpr ⟨b, hl.mem b, hh⟩)
  have hfind := hb'
  rw [← hc.eq_of_find hl hb' hb hh] at hfind
  rw [hl.bget_eq, hfind]

/-- A change to a buffer that is not fresh, that leaves it not fresh and carrying its block,
keeps the invariant. -/
theorem CacheInv.modify_known {c : BCache n} (hc : CacheInv c) {b : Fin n} {f : BufHdr → BufHdr}
    (hb : ¬(c.buf b).Fresh) (hf : ¬(f (c.buf b)).Fresh) (hdev : (f (c.buf b)).dev = (c.buf b).dev)
    (hblk : (f (c.buf b)).blockno = (c.buf b).blockno) : CacheInv (c.modify b f) := by
  have hfresh : ∀ x, ((c.modify b f).buf x).Fresh ↔ (c.buf x).Fresh := fun x => by
    by_cases hx : x = b
    · subst hx
      simp only [modify_buf_self]
      exact ⟨fun h => absurd h hf, fun h => absurd h hb⟩
    · rw [modify_buf_of_ne _ _ hx]
  have hholds : ∀ x dev blockno, ((c.modify b f).buf x).holds dev blockno =
      (c.buf x).holds dev blockno := fun x dev blockno => by
    by_cases hx : x = b
    · subst hx
      simp [BufHdr.holds, hdev, hblk]
    · rw [modify_buf_of_ne _ _ hx]
  obtain ⟨l, hl⟩ := hc.ring
  refine ⟨⟨l, hl.nodup, hl.mem, hl.links, ?_⟩, ?_, ?_⟩
  · simp only [hfresh, hholds]
    exact hl.zero_first
  · intro x hx
    rw [hfresh] at hx
    by_cases hxb : x = b
    · exact absurd (hxb ▸ hx) hb
    · rw [modify_buf_of_ne _ _ hxb]
      exact hc.fresh x hx
  · intro x y dev blockno hx hy hxh hyh
    rw [hfresh] at hx hy
    rw [hholds] at hxh hyh
    exact hc.unique x y dev blockno hx hy hxh hyh

/-- A hit keeps the invariant: the buffer found is the only one not fresh that carries the
block, and if it was fresh it is now the first carrier of block `0` of device `0`. -/
theorem CacheInv.hit {c : BCache n} (hc : CacheInv c) {l : List (Fin n)} (hl : MruList c l)
    {dev blockno : ℕ} {b : Fin n} (hf : l.find? (fun x => (c.buf x).holds dev blockno) = some b) :
    CacheInv (c.modify b fun h => { h with refcnt := h.refcnt + 1 }) := by
  have hbh : (c.buf b).holds dev blockno = true :=
    List.find?_some (p := fun x => (c.buf x).holds dev blockno) hf
  have hb' : ¬((c.modify b fun h => { h with refcnt := h.refcnt + 1 }).buf b).Fresh := by
    simp [BufHdr.Fresh]
  have hfresh : ∀ x, x ≠ b → (((c.modify b fun h => { h with refcnt := h.refcnt + 1 }).buf x).Fresh ↔
      (c.buf x).Fresh) := fun x hx => by rw [modify_buf_of_ne _ _ hx]
  have hholds : ∀ x d k, ((c.modify b fun h => { h with refcnt := h.refcnt + 1 }).buf x).holds d k =
      (c.buf x).holds d k := fun x d k => by
    by_cases hx : x = b
    · subst hx
      simp [BufHdr.holds]
    · rw [modify_buf_of_ne _ _ hx]
  refine ⟨⟨l, hl.nodup, hl.mem, hl.links, ?zero⟩, ?fresh, ?unique⟩
  case zero =>
    rintro ⟨x, hx, hxh⟩
    rw [hholds] at hxh
    simp only [hholds]
    by_cases hbz : (c.buf b).holds 0 0 = true
    · obtain ⟨rfl, rfl⟩ := BufHdr.holds_inj hbz hbh
      exact ⟨b, hf, hb'⟩
    · have hxb : x ≠ b := fun e => hbz (e ▸ hxh)
      obtain ⟨y, hy, hyk⟩ := hl.zero_first ⟨x, (hfresh x hxb).not.mp hx, hxh⟩
      have hyb : y ≠ b := fun e =>
        hbz (e ▸ List.find?_some (p := fun x => (c.buf x).holds 0 0) hy)
      exact ⟨y, hy, (hfresh y hyb).not.mpr hyk⟩
  case fresh =>
    intro x hx
    have hxb : x ≠ b := fun e => hb' (e ▸ hx)
    rw [modify_buf_of_ne _ _ hxb] at hx ⊢
    exact hc.fresh x hx
  case unique =>
    intro x y d k hx hy hxh hyh
    rw [hholds] at hxh hyh
    -- a buffer other than `b` was not fresh before either
    have hknown : ∀ z, z ≠ b → ¬((c.modify b fun h => { h with refcnt := h.refcnt + 1 }).buf z).Fresh →
        ¬(c.buf z).Fresh := fun z hz h => (hfresh z hz).not.mp h
    by_cases hxb : x = b
    · by_cases hyb : y = b
      · rw [hxb, hyb]
      obtain ⟨rfl, rfl⟩ := BufHdr.holds_inj (hxb ▸ hxh) hbh
      exact hxb.trans (hc.eq_of_find hl hf (hknown y hyb hy) hyh).symm
    · by_cases hyb : y = b
      · obtain ⟨rfl, rfl⟩ := BufHdr.holds_inj (hyb ▸ hyh) hbh
        exact (hc.eq_of_find hl hf (hknown x hxb hx) hxh).trans hyb.symm
      · exact hc.unique x y d k (hknown x hxb hx) (hknown y hyb hy) hxh hyh

/-- A recycling keeps the invariant: no buffer carried the block, and the recycled buffer is now
its only carrier. -/
theorem CacheInv.recycle {c : BCache n} (hc : CacheInv c) {l : List (Fin n)} (hl : MruList c l)
    {dev blockno : ℕ} {b : Fin n} (hmiss : l.find? (fun x => (c.buf x).holds dev blockno) = none) :
    CacheInv (c.modify b fun _ => ⟨dev, blockno, false, false, 1⟩) := by
  have hnone : ∀ x, (c.buf x).holds dev blockno = false := fun x => by
    simpa using List.find?_eq_none.mp hmiss x (hl.mem x)
  have hb' : ¬((c.modify b fun _ => ⟨dev, blockno, false, false, 1⟩).buf b).Fresh := by
    simp [BufHdr.Fresh]
  have hbh : ∀ d k, ((c.modify b fun _ => ⟨dev, blockno, false, false, 1⟩).buf b).holds d k = true ↔
      dev = d ∧ blockno = k := fun d k => by simp [BufHdr.holds]
  have hfresh : ∀ x, x ≠ b → (((c.modify b fun _ => ⟨dev, blockno, false, false, 1⟩).buf x).Fresh ↔
      (c.buf x).Fresh) := fun x hx => by rw [modify_buf_of_ne _ _ hx]
  refine ⟨⟨l, hl.nodup, hl.mem, hl.links, ?zero⟩, ?fresh, ?unique⟩
  case zero =>
    rintro ⟨x, hx, hxh⟩
    by_cases hz : dev = 0 ∧ blockno = 0
    · -- block `0` of device `0` was in no buffer: the recycled buffer is its first carrier
      obtain ⟨rfl, rfl⟩ := hz
      obtain ⟨y, hy⟩ : ∃ y, l.find? (fun x =>
          ((c.modify b fun _ => ⟨0, 0, false, false, 1⟩).buf x).holds 0 0) = some y :=
        Option.isSome_iff_exists.mp (List.find?_isSome.mpr ⟨b, hl.mem b, (hbh 0 0).mpr ⟨rfl, rfl⟩⟩)
      have hyh := List.find?_some
        (p := fun x => ((c.modify b fun _ => ⟨0, 0, false, false, 1⟩).buf x).holds 0 0) hy
      have hyb : y = b := by
        by_contra hyb
        rw [modify_buf_of_ne _ _ hyb, hnone] at hyh
        cases hyh
      exact ⟨y, hy, hyb ▸ hb'⟩
    · have hxb : x ≠ b := fun e => hz ((hbh 0 0).mp (e ▸ hxh))
      rw [modify_buf_of_ne _ _ hxb] at hxh
      obtain ⟨y, hy, hyk⟩ := hl.zero_first ⟨x, (hfresh x hxb).not.mp hx, hxh⟩
      have hyb : y ≠ b := by
        rintro rfl
        exact hxb (hc.unique x y 0 0 ((hfresh x hxb).not.mp hx) hyk hxh
          (List.find?_some (p := fun x => (c.buf x).holds 0 0) hy))
      refine ⟨y, find?_eq_of_agree hy hyb (fun z hz => by rw [modify_buf_of_ne _ _ hz]) ?_,
        (hfresh y hyb).not.mpr hyk⟩
      rw [Bool.eq_false_iff]
      exact fun h => hz ((hbh 0 0).mp h)
  case fresh =>
    intro x hx
    have hxb : x ≠ b := fun e => hb' (e ▸ hx)
    rw [modify_buf_of_ne _ _ hxb] at hx ⊢
    exact hc.fresh x hx
  case unique =>
    intro x y d k hx hy hxh hyh
    -- the recycled buffer carries `(dev, blockno)`, which no other buffer carries
    have hother : ∀ z, z ≠ b → ((c.modify b fun _ => ⟨dev, blockno, false, false, 1⟩).buf z).holds
        d k = true → ¬(dev = d ∧ blockno = k) := fun z hz h ⟨hd, hk⟩ => by
      rw [modify_buf_of_ne _ _ hz, ← hd, ← hk, hnone] at h
      cases h
    by_cases hxb : x = b
    · by_cases hyb : y = b
      · rw [hxb, hyb]
      · exact absurd ((hbh d k).mp (hxb ▸ hxh)) (hother y hyb hyh)
    · by_cases hyb : y = b
      · exact absurd ((hbh d k).mp (hyb ▸ hyh)) (hother x hxb hxh)
      · rw [modify_buf_of_ne _ _ hxb] at hxh
        rw [modify_buf_of_ne _ _ hyb] at hyh
        exact hc.unique x y d k ((hfresh x hxb).not.mp hx) ((hfresh y hyb).not.mp hy) hxh hyh

/-- Moving a buffer that is not fresh to the front keeps the invariant. -/
theorem CacheInv.moveFront {c : BCache n} (hc : CacheInv c) {b : Fin n} (hb : ¬(c.buf b).Fresh) :
    CacheInv { c with links := c.links.moveFront b } := by
  obtain ⟨l, hl⟩ := hc.ring
  refine ⟨⟨b :: l.erase b, ?nodup, ?mem, ?links, ?zero⟩, hc.fresh, hc.unique⟩
  case nodup => exact List.nodup_cons.mpr ⟨hl.nodup.not_mem_erase, hl.nodup.erase b⟩
  case mem =>
    intro x
    by_cases hx : x = b
    · exact hx ▸ List.mem_cons_self
    · exact List.mem_cons_of_mem _ ((List.mem_erase_of_ne hx).mpr (hl.mem x))
  case links =>
    show c.links.moveFront b = _
    rw [hl.links, moveFront_ofList hl.nodup (hl.mem b)]
  case zero =>
    intro hz
    obtain ⟨y, hy, hyk⟩ := hl.zero_first hz
    by_cases hbz : (c.buf b).holds 0 0 = true
    · exact ⟨b, List.find?_cons_of_pos (p := fun x => (c.buf x).holds 0 0) hbz, hb⟩
    · refine ⟨y, ?_, hyk⟩
      rw [List.find?_cons_of_neg (p := fun x => (c.buf x).holds 0 0) hbz,
        find?_erase_of_false (by simpa using hbz)]
      exact hy

theorem brelse_buf (c : BCache n) (b : Fin n) :
    (c.brelse b).buf = (c.modify b fun h => { h with refcnt := h.refcnt - 1 }).buf := by
  unfold BCache.brelse
  split_ifs <;> rfl

/-- After `binit` every buffer is fresh. -/
theorem cacheInv_binit (r : Links (Fin n)) : CacheInv (binit r) where
  ring := ⟨(List.finRange n).reverse,
    ⟨List.nodup_reverse.mpr (List.nodup_finRange n),
      fun a => List.mem_reverse.mpr (List.mem_finRange a), binit_links r,
      fun ⟨_, hb, _⟩ => absurd ⟨rfl, rfl⟩ hb⟩⟩
  fresh := fun _ _ => ⟨rfl, rfl⟩
  unique := fun _ _ _ _ hb => absurd ⟨rfl, rfl⟩ hb

/-- `brelse` of a valid buffer keeps the invariant. -/
theorem CacheInv.brelse {c : BCache n} (hc : CacheInv c) {b : Fin n} (hval : (c.buf b).valid = true) :
    CacheInv (c.brelse b) := by
  have hnf : ∀ h : BufHdr, h.valid = true → ¬h.Fresh := fun h hv hf => by
    rw [hf.1] at hv
    cases hv
  have hnf' := hnf { c.buf b with refcnt := (c.buf b).refcnt - 1 } hval
  have hc' := hc.modify_known (f := fun h => { h with refcnt := h.refcnt - 1 }) (hnf _ hval)
    hnf' rfl rfl
  unfold BCache.brelse
  split_ifs
  · exact hc'.moveFront (by rw [modify_buf_self]; exact hnf')
  · exact hc'

end BCache

/-- Where a caller is in its use of a buffer. -/
inductive BufUse (n : ℕ) where
  | idle
  /-- Returned by `bget`'s scan, asleep in `acquiresleep`. -/
  | waiting (b : Fin n)
  /-- Holding the buffer's sleep lock, between `bread` and `brelse`. -/
  | holding (b : Fin n)
  deriving DecidableEq, Repr

namespace BufUse

/-- A reference to `b` that no `brelse` has dropped. -/
def uses {n : ℕ} (b : Fin n) : BufUse n → Prop
  | waiting b' => b' = b
  | holding b' => b' = b
  | idle => False

instance {n : ℕ} (b : Fin n) (u : BufUse n) : Decidable (u.uses b) := by
  cases u <;> unfold uses <;> infer_instance

@[simp] theorem uses_idle {n : ℕ} (b : Fin n) : idle.uses b ↔ False := Iff.rfl

@[simp] theorem uses_waiting {n : ℕ} (b b' : Fin n) : (waiting b').uses b ↔ b' = b := Iff.rfl

@[simp] theorem uses_holding {n : ℕ} (b b' : Fin n) : (holding b').uses b ↔ b' = b := Iff.rfl

end BufUse

/-- The cache and what each of `m` callers does with it. -/
structure BioSys (n m : ℕ) where
  cache : BCache n
  use : Fin m → BufUse n

/-- A step of one caller. -/
inductive BioAct (m : ℕ) where
  /-- `bread`'s call of `bget`, up to `acquiresleep`. -/
  | bget (q : Fin m) (dev blockno : ℕ)
  /-- `acquiresleep`, then `bread`'s `iderw` if the buffer is not `B_VALID`. -/
  | acquire (q : Fin m)
  /-- `bwrite`: `B_DIRTY`, then `iderw` writes the block and leaves it valid and clean. -/
  | bwrite (q : Fin m)
  /-- `log_write`'s `b->flags |= B_DIRTY`. -/
  | logWrite (q : Fin m)
  /-- `brelse`. -/
  | brelse (q : Fin m)
  deriving DecidableEq, Repr

namespace BioSys

variable {n m : ℕ}

/-- After `binit`, no caller holds a buffer. -/
def Init (s : BioSys n m) : Prop := ∃ r, s = ⟨BCache.binit r, fun _ => .idle⟩

/-- The step of caller `q`: `none` when it is not enabled, `some (.error e)` when it panics. -/
def sysStep (s : BioSys n m) : BioAct m → Option (Except Crash (BioSys n m))
  | .bget q dev blockno =>
    if s.use q = .idle then
      some ((s.cache.bget dev blockno).map fun r => ⟨r.1, update s.use q (.waiting r.2)⟩)
    else none
  | .acquire q =>
    match s.use q with
    | .waiting b =>
      if ∀ q', s.use q' ≠ .holding b then
        some (.ok ⟨s.cache.modify b fun h => { h with valid := true }, update s.use q (.holding b)⟩)
      else none
    | _ => none
  | .bwrite q =>
    match s.use q with
    | .holding b => some (.ok ⟨s.cache.modify b fun h => { h with valid := true, dirty := false }, s.use⟩)
    | _ => none
  | .logWrite q =>
    match s.use q with
    | .holding b => some (.ok ⟨s.cache.modify b fun h => { h with dirty := true }, s.use⟩)
    | _ => none
  | .brelse q =>
    match s.use q with
    | .holding b => some (.ok ⟨s.cache.brelse b, update s.use q .idle⟩)
    | _ => none

/-- The step function of runs: a step that panics ends the run. -/
def step (s : BioSys n m) (a : BioAct m) : Option (BioSys n m) :=
  (s.sysStep a).bind fun r => match r with
    | .ok t => some t
    | .error _ => none

/-- The states some interleaving reaches after `binit`. -/
def Reachable : BioSys n m → Prop := Run.Reachable step Init

/-- The state a list of steps leads to from `binit`, over links that held `r` before. -/
def exec (r : Links (Fin n)) (ls : List (BioAct m)) : Option (BioSys n m) :=
  Run.exec step ⟨BCache.binit r, fun _ => .idle⟩ ls

theorem reachable_of_exec {r : Links (Fin n)} {ls : List (BioAct m)} {t : BioSys n m}
    (h : exec r ls = some t) : Reachable t :=
  Run.reachable_of_exec ls ⟨r, rfl⟩ h

/-! ### What each step does -/

variable {s t : BioSys n m} {q : Fin m}

theorem step_eq_some {a : BioAct m} : s.step a = some t ↔ s.sysStep a = some (.ok t) := by
  unfold step
  cases s.sysStep a with
  | none => simp
  | some r => cases r <;> simp

theorem sysStep_bget_ok {dev blockno : ℕ} (h : s.sysStep (.bget q dev blockno) = some (.ok t)) :
    s.use q = .idle ∧ ∃ c b, s.cache.bget dev blockno = .ok (c, b) ∧
      t = ⟨c, update s.use q (.waiting b)⟩ := by
  simp only [sysStep] at h
  split_ifs at h with hq
  cases hb : s.cache.bget dev blockno with
  | error e => simp [hb, Except.map] at h
  | ok r =>
    simp only [hb, Except.map, Option.some.injEq, Except.ok.injEq] at h
    exact ⟨hq, r.1, r.2, rfl, h.symm⟩

theorem sysStep_acquire_ok (h : s.sysStep (.acquire q) = some (.ok t)) :
    ∃ b, s.use q = .waiting b ∧ (∀ q', s.use q' ≠ .holding b) ∧
      t = ⟨s.cache.modify b fun h => { h with valid := true }, update s.use q (.holding b)⟩ := by
  simp only [sysStep] at h
  split at h
  · rename_i b hq
    split_ifs at h with hfree
    simp only [Option.some.injEq, Except.ok.injEq] at h
    exact ⟨b, hq, hfree, h.symm⟩
  · cases h

/-- `bwrite` and `log_write` change the flags of the held buffer. -/
theorem sysStep_bwrite_ok (h : s.sysStep (.bwrite q) = some (.ok t)) :
    ∃ b, s.use q = .holding b ∧
      t = ⟨s.cache.modify b fun h => { h with valid := true, dirty := false }, s.use⟩ := by
  simp only [sysStep] at h
  split at h
  · rename_i b hq
    simp only [Option.some.injEq, Except.ok.injEq] at h
    exact ⟨b, hq, h.symm⟩
  · cases h

theorem sysStep_logWrite_ok (h : s.sysStep (.logWrite q) = some (.ok t)) :
    ∃ b, s.use q = .holding b ∧ t = ⟨s.cache.modify b fun h => { h with dirty := true }, s.use⟩ := by
  simp only [sysStep] at h
  split at h
  · rename_i b hq
    simp only [Option.some.injEq, Except.ok.injEq] at h
    exact ⟨b, hq, h.symm⟩
  · cases h

theorem sysStep_brelse_ok (h : s.sysStep (.brelse q) = some (.ok t)) :
    ∃ b, s.use q = .holding b ∧ t = ⟨s.cache.brelse b, update s.use q .idle⟩ := by
  simp only [sysStep] at h
  split at h
  · rename_i b hq
    simp only [Option.some.injEq, Except.ok.injEq] at h
    exact ⟨b, hq, h.symm⟩
  · cases h

/-! ### The invariant -/

/-- **The invariant of `bio.c`**: the cache's own, `refcnt` counts the callers that got the buffer
and have not released it, a buffer's sleep lock has at most one holder, and a held buffer is
valid. -/
structure BioInv (s : BioSys n m) : Prop where
  cache : BCache.CacheInv s.cache
  refcnt : ∀ b, (s.cache.buf b).refcnt = tally s.use (·.uses b)
  excl : ∀ b q q', s.use q = .holding b → s.use q' = .holding b → q = q'
  valid : ∀ q b, s.use q = .holding b → (s.cache.buf b).valid = true

/-- A buffer a caller references has a reference count. -/
theorem BioInv.refcnt_pos (hs : BioInv s) {b : Fin n} (hq : (s.use q).uses b) :
    0 < (s.cache.buf b).refcnt := by
  rw [hs.refcnt b]
  exact tally_pos (fun u : BufUse n => u.uses b) hq

theorem BioInv.not_fresh (hs : BioInv s) {b : Fin n} (hq : (s.use q).uses b) :
    ¬(s.cache.buf b).Fresh := fun hf => by
  have := hs.refcnt_pos hq
  rw [hf.2] at this
  exact absurd this (Nat.lt_irrefl 0)

/-- A caller's change of its use of buffers moves each `refcnt` by the reference it adds or
drops. -/
theorem tally_use_update (use : Fin m → BufUse n) (q : Fin m) (u : BufUse n) (b : Fin n) :
    tally (update use q u) (·.uses b) + (if (use q).uses b then 1 else 0) =
      tally use (·.uses b) + (if u.uses b then 1 else 0) :=
  tally_update (fun u : BufUse n => u.uses b) use q u

/-- A change of the flags of a buffer a caller references keeps the invariant, when a holder still
sees a valid buffer. -/
theorem BioInv.setFlags (hs : BioInv s) {b : Fin n} (hq : (s.use q).uses b) (f : BufHdr → BufHdr)
    (hdev : (f (s.cache.buf b)).dev = (s.cache.buf b).dev)
    (hblk : (f (s.cache.buf b)).blockno = (s.cache.buf b).blockno)
    (hcnt : (f (s.cache.buf b)).refcnt = (s.cache.buf b).refcnt)
    (hval : (s.cache.buf b).valid = true → (f (s.cache.buf b)).valid = true) :
    BioInv ⟨s.cache.modify b f, s.use⟩ := by
  have hpos := hs.refcnt_pos hq
  have hnf' : ¬(f (s.cache.buf b)).Fresh := fun h => by
    rw [BufHdr.Fresh, hcnt] at h
    omega
  refine ⟨hs.cache.modify_known (hs.not_fresh hq) hnf' hdev hblk, ?_, hs.excl, ?_⟩
  · intro x
    by_cases hx : x = b
    · subst hx
      rw [BCache.modify_buf_self, hcnt]
      exact hs.refcnt x
    · rw [BCache.modify_buf_of_ne _ _ hx]
      exact hs.refcnt x
  · intro q' x hx
    by_cases hxb : x = b
    · subst hxb
      rw [BCache.modify_buf_self]
      exact hval (hs.valid q' x hx)
    · rw [BCache.modify_buf_of_ne _ _ hxb]
      exact hs.valid q' x hx

theorem BioInv.bget (hs : BioInv s) {dev blockno : ℕ} (h : s.sysStep (.bget q dev blockno) = some (.ok t)) :
    BioInv t := by
  obtain ⟨hq, c, b, hb, rfl⟩ := sysStep_bget_ok h
  obtain ⟨l, hl⟩ := hs.cache.ring
  -- the buffer returned gains one reference; nothing else changes
  have hcnt : ∀ f : BufHdr → BufHdr, (f (s.cache.buf b)).refcnt = (s.cache.buf b).refcnt + 1 →
      ∀ x, ((s.cache.modify b f).buf x).refcnt = tally (update s.use q (.waiting b)) (·.uses x) :=
    fun f hf x => by
      have hx := tally_use_update s.use q (.waiting b) x
      rw [hq] at hx
      by_cases hxb : x = b
      · subst hxb
        simp only [BufUse.uses_idle, if_false, BufUse.uses_waiting, if_true, add_zero] at hx
        rw [BCache.modify_buf_self, hf, hs.refcnt x, hx]
      · simp only [BufUse.uses_idle, if_false, BufUse.uses_waiting, if_neg (Ne.symm hxb),
          add_zero] at hx
        rw [BCache.modify_buf_of_ne _ _ hxb, hs.refcnt x, hx]
  have hexcl : ∀ x q₁ q₂, update s.use q (.waiting b) q₁ = .holding x →
      update s.use q (.waiting b) q₂ = .holding x → q₁ = q₂ := fun x q₁ q₂ h₁ h₂ => by
    by_cases h₁q : q₁ = q
    · subst h₁q
      simp at h₁
    by_cases h₂q : q₂ = q
    · subst h₂q
      simp at h₂
    rw [update_of_ne h₁q] at h₁
    rw [update_of_ne h₂q] at h₂
    exact hs.excl x q₁ q₂ h₁ h₂
  rcases hl.bget_eq_ok hb with ⟨hf, rfl⟩ | ⟨hmiss, hr, rfl⟩
  · refine ⟨hs.cache.hit hl hf, hcnt (fun h => { h with refcnt := h.refcnt + 1 }) rfl, hexcl,
      fun q' x hx => ?_⟩
    dsimp only at hx ⊢
    have hq' : q' ≠ q := by
      rintro rfl
      simp at hx
    rw [update_of_ne hq'] at hx
    by_cases hxb : x = b
    · subst hxb
      rw [BCache.modify_buf_self]
      exact hs.valid q' x hx
    · rw [BCache.modify_buf_of_ne _ _ hxb]
      exact hs.valid q' x hx
  · -- the recycled buffer was free: no caller referenced it
    have hfree : (s.cache.buf b).free = true :=
      List.find?_some (p := fun x => (s.cache.buf x).free) hr
    have hzero : (s.cache.buf b).refcnt = 0 := by
      simp only [BufHdr.free, Bool.and_eq_true, beq_iff_eq] at hfree
      exact hfree.1
    refine ⟨hs.cache.recycle hl hmiss, hcnt (fun _ => ⟨dev, blockno, false, false, 1⟩)
      (by rw [hzero]), hexcl, fun q' x hx => ?_⟩
    dsimp only at hx ⊢
    have hq' : q' ≠ q := by
      rintro rfl
      simp at hx
    rw [update_of_ne hq'] at hx
    have hxb : x ≠ b := by
      rintro rfl
      have := hs.refcnt x
      rw [hzero] at this
      exact absurd this.symm (Nat.pos_iff_ne_zero.mp
        (tally_pos (fun u : BufUse n => u.uses x) (f := s.use) (i := q') (by rw [hx]; rfl)))
    rw [BCache.modify_buf_of_ne _ _ hxb]
    exact hs.valid q' x hx

/-- `acquiresleep` by the only caller that will hold the buffer, after `iderw` made it valid. -/
theorem BioInv.hold (hs : BioInv s) {b : Fin n} (hq : s.use q = .waiting b)
    (hfree : ∀ q', s.use q' ≠ .holding b) (hv : (s.cache.buf b).valid = true) :
    BioInv ⟨s.cache, update s.use q (.holding b)⟩ := by
  refine ⟨hs.cache, fun x => ?_, fun x q₁ q₂ h₁ h₂ => ?_, fun q' x hx => ?_⟩
  · have hx := tally_use_update s.use q (.holding b) x
    rw [hq] at hx
    simp only [BufUse.uses_waiting, BufUse.uses_holding] at hx
    rw [hs.refcnt x]
    dsimp only
    omega
  · dsimp only at h₁ h₂
    by_cases h₁q : q₁ = q
    · by_cases h₂q : q₂ = q
      · rw [h₁q, h₂q]
      · rw [h₁q, update_self] at h₁
        rw [update_of_ne h₂q] at h₂
        cases h₁
        exact absurd h₂ (hfree q₂)
    · rw [update_of_ne h₁q] at h₁
      by_cases h₂q : q₂ = q
      · rw [h₂q, update_self] at h₂
        cases h₂
        exact absurd h₁ (hfree q₁)
      · rw [update_of_ne h₂q] at h₂
        exact hs.excl x q₁ q₂ h₁ h₂
  · dsimp only at hx ⊢
    by_cases hq' : q' = q
    · rw [hq', update_self] at hx
      cases hx
      exact hv
    · rw [update_of_ne hq'] at hx
      exact hs.valid q' x hx

theorem BioInv.acquire (hs : BioInv s) (h : s.sysStep (.acquire q) = some (.ok t)) : BioInv t := by
  obtain ⟨b, hq, hfree, rfl⟩ := sysStep_acquire_ok h
  have hs' := hs.setFlags (q := q) (b := b) (by rw [hq]; rfl) (fun h => { h with valid := true })
    rfl rfl rfl (fun _ => rfl)
  exact hs'.hold hq hfree (by simp)

/-- `brelse`: the holder drops its reference, and the buffer keeps its flags. -/
theorem BioInv.brelse (hs : BioInv s) (h : s.sysStep (.brelse q) = some (.ok t)) : BioInv t := by
  obtain ⟨b, hq, rfl⟩ := sysStep_brelse_ok h
  have hbuf := BCache.brelse_buf s.cache b
  refine ⟨hs.cache.brelse (hs.valid q b hq), fun x => ?_, fun x q₁ q₂ h₁ h₂ => ?_,
    fun q' x hx => ?_⟩
  · have hx := tally_use_update s.use q .idle x
    rw [hq] at hx
    simp only [BufUse.uses_holding, BufUse.uses_idle, if_false, add_zero] at hx
    dsimp only
    rw [hbuf]
    by_cases hxb : x = b
    · subst hxb
      rw [BCache.modify_buf_self, hs.refcnt x]
      simp only [if_true] at hx
      dsimp only
      omega
    · rw [BCache.modify_buf_of_ne _ _ hxb, hs.refcnt x]
      simp only [if_neg (Ne.symm hxb)] at hx
      omega
  · dsimp only at h₁ h₂
    have h₁q : q₁ ≠ q := fun e => by rw [e, update_self] at h₁; cases h₁
    have h₂q : q₂ ≠ q := fun e => by rw [e, update_self] at h₂; cases h₂
    rw [update_of_ne h₁q] at h₁
    rw [update_of_ne h₂q] at h₂
    exact hs.excl x q₁ q₂ h₁ h₂
  · dsimp only at hx ⊢
    have hq' : q' ≠ q := fun e => by rw [e, update_self] at hx; cases hx
    rw [update_of_ne hq'] at hx
    rw [hbuf]
    by_cases hxb : x = b
    · subst hxb
      rw [BCache.modify_buf_self]
      exact hs.valid q' x hx
    · rw [BCache.modify_buf_of_ne _ _ hxb]
      exact hs.valid q' x hx

theorem bioInv_init (hs : Init s) : BioInv s := by
  obtain ⟨r, rfl⟩ := hs
  refine ⟨BCache.cacheInv_binit r, fun b => ?_, fun _ _ _ h _ => ?_, fun _ _ h => ?_⟩
  · rw [((tally_eq_zero _ _).mpr fun _ h => h)]
    rfl
  · cases h
  · cases h

theorem bioInv_step {a : BioAct m} (hs : BioInv s) (h : s.step a = some t) : BioInv t := by
  have h' := step_eq_some.mp h
  cases a with
  | bget q dev blockno => exact hs.bget h'
  | acquire q => exact hs.acquire h'
  | bwrite q =>
    obtain ⟨b, hq, rfl⟩ := sysStep_bwrite_ok h'
    exact hs.setFlags (by rw [hq]; rfl) _ rfl rfl rfl fun _ => rfl
  | logWrite q =>
    obtain ⟨b, hq, rfl⟩ := sysStep_logWrite_ok h'
    exact hs.setFlags (by rw [hq]; rfl) _ rfl rfl rfl id
  | brelse q => exact hs.brelse h'

theorem bioInv_reachable (h : Reachable s) : BioInv s :=
  Run.Reachable.induction BioInv (fun _ hs => bioInv_init hs) (fun _ _ _ hs h => bioInv_step hs h) h

end BioSys

namespace BCache

variable {n : ℕ}

/-- **`bget` recycles only free buffers**: what it returns carried the block already, or had no
reference and no `B_DIRTY`. -/
theorem CacheInv.bget_recycles_free {c c' : BCache n} (hc : CacheInv c) {dev blockno : ℕ}
    {b : Fin n} (h : c.bget dev blockno = .ok (c', b)) :
    (c.buf b).holds dev blockno = true ∨ ((c.buf b).refcnt = 0 ∧ (c.buf b).dirty = false) := by
  obtain ⟨l, hl⟩ := hc.ring
  rcases hl.bget_eq_ok h with ⟨hf, -⟩ | ⟨-, hr, -⟩
  · exact Or.inl (List.find?_some (p := fun x => (c.buf x).holds dev blockno) hf)
  · have hfree := List.find?_some (p := fun x => (c.buf x).free) hr
    simp only [BufHdr.free, Bool.and_eq_true, beq_iff_eq, Bool.not_eq_true'] at hfree
    exact Or.inr hfree

end BCache

/-- **The buffer cache is well formed.**  In every state any interleaving of `bread`, `bwrite`,
`log_write` and `brelse` by any callers reaches after `binit`: the links are a ring through the
head holding every buffer once; each `refcnt` counts the `bget` returns no `brelse` has matched;
no two buffers that are valid or referenced carry one block; `bget` returns such a buffer when it
carries the block; and `bget` returns a buffer carrying the block or one with `refcnt == 0` and no
`B_DIRTY`. -/
theorem bcache_well_formed {n m : ℕ} {s : BioSys n m} (hs : s.Reachable) :
    (∃ l : List (Fin n), l.Nodup ∧ (∀ b, b ∈ l) ∧ s.cache.links = ofList l) ∧
      (∀ b, (s.cache.buf b).refcnt = tally s.use (·.uses b)) ∧
      (∀ b b' dev blockno, ¬(s.cache.buf b).Fresh → ¬(s.cache.buf b').Fresh →
        (s.cache.buf b).holds dev blockno = true → (s.cache.buf b').holds dev blockno = true →
          b = b') ∧
      (∀ b dev blockno, ¬(s.cache.buf b).Fresh → (s.cache.buf b).holds dev blockno = true →
        s.cache.bget dev blockno = .ok (s.cache.modify b fun h => { h with refcnt := h.refcnt + 1 }, b)) ∧
      ∀ dev blockno c b, s.cache.bget dev blockno = .ok (c, b) →
        (s.cache.buf b).holds dev blockno = true ∨
          ((s.cache.buf b).refcnt = 0 ∧ (s.cache.buf b).dirty = false) := by
  have hinv := BioSys.bioInv_reachable hs
  obtain ⟨l, hl⟩ := hinv.cache.ring
  exact ⟨⟨l, hl.nodup, hl.mem, hl.links⟩, hinv.refcnt, hinv.cache.unique,
    fun _ _ _ hb hh => hinv.cache.bget_hit hb hh, fun _ _ _ _ h => hinv.cache.bget_recycles_free h⟩

/-- Two buffers and one caller, right after `binit`. -/
theorem bcache_well_formed_binit : ∃ s : BioSys 2 1, s.Reachable ∧
    ((∃ l : List (Fin 2), l.Nodup ∧ (∀ b, b ∈ l) ∧ s.cache.links = ofList l) ∧
      (∀ b, (s.cache.buf b).refcnt = tally s.use (·.uses b)) ∧
      (∀ b b' dev blockno, ¬(s.cache.buf b).Fresh → ¬(s.cache.buf b').Fresh →
        (s.cache.buf b).holds dev blockno = true → (s.cache.buf b').holds dev blockno = true →
          b = b') ∧
      (∀ b dev blockno, ¬(s.cache.buf b).Fresh → (s.cache.buf b).holds dev blockno = true →
        s.cache.bget dev blockno = .ok (s.cache.modify b fun h => { h with refcnt := h.refcnt + 1 }, b)) ∧
      ∀ dev blockno c b, s.cache.bget dev blockno = .ok (c, b) →
        (s.cache.buf b).holds dev blockno = true ∨
          ((s.cache.buf b).refcnt = 0 ∧ (s.cache.buf b).dirty = false)) :=
  ⟨_, @BioSys.reachable_of_exec 2 1 ⟨fun _ => none, fun _ => none⟩ [] _ rfl,
    bcache_well_formed (@BioSys.reachable_of_exec 2 1 ⟨fun _ => none, fun _ => none⟩ [] _ rfl)⟩

/-- **Block `0` of device `0` in two buffers**: the zeroed buffers all carry it, and `bread(0, 0)`
takes the first of them, `NBUF - 1`, leaving `NBUF - 2` carrying the same block. -/
theorem bcache_zero_block_twice :
    ∃ s : BioSys NBUF 1,
      BioSys.exec ⟨fun _ => none, fun _ => none⟩ [.bget 0 0 0, .acquire 0, .brelse 0] = some s ∧
      (s.cache.buf ⟨NBUF - 1, by decide⟩).valid = true ∧
      (s.cache.buf ⟨NBUF - 1, by decide⟩).holds 0 0 = true ∧
      (s.cache.buf ⟨NBUF - 2, by decide⟩).holds 0 0 = true := by
  have h : (BioSys.exec (m := 1) (⟨fun _ => none, fun _ => none⟩ : Links (Fin NBUF))
      [.bget 0 0 0, .acquire 0, .brelse 0]).map (fun s =>
        ((s.cache.buf ⟨NBUF - 1, by decide⟩).valid, (s.cache.buf ⟨NBUF - 1, by decide⟩).holds 0 0,
          (s.cache.buf ⟨NBUF - 2, by decide⟩).holds 0 0)) = some (true, true, true) := by
    decide
  cases hs : BioSys.exec (m := 1) (⟨fun _ => none, fun _ => none⟩ : Links (Fin NBUF))
      [.bget 0 0 0, .acquire 0, .brelse 0] with
  | none => rw [hs] at h; cases h
  | some s =>
    rw [hs] at h
    simp only [Option.map_some, Option.some.injEq, Prod.mk.injEq] at h
    exact ⟨s, rfl, h.1, h.2.1, h.2.2⟩

end Xv6Lab
