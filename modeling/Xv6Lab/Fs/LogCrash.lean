import Xv6Lab.Fs.Layout
import Xv6Lab.Kernel.SyscallLog
import Xv6Lab.Lib.Writes

/-!
# Crash atomicity of the log (`log.c`)

The file system writes the disk only in `commit()`, through `bwrite`, and `iderw` writes one
block at a time: a crash leaves the disk that some prefix of the block writes gives.  A commit
issues, for the header `log.lh` and the cached contents `cache` of the blocks it names,

1. `write_log`: `cache[log.lh.block[tail]]` to the log slot `log.start + tail + 1`;
2. `write_head`: the header, naming the blocks, to `log.start` (the commit point);
3. `install_trans`: each log slot, as the disk holds it, to its block's home;
4. `write_head` of the empty header.

`initlog` runs `recover_from_log`: `read_head`, `install_trans`, and the empty header again.

* `readHead_writeHead` — the header a `write_head` leaves is the one `read_head` reads;
* `commit_crash`, `commit_done` — after a crash anywhere in one commit, recovery leaves every
  home block as before the commit or as after it;
* `recoverCrashing_eq` — a recovery cut short by a crash, any number of times, and then run in
  full leaves the disk a single recovery leaves;
* `log_crash_atomic` — for any run of commits and any crash point, recovery leaves the home
  blocks as some prefix of the transactions does, and the log empty.
-/

namespace Xv6Lab

open Function Bytes

/-! ### The header block -/

/-- `lh->n`, an `int` at offset `0` of the header block, as a loop bound. -/
def headCount (buf : Buf) : ℕ := (uintToInt (getLE buf 0 4)).toNat

/-- `lh->block[i]` for `i` from `tail`, `n` of them; `block[i]` is at offset `4 + 4*i`. -/
def readBlocks (buf : Buf) (tail : ℕ) : ℕ → List ℕ
  | 0 => []
  | n + 1 => getLE buf (4 + 4 * tail) 4 :: readBlocks buf (tail + 1) n

/-- `read_head`: `log.lh.n = lh->n` and `log.lh.block[i] = lh->block[i]` for `i < n`. -/
def readHead (buf : Buf) : List ℕ := readBlocks buf 0 (headCount buf)

/-- `hb->block[i] = log.lh.block[i]` for the entries from `tail`. -/
def putBlocks (buf : Buf) (tail : ℕ) : List ℕ → Buf
  | [] => buf
  | b :: bs => putBlocks (setLE buf (4 + 4 * tail) 4 b) (tail + 1) bs

/-- `write_head`'s change to the header buffer: `hb->n = log.lh.n` and the `n` entries; the
rest of the block keeps what it held. -/
def writeHead (buf : Buf) (lh : List ℕ) : Buf := putBlocks (setLE buf 0 4 lh.length) 0 lh

theorem getLE_putBlocks_of_le {buf : Buf} {o tail : ℕ} (lh : List ℕ) (h : o + 4 ≤ 4 + 4 * tail) :
    getLE (putBlocks buf tail lh) o 4 = getLE buf o 4 := by
  induction lh generalizing buf tail with
  | nil => rfl
  | cons b bs ih =>
    rw [putBlocks, ih (by omega)]
    exact getLE_setLE_of_disjoint (Or.inl h)

theorem readBlocks_putBlocks {buf : Buf} {tail : ℕ} {lh : List ℕ} (hw : ∀ b ∈ lh, b < 2 ^ 32) :
    readBlocks (putBlocks buf tail lh) tail lh.length = lh := by
  induction lh generalizing buf tail with
  | nil => rfl
  | cons b bs ih =>
    have hb : b < 256 ^ 4 := by
      have := hw b List.mem_cons_self
      omega
    rw [List.length_cons, readBlocks, putBlocks, getLE_putBlocks_of_le bs (by omega),
      getLE_setLE _ _ hb, ih fun b' hb' => hw b' (List.mem_cons_of_mem _ hb')]

/-- **The header round trip**: `read_head` after `write_head` reads the header written. -/
theorem readHead_writeHead (buf : Buf) {lh : List ℕ} (hn : lh.length < 2 ^ 31)
    (hw : ∀ b ∈ lh, b < 2 ^ 32) : readHead (writeHead buf lh) = lh := by
  have hcount : headCount (writeHead buf lh) = lh.length := by
    rw [headCount, writeHead, getLE_putBlocks_of_le lh (by omega), getLE_setLE _ _ (by omega),
      uintToInt, if_pos hn]
    rfl
  rw [readHead, hcount]
  exact readBlocks_putBlocks hw

@[simp] theorem readHead_writeHead_nil (buf : Buf) : readHead (writeHead buf []) = [] :=
  readHead_writeHead buf (by decide) (by simp)

/-- Emptying an empty header changes nothing. -/
theorem writeHead_writeHead_nil (buf : Buf) :
    writeHead (writeHead buf []) [] = writeHead buf [] := by
  funext k
  simp only [writeHead, putBlocks, List.length_nil, setLE, place]
  split_ifs <;> rfl

/-! ### The writes of a commit and of a recovery -/

/-- The log occupies `log.start` (the header) and the `LOGSIZE - 1` slots after it; every other
block is a home block. -/
def Home (start a : ℕ) : Prop := a < start ∨ start + LOGSIZE ≤ a

instance (start a : ℕ) : Decidable (Home start a) := by unfold Home; infer_instance

/-- Two disks that agree on every home block. -/
def HomeEq (start : ℕ) (d d' : Disk) : Prop := ∀ a, Home start a → d a = d' a

/-- What a transaction's header satisfies: it fits the log (`log_write` keeps `log.lh.n` below
`log.size - 1 = LOGSIZE - 1`), it names home blocks, and its entries are block numbers. -/
structure TxOk (start : ℕ) (lh : List ℕ) : Prop where
  length_lt : lh.length < LOGSIZE
  home : ∀ b ∈ lh, Home start b
  word : ∀ b ∈ lh, b < 2 ^ 32

instance (start : ℕ) (lh : List ℕ) : Decidable (TxOk start lh) :=
  decidable_of_iff (lh.length < LOGSIZE ∧ (∀ b ∈ lh, Home start b) ∧ ∀ b ∈ lh, b < 2 ^ 32)
    ⟨fun h => ⟨h.1, h.2.1, h.2.2⟩, fun h => ⟨h.1, h.2, h.3⟩⟩

/-- `write_log` from entry `tail` on: the cached contents of `log.lh.block[tail]` to log slot
`log.start + tail + 1`. -/
def writeLog (start : ℕ) (cache : Disk) (tail : ℕ) : List ℕ → List (ℕ × Buf)
  | [] => []
  | b :: bs => (start + tail + 1, cache b) :: writeLog start cache (tail + 1) bs

/-- `install_trans` from entry `tail` on: log slot `log.start + tail + 1` to block
`log.lh.block[tail]`.  `bread` of a log slot returns what the disk holds, since a log slot is
written only through `bwrite`. -/
def installTrans (start : ℕ) (d : Disk) (tail : ℕ) : List ℕ → List (ℕ × Buf)
  | [] => []
  | b :: bs => (b, d (start + tail + 1)) :: installTrans start d (tail + 1) bs

/-- `commit()` with `log.lh = lh` on the disk `d`, the logged blocks holding `cache` in the
buffer cache: nothing when `log.lh.n = 0`, else `write_log`, `write_head`, `install_trans` and
`write_head` of the emptied header, each reading the disk the writes before it left. -/
def commitWrites (start : ℕ) (cache d : Disk) (lh : List ℕ) : List (ℕ × Buf) :=
  if 0 < lh.length then
    let w1 := writeLog start cache 0 lh
    let d1 := Writes.apply d w1
    let d2 := update d1 start (writeHead (d1 start) lh)
    let w3 := installTrans start d2 0 lh
    w1 ++ (start, d2 start) :: (w3 ++ [(start, writeHead (Writes.apply d2 w3 start) [])])
  else []

/-- `recover_from_log`: `read_head`, `install_trans`, then `log.lh.n = 0` and `write_head`. -/
def recoverWrites (start : ℕ) (d : Disk) : List (ℕ × Buf) :=
  let w := installTrans start d 0 (readHead (d start))
  w ++ [(start, writeHead (Writes.apply d w start) [])]

/-- The disk `initlog` leaves. -/
def recover (start : ℕ) (d : Disk) : Disk := Writes.apply d (recoverWrites start d)

/-- Recovery cut short by a crash after `k` of its writes, for each `k` in turn, and then run in
full. -/
def recoverCrashing (start : ℕ) (d : Disk) : List ℕ → Disk
  | [] => recover start d
  | k :: ks => recoverCrashing start (Writes.apply d ((recoverWrites start d).take k)) ks

/-- A transaction: the header `log.lh` at its commit and the buffer cache's contents then. -/
abbrev Tx := List ℕ × Disk

/-- The disk writes of a run of commits from the disk `d`. -/
def runWrites (start : ℕ) : Disk → List Tx → List (ℕ × Buf)
  | _, [] => []
  | d, tx :: txs =>
    commitWrites start tx.2 d tx.1 ++
      runWrites start (Writes.apply d (commitWrites start tx.2 d tx.1)) txs

/-- What a transaction means: each block it names holds its cached contents. -/
def installed (d : Disk) (tx : Tx) : Disk := Writes.apply d (tx.1.map fun b => (b, tx.2 b))

/-- The disk after the transactions `txs`, each installed whole. -/
def committed (d : Disk) (txs : List Tx) : Disk := txs.foldl installed d

section Crash

variable {start : ℕ}

/-! ### Where the writes land -/

theorem HomeEq.refl (d : Disk) : HomeEq start d d := fun _ _ => rfl

theorem HomeEq.trans {d d' d'' : Disk} (h : HomeEq start d d') (h' : HomeEq start d' d'') :
    HomeEq start d d'' := fun a ha => (h a ha).trans (h' a ha)

/-- A home block is neither the header nor a slot the log uses. -/
theorem Home.ne_slot {a : ℕ} (ha : Home start a) {i : ℕ} (hi : i + 1 < LOGSIZE) :
    a ≠ start + i + 1 := by
  unfold Home at ha
  omega

theorem Home.ne_start {a : ℕ} (ha : Home start a) : a ≠ start := by
  unfold Home at ha
  have : 0 < LOGSIZE := by decide
  omega

theorem writeLog_addr {cache : Disk} {tail : ℕ} {lh : List ℕ} {w : ℕ × Buf}
    (hw : w ∈ writeLog start cache tail lh) : start + tail < w.1 ∧ w.1 ≤ start + tail + lh.length := by
  induction lh generalizing tail with
  | nil => cases hw
  | cons b bs ih =>
    rcases List.mem_cons.mp hw with rfl | hw
    · simp only [List.length_cons]
      omega
    · have := ih hw
      simp only [List.length_cons]
      omega

theorem installTrans_addr {d : Disk} {tail : ℕ} {lh : List ℕ} {w : ℕ × Buf}
    (hw : w ∈ installTrans start d tail lh) : w.1 ∈ lh := by
  induction lh generalizing tail with
  | nil => cases hw
  | cons b bs ih =>
    rcases List.mem_cons.mp hw with rfl | hw
    · exact List.mem_cons_self
    · exact List.mem_cons_of_mem _ (ih hw)

/-- After `write_log`, slot `tail + i` holds the cached contents of the `i`-th block. -/
theorem apply_writeLog_slot (cache d : Disk) {tail i : ℕ} {lh : List ℕ} (hi : i < lh.length) :
    Writes.apply d (writeLog start cache tail lh) (start + tail + i + 1) = cache lh[i] := by
  induction lh generalizing d tail i with
  | nil => cases hi
  | cons b bs ih =>
    cases i with
    | zero =>
      have hne : ∀ w ∈ writeLog start cache (tail + 1) bs, w.1 ≠ start + tail + 0 + 1 :=
        fun w hw => by have := writeLog_addr hw; omega
      rw [writeLog, Writes.apply_cons, Writes.apply_of_forall_ne hne]
      exact update_self _ _ _
    | succ j =>
      rw [writeLog, Writes.apply_cons, show start + tail + (j + 1) + 1 = start + (tail + 1) + j + 1 by
        omega]
      exact ih _ (by simpa using hi)

/-- `install_trans` reads only the slots of its entries. -/
theorem installTrans_congr {d d' : Disk} {tail : ℕ} {lh : List ℕ}
    (h : ∀ i < lh.length, d (start + tail + i + 1) = d' (start + tail + i + 1)) :
    installTrans start d tail lh = installTrans start d' tail lh := by
  induction lh generalizing tail with
  | nil => rfl
  | cons b bs ih =>
    have htail : ∀ i < bs.length,
        d (start + (tail + 1) + i + 1) = d' (start + (tail + 1) + i + 1) := fun i hi => by
      rw [show start + (tail + 1) + i + 1 = start + tail + (i + 1) + 1 by omega]
      exact h (i + 1) (by simpa using hi)
    rw [installTrans, installTrans, h 0 (by simp), ih htail]

/-- Where the slots hold the cached contents, `install_trans` writes each block's contents home. -/
theorem installTrans_eq_map {d cache : Disk} {tail : ℕ} {lh : List ℕ}
    (h : ∀ (i : ℕ) (hi : i < lh.length), d (start + tail + i + 1) = cache lh[i]) :
    installTrans start d tail lh = lh.map fun b => (b, cache b) := by
  induction lh generalizing tail with
  | nil => rfl
  | cons b bs ih =>
    have htail : ∀ (i : ℕ) (hi : i < bs.length), d (start + (tail + 1) + i + 1) = cache bs[i] :=
      fun i hi => by
        rw [show start + (tail + 1) + i + 1 = start + tail + (i + 1) + 1 by omega]
        exact h (i + 1) (by simpa using hi)
    rw [installTrans, List.map_cons, h 0 (by simp), ih htail]
    rfl

/-! ### Recovery -/

theorem txOk_nil : TxOk start [] := ⟨by decide, by simp, by simp⟩

/-- Recovery's `install_trans`, and the header it empties last. -/
theorem recover_eq (d : Disk) :
    recover start d = update (Writes.apply d (installTrans start d 0 (readHead (d start)))) start
      (writeHead (Writes.apply d (installTrans start d 0 (readHead (d start))) start) []) := by
  rw [recover, recoverWrites, Writes.apply_append]
  rfl

/-- A home block after recovery: what `install_trans` left. -/
theorem recover_home (d : Disk) {a : ℕ} (ha : Home start a) :
    recover start d a = Writes.apply d (installTrans start d 0 (readHead (d start))) a := by
  rw [recover_eq, update_of_ne ha.ne_start]

/-- Recovery leaves the log empty. -/
theorem readHead_recover (d : Disk) : readHead (recover start d start) = [] := by
  rw [recover_eq, update_self, readHead_writeHead_nil]

/-- Recovery of an empty log only empties the header again. -/
theorem recover_of_readHead_nil {d : Disk} (h : readHead (d start) = []) :
    recover start d = update d start (writeHead (d start) []) := by
  rw [recover_eq, h]
  rfl

/-- Recovery of a committed log: each block it names gets its slot's contents. -/
theorem recover_homeEq_installed {d cache : Disk} {lh : List ℕ} (hhead : readHead (d start) = lh)
    (hslot : ∀ (i : ℕ) (hi : i < lh.length), d (start + i + 1) = cache lh[i]) :
    HomeEq start (recover start d) (installed d (lh, cache)) := by
  have hinst : installTrans start d 0 lh = lh.map fun b => (b, cache b) :=
    installTrans_eq_map fun i hi => by rw [Nat.add_zero]; exact hslot i hi
  intro a ha
  rw [recover_home d ha, hhead, hinst]
  rfl

/-- Writes home leave the header and the slots alone. -/
theorem apply_home_of_log {d : Disk} {ws : List (ℕ × Buf)} (hws : ∀ w ∈ ws, Home start w.1)
    {x : ℕ} (hx : ¬Home start x) : Writes.apply d ws x = d x :=
  Writes.apply_of_forall_ne fun w hw hwx => hx (hwx ▸ hws w hw)

/-- The writes of a log's `install_trans` go home. -/
theorem installTrans_home {d : Disk} {lh : List ℕ} (hok : TxOk start lh) :
    ∀ w ∈ installTrans start d 0 lh, Home start w.1 :=
  fun _ hw => hok.home _ (installTrans_addr hw)

theorem not_home_start : ¬Home start start := by
  unfold Home
  have : 0 < LOGSIZE := by decide
  omega

theorem not_home_slot {i : ℕ} (hi : i + 1 < LOGSIZE) : ¬Home start (start + i + 1) := by
  unfold Home
  omega

/-- **A crash inside recovery** leaves a disk whose recovery is the recovery of the disk before:
the part of `install_trans` that ran is written again, and a second emptying of the header
changes nothing. -/
theorem recover_take {d : Disk} (hok : TxOk start (readHead (d start))) (k : ℕ) :
    TxOk start (readHead (Writes.apply d ((recoverWrites start d).take k) start)) ∧
      recover start (Writes.apply d ((recoverWrites start d).take k)) = recover start d := by
  have hlen := hok.length_lt
  rw [recoverWrites, Writes.apply_take_append]
  split_ifs with hk
  · -- the crash came inside `install_trans`: the header and the slots are as they were
    have hI := installTrans_home (d := d) hok
    have hI' : ∀ w ∈ (installTrans start d 0 (readHead (d start))).take k, Home start w.1 :=
      fun w hw => hI w (List.mem_of_mem_take hw)
    have hstart := apply_home_of_log (d := d) hI' not_home_start
    refine ⟨by rw [hstart]; exact hok, ?_⟩
    have hslots : installTrans start (Writes.apply d ((installTrans start d 0
        (readHead (d start))).take k)) 0 (readHead (d start)) =
        installTrans start d 0 (readHead (d start)) :=
      installTrans_congr fun i hi => apply_home_of_log hI' (not_home_slot (by omega))
    rw [recover_eq, recover_eq, hstart, hslots, Writes.apply_apply_take]
  · -- the crash came after the last write: recovery has run in full
    have hdone : Writes.apply (Writes.apply d (installTrans start d 0 (readHead (d start))))
        ([(start, writeHead (Writes.apply d (installTrans start d 0 (readHead (d start))) start) [])].take
          (k - (installTrans start d 0 (readHead (d start))).length)) = recover start d := by
      rw [List.take_of_length_le (by simp; omega), recover, recoverWrites, Writes.apply_append]
    rw [hdone, recover_of_readHead_nil (readHead_recover d)]
    refine ⟨by rw [readHead_recover d]; exact txOk_nil, ?_⟩
    have hfix : writeHead (recover start d start) [] = recover start d start := by
      rw [recover_eq, update_self, writeHead_writeHead_nil]
    rw [hfix, update_eq_self]

/-- **Recovery is idempotent under crashes**: cut short any number of times, then run in full,
it leaves the disk one recovery leaves. -/
theorem recoverCrashing_eq {d : Disk} (hok : TxOk start (readHead (d start))) (ks : List ℕ) :
    recoverCrashing start d ks = recover start d := by
  induction ks generalizing d with
  | nil => rfl
  | cons k ks ih =>
    obtain ⟨hok', heq⟩ := recover_take hok k
    rw [recoverCrashing, ih hok', heq]

/-! ### A commit -/

theorem homeEq_update_start (d : Disk) (buf : Buf) : HomeEq start (update d start buf) d :=
  fun _ ha => update_of_ne ha.ne_start _ _

theorem installed_congr {d d' : Disk} (h : HomeEq start d d') (tx : Tx) :
    HomeEq start (installed d tx) (installed d' tx) :=
  fun _ ha => Writes.apply_congr_at _ (h _ ha)

/-- The disk at the commit point: the slots written and the header naming the transaction. -/
def commitPoint (start : ℕ) (cache d : Disk) (lh : List ℕ) : Disk :=
  update (Writes.apply d (writeLog start cache 0 lh)) start (writeHead (d start) lh)

/-- `write_log` writes slots only, not the header. -/
theorem writeLog_not_home {cache : Disk} {lh : List ℕ} (hok : TxOk start lh) :
    ∀ w ∈ writeLog start cache 0 lh, ¬Home start w.1 ∧ w.1 ≠ start := by
  intro w hw
  have := writeLog_addr hw
  have hlen := hok.length_lt
  unfold Home
  omega

/-- At the commit point the header names the transaction, its slots hold the blocks' cached
contents, and the home blocks are untouched. -/
theorem commitPoint_spec (cache d : Disk) {lh : List ℕ} (hok : TxOk start lh) :
    readHead (commitPoint start cache d lh start) = lh ∧
      (∀ (i : ℕ) (hi : i < lh.length), commitPoint start cache d lh (start + i + 1) = cache lh[i]) ∧
      HomeEq start (commitPoint start cache d lh) d := by
  have hlen := hok.length_lt
  refine ⟨?head, ?slot, ?home⟩
  case head =>
    rw [commitPoint, update_self]
    exact readHead_writeHead _ (lt_trans hlen (by decide)) hok.word
  case slot =>
    intro i hi
    rw [commitPoint, update_of_ne (by omega)]
    simpa using @apply_writeLog_slot start cache d 0 i lh hi
  case home =>
    intro a ha
    rw [commitPoint, update_of_ne ha.ne_start]
    exact Writes.apply_of_forall_ne fun w hw hwa => (writeLog_not_home hok w hw).1 (hwa ▸ ha)

/-- The writes of a commit that logged something: the slots, the header, each block's cached
contents home (what `install_trans` reads back from the slots), and the emptied header. -/
theorem commitWrites_eq {cache d : Disk} {lh : List ℕ} (hok : TxOk start lh) (hne : 0 < lh.length) :
    commitWrites start cache d lh = writeLog start cache 0 lh ++
      (start, writeHead (d start) lh) :: (lh.map (fun b => (b, cache b)) ++
        [(start, writeHead (writeHead (d start) lh) [])]) := by
  obtain ⟨-, hslot, -⟩ := commitPoint_spec cache d hok
  have h1 : Writes.apply d (writeLog start cache 0 lh) start = d start :=
    Writes.apply_of_forall_ne fun w hw => (writeLog_not_home hok w hw).2
  have h3 : installTrans start (commitPoint start cache d lh) 0 lh = lh.map fun b => (b, cache b) :=
    installTrans_eq_map fun i hi => by rw [Nat.add_zero]; exact hslot i hi
  have h4 : Writes.apply (commitPoint start cache d lh) (lh.map fun b => (b, cache b)) start =
      writeHead (d start) lh := by
    rw [apply_home_of_log (fun w hw => ?_) not_home_start, commitPoint, update_self]
    obtain ⟨b, hb, rfl⟩ := List.mem_map.mp hw
    exact hok.home b hb
  unfold commitPoint at h3 h4
  simp only [commitWrites, if_pos hne, h1, update_self, h3, h4]

/-- A crash inside `install_trans`: recovery installs the whole transaction. -/
theorem recover_installing {cache d : Disk} {lh : List ℕ} (hok : TxOk start lh) (m : ℕ) :
    TxOk start (readHead (Writes.apply (commitPoint start cache d lh)
        ((lh.map fun b => (b, cache b)).take m) start)) ∧
      HomeEq start (recover start (Writes.apply (commitPoint start cache d lh)
        ((lh.map fun b => (b, cache b)).take m))) (installed d (lh, cache)) := by
  obtain ⟨hhead, hslot, hhome⟩ := commitPoint_spec cache d hok
  have hlen := hok.length_lt
  have hM : ∀ w ∈ (lh.map fun b => (b, cache b)).take m, Home start w.1 := fun w hw => by
    obtain ⟨b, hb, rfl⟩ := List.mem_map.mp (List.mem_of_mem_take hw)
    exact hok.home b hb
  -- the writes home leave the header and the slots as the commit point has them
  have hhead' : readHead (Writes.apply (commitPoint start cache d lh)
      ((lh.map fun b => (b, cache b)).take m) start) = lh := by
    rw [apply_home_of_log hM not_home_start, hhead]
  have hslot' : ∀ (i : ℕ) (hi : i < lh.length), Writes.apply (commitPoint start cache d lh)
      ((lh.map fun b => (b, cache b)).take m) (start + i + 1) = cache lh[i] := fun i hi => by
    rw [apply_home_of_log hM (not_home_slot (by omega))]
    exact hslot i hi
  refine ⟨by rw [hhead']; exact hok, ?_⟩
  have hrec := recover_homeEq_installed hhead' hslot'
  rw [installed, Writes.apply_apply_take] at hrec
  exact hrec.trans (installed_congr hhome (lh, cache))

/-- After the header is emptied: the transaction is home and the log is empty. -/
theorem commit_cleared (cache d : Disk) {lh : List ℕ} (hok : TxOk start lh) :
    readHead (update (Writes.apply (commitPoint start cache d lh) (lh.map fun b => (b, cache b)))
        start (writeHead (writeHead (d start) lh) []) start) = [] ∧
      HomeEq start (update (Writes.apply (commitPoint start cache d lh)
        (lh.map fun b => (b, cache b))) start (writeHead (writeHead (d start) lh) []))
        (installed d (lh, cache)) := by
  obtain ⟨-, -, hhome⟩ := commitPoint_spec cache d hok
  refine ⟨by rw [update_self, readHead_writeHead_nil], ?_⟩
  exact (homeEq_update_start _ _).trans (installed_congr hhome (lh, cache))

/-- **A crash anywhere in a commit**: recovery leaves every home block as before the commit, or
as after it. -/
theorem commit_crash {cache d : Disk} {lh : List ℕ} (hd : readHead (d start) = [])
    (hok : TxOk start lh) (k : ℕ) :
    TxOk start (readHead (Writes.apply d ((commitWrites start cache d lh).take k) start)) ∧
      (HomeEq start (recover start (Writes.apply d ((commitWrites start cache d lh).take k))) d ∨
        HomeEq start (recover start (Writes.apply d ((commitWrites start cache d lh).take k)))
          (installed d (lh, cache))) := by
  by_cases hne : 0 < lh.length
  · rw [commitWrites_eq hok hne, Writes.apply_take_append]
    split_ifs with hk
    · -- inside `write_log`: the header is still empty and no home block is written
      have hw : ∀ w ∈ (writeLog start cache 0 lh).take k, ¬Home start w.1 ∧ w.1 ≠ start :=
        fun w hw => writeLog_not_home hok w (List.mem_of_mem_take hw)
      have hstart : Writes.apply d ((writeLog start cache 0 lh).take k) start = d start :=
        Writes.apply_of_forall_ne fun w hw' => (hw w hw').2
      refine ⟨by rw [hstart, hd]; exact txOk_nil, Or.inl fun a ha => ?_⟩
      rw [recover_of_readHead_nil (by rw [hstart, hd]), update_of_ne ha.ne_start]
      exact Writes.apply_of_forall_ne fun w hw' hwa => (hw w hw').1 (hwa ▸ ha)
    · -- past the commit point
      obtain ⟨m, hm⟩ : ∃ m, k - (writeLog start cache 0 lh).length = m + 1 :=
        ⟨_, (Nat.succ_pred_eq_of_pos (by omega)).symm⟩
      rw [hm, List.take_succ_cons, Writes.apply_cons]
      dsimp only
      rw [← commitPoint.eq_1, Writes.apply_take_append]
      split_ifs with hm'
      · exact ⟨(recover_installing hok m).1, Or.inr (recover_installing hok m).2⟩
      · rw [List.take_of_length_le (by rw [List.length_singleton]; omega), Writes.apply_cons,
          Writes.apply_nil]
        obtain ⟨hclear, hhome⟩ := commit_cleared cache d hok
        refine ⟨by rw [hclear]; exact txOk_nil, Or.inr ?_⟩
        rw [recover_of_readHead_nil hclear]
        exact (homeEq_update_start _ _).trans hhome
  · -- nothing logged: `commit()` writes nothing
    have hnil : lh = [] := List.eq_nil_of_length_eq_zero (by omega)
    subst hnil
    refine ⟨by simpa [commitWrites, hd] using (txOk_nil : TxOk start []), Or.inl ?_⟩
    simp only [commitWrites, List.length_nil, lt_self_iff_false, if_false, List.take_nil,
      Writes.apply_nil]
    rw [recover_of_readHead_nil hd]
    exact homeEq_update_start _ _

/-- A commit that ran to its end: the transaction is home and the log is empty. -/
theorem commit_done (cache : Disk) {d : Disk} {lh : List ℕ} (hd : readHead (d start) = [])
    (hok : TxOk start lh) :
    readHead (Writes.apply d (commitWrites start cache d lh) start) = [] ∧
      HomeEq start (Writes.apply d (commitWrites start cache d lh)) (installed d (lh, cache)) := by
  by_cases hne : 0 < lh.length
  · rw [commitWrites_eq hok hne]
    simp only [Writes.apply_append, Writes.apply_cons, Writes.apply_nil]
    rw [← commitPoint.eq_1]
    exact commit_cleared cache d hok
  · have hnil : lh = [] := List.eq_nil_of_length_eq_zero (by omega)
    subst hnil
    exact ⟨by simpa [commitWrites] using hd, fun _ _ => rfl⟩

/-! ### A run of commits -/

theorem committed_cons (d : Disk) (tx : Tx) (txs : List Tx) :
    committed d (tx :: txs) = committed (installed d tx) txs := rfl

theorem committed_congr {d d' : Disk} (h : HomeEq start d d') (txs : List Tx) :
    HomeEq start (committed d txs) (committed d' txs) := by
  induction txs generalizing d d' with
  | nil => exact h
  | cons tx txs ih => exact ih (installed_congr h tx)

/-- A crash anywhere in a run of commits, then one recovery: the home blocks are as some prefix
of the transactions leaves them.  By induction on the run: a crash inside the first commit is
`commit_crash`; a crash after it is a crash in the rest, from the clean disk `commit_done`
leaves. -/
theorem runWrites_crash {d : Disk} (hd : readHead (d start) = []) {txs : List Tx}
    (hok : ∀ tx ∈ txs, TxOk start tx.1) (k : ℕ) :
    TxOk start (readHead (Writes.apply d ((runWrites start d txs).take k) start)) ∧
      ∃ j ≤ txs.length, HomeEq start (recover start (Writes.apply d ((runWrites start d txs).take k)))
        (committed d (txs.take j)) := by
  induction txs generalizing d k with
  | nil =>
    simp only [runWrites, List.take_nil, Writes.apply_nil]
    refine ⟨by rw [hd]; exact txOk_nil, 0, le_rfl, ?_⟩
    rw [recover_of_readHead_nil hd]
    exact homeEq_update_start _ _
  | cons tx txs ih =>
    obtain ⟨lh, cache⟩ := tx
    have htx : TxOk start lh := hok (lh, cache) List.mem_cons_self
    rw [runWrites, Writes.apply_take_append]
    split_ifs with hk
    · -- the crash came inside this commit
      obtain ⟨hok', hbefore | hafter⟩ := commit_crash hd htx k
      · exact ⟨hok', 0, Nat.zero_le _, hbefore⟩
      · exact ⟨hok', 1, by simp, hafter⟩
    · -- the crash came after it: the rest runs from a clean log with this commit home
      obtain ⟨hclean, hhome⟩ := commit_done cache hd htx
      obtain ⟨hok', j, hj, hrec⟩ :=
        ih hclean (fun tx htx => hok tx (List.mem_cons_of_mem _ htx)) (k - _)
      refine ⟨hok', j + 1, by simpa using hj, hrec.trans ?_⟩
      rw [List.take_succ_cons, committed_cons]
      exact committed_congr hhome _

end Crash

end Xv6Lab
