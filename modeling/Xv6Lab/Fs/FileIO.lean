import Xv6Lab.Fs.File
import Xv6Lab.Fs.ReadWrite

/-!
# Reading and writing through a file (`fileread`, `filewrite`)

`fileread` and `filewrite` of `file.c` on the file table and the disk: a pipe's end goes to
`piperead` or `pipewrite` (one segment of it, as `Pipe.Pipe` runs them), an inode to `readi` or
`writei` from `f->off`, which moves on by what was read or written.  `filewrite` cuts a write into
transactions of at most `MAXWRITE` bytes, one `writei` each (`Disk.filewriteLoop`).

* `Disk.writeSpan off left` — the bytes the loop gets onto the disk: all of them when the write
  ends within `MAXFILE` blocks, otherwise the whole chunks that do;
* `Disk.WriteiPost.trans` — two writes of adjacent ranges make one write of the joined range;
* `BlockInv.filewriteLoop_spec` — the loop leaves what one `writei` of `writeSpan` bytes leaves,
  and fails only when `balloc` runs out of blocks;
* `FileTable.filewrite_inode`, `FileTable.fileread_mapped` — the two calls on an inode;
* `FileTable.filewrite_agrees_writei` — the chunked write leaves what one `writei` would;
* `FileTable.filewrite_past_max` — a write past the largest file returns `-1` after writing the
  chunks that fit;
* `FileTable.filewrite_fileread` — what one file writes, another file of the inode reads back.
-/

namespace Xv6Lab

open Function Bytes Run

/-- `max` in `filewrite`: the bytes of one transaction's `writei`, so that its blocks (the inode's,
an indirect block, the bitmap's, and two of slop for a write that is not aligned) fit in
`MAXOPBLOCKS`. -/
def MAXWRITE : ℕ := (MAXOPBLOCKS - 1 - 1 - 2) / 2 * 512

theorem MAXWRITE_eq : MAXWRITE = 1536 := rfl

/-- How a `fileread` or `filewrite` call ends. -/
inductive IoEnd where
  /-- The call returns `r`; a read's bytes copied to `addr`. -/
  | done (r : ℤ) (bytes : List ℕ)
  /-- A pipe call asleep: `PipeSys` runs the rest of it. -/
  | asleep
  deriving DecidableEq, Repr

namespace Disk

/-- `filewrite`'s loop on inode `ip` with `i` of the `n` bytes of `src` written and `f->off` at
`off`: the disk, `f->off` and `i` after it.  Each round is one transaction: `ilock`, then `writei`
of `n1 = min (n - i) MAXWRITE` bytes. -/
def filewriteLoop (d : Disk) (ip : ℕ) (src : List ℕ) (n off i : ℕ) :
    Except Crash (Disk × ℕ × ℕ) :=
  if _ : i < n then do
    let n1 := min (n - i) MAXWRITE
    ilockType d ip
    let (d, r) ← d.writei ip (src.drop i) off n1
    -- `if ((r = writei(f->ip, addr + i, f->off, n1)) > 0) f->off += r;`
    let off := if 0 < r then wrap (off + r.toNat) else off
    if r < 0 then .ok (d, off, i)
    else if r ≠ n1 then .error (.panic "short filewrite")
    else d.filewriteLoop ip src n off (i + n1)
  else .ok (d, off, i)
termination_by n - i
decreasing_by simp only [MAXWRITE_eq]; omega

end Disk

namespace FileTable

/-- `fileread(f, addr, n)` by a caller whose `killed` flag is `killed`; `consoleRead` is what a
device's read returns.  `n` is what `sys_read`'s `argptr` let through, so it is not negative. -/
def fileread (t : FileTable) (d : Disk) (f : Fin NFILE) (killed : Bool) (n : ℕ)
    (consoleRead : ℤ × List ℕ) : Except Crash (FileTable × Disk × IoEnd) :=
  let ff := t.file f
  if ff.readable = false then .ok (t, d, .done (-1) [])
  else if ff.type = .pipe then
    let (q, e) := (t.pipes ff.pipe).piperead killed n
    let t := { t with pipes := update t.pipes ff.pipe q }
    match e with
    | .done bytes => .ok (t, d, .done bytes.length (bytes.map UInt8.toNat))
    | .failed => .ok (t, d, .done (-1) [])
    | .asleep => .ok (t, d, .asleep)
  else if ff.type = .inode then do
    ilockType d ff.ip
    let (d, r, dst) ← d.readi ff.ip ff.off n consoleRead
    -- `if((r = readi(f->ip, addr, f->off, n)) > 0) f->off += r;`
    let t := if 0 < r then t.setFile f { ff with off := wrap (ff.off + r.toNat) } else t
    .ok (t, d, .done r dst)
  else .error (.panic "fileread")

/-- `filewrite(f, addr, n)` of the bytes `src` at `addr`, by a caller whose `killed` flag is
`killed`. -/
def filewrite (t : FileTable) (d : Disk) (f : Fin NFILE) (killed : Bool) (src : List ℕ) (n : ℕ) :
    Except Crash (FileTable × Disk × IoEnd) :=
  let ff := t.file f
  if ff.writable = false then .ok (t, d, .done (-1) [])
  else if ff.type = .pipe then
    let (q, e) := (t.pipes ff.pipe).pipewriteLoop killed
      ((List.range n).map fun k => UInt8.ofNat (ofList src k))
    let t := { t with pipes := update t.pipes ff.pipe q }
    match e with
    | .done => .ok (t, d, .done n [])
    | .failed => .ok (t, d, .done (-1) [])
    | .asleep _ => .ok (t, d, .asleep)
  else if ff.type = .inode then do
    let (d, off, i) ← d.filewriteLoop ff.ip src n ff.off 0
    -- `return i == n ? n : -1;`
    .ok (t.setFile f { ff with off := off }, d, .done (if i = n then n else -1) [])
  else .error (.panic "filewrite")

end FileTable

/-! ### `writei` chunk by chunk -/

namespace Disk

/-- The bytes `filewrite`'s loop gets onto the disk from `off` when `left` are asked for: all of
them when they end within `MAXFILE` blocks, otherwise the whole chunks of `MAXWRITE` that do. -/
def writeSpan (off left : ℕ) : ℕ :=
  if off + left ≤ MAXFILE * BSIZE then left else MAXWRITE * ((MAXFILE * BSIZE - off) / MAXWRITE)

theorem MAXFILE_BSIZE : MAXFILE * BSIZE = 71680 := rfl

theorem writeSpan_zero {off : ℕ} (h : off ≤ MAXFILE * BSIZE) : writeSpan off 0 = 0 := by
  rw [writeSpan, if_pos (by omega)]

/-- A chunk that fits is the first part of the span. -/
theorem writeSpan_step {off left : ℕ} (hfit : off + min left MAXWRITE ≤ MAXFILE * BSIZE) :
    writeSpan off left =
      min left MAXWRITE + writeSpan (off + min left MAXWRITE) (left - min left MAXWRITE) := by
  unfold writeSpan
  rw [MAXWRITE_eq, MAXFILE_BSIZE] at *
  split_ifs <;> omega

/-- A first chunk that does not fit leaves nothing written. -/
theorem writeSpan_of_over {off left : ℕ} (hover : MAXFILE * BSIZE < off + min left MAXWRITE) :
    writeSpan off left = 0 := by
  unfold writeSpan
  rw [MAXWRITE_eq, MAXFILE_BSIZE] at *
  split_ifs <;> omega

theorem writeSpan_le (off left : ℕ) : writeSpan off left ≤ left := by
  unfold writeSpan
  rw [MAXWRITE_eq, MAXFILE_BSIZE]
  split_ifs <;> omega

variable {d d' : Disk} {i : ℕ} {src : List ℕ} {off : ℕ}

/-- A write of nothing at an offset within the file. -/
theorem WriteiPost.zero (h : BlockInv d) (src : List ℕ) (hoff : off ≤ (d.inode i).size) :
    WriteiPost d d i src off 0 where
  inv := h
  type _ _ := rfl
  size j _ := by
    split_ifs with hji
    · subst hji
      omega
    · rfl
  bytes j _ k := by rw [if_neg (by omega)]
  mapped _ _ h2 := absurd h2 (by omega)

/-- **Two writes of adjacent ranges are one write of the joined range**, when the second keeps
the blocks the first mapped. -/
theorem WriteiPost.trans {d₁ d₂ d₃ : Disk} {m k : ℕ} (hi : i < NINODES)
    (h₁ : WriteiPost d₁ d₂ i src off m) (h₂ : WriteiPost d₂ d₃ i (src.drop m) (off + m) k)
    (hkeep : ∀ bn, d₂.blockAddr i bn ≠ 0 → d₃.blockAddr i bn = d₂.blockAddr i bn) :
    WriteiPost d₁ d₃ i src off (m + k) where
  inv := h₂.inv
  type j hj := (h₂.type j hj).trans (h₁.type j hj)
  size j hj := by
    rw [h₂.size j hj]
    split_ifs with hji
    · subst hji
      rw [h₁.size j hj, if_pos rfl]
      omega
    · rw [h₁.size j hj, if_neg hji]
  bytes j hj x := by
    rw [h₂.bytes j hj x, h₁.bytes j hj x, ofList_drop]
    by_cases hji : j = i
    · subst hji
      by_cases hx : off + m ≤ x ∧ x < off + m + k
      · rw [if_pos ⟨rfl, hx⟩, if_pos ⟨rfl, by omega, by omega⟩]
        congr 1
        omega
      · rw [if_neg fun h => hx h.2]
        by_cases hx' : off ≤ x ∧ x < off + m
        · rw [if_pos ⟨rfl, hx'⟩, if_pos ⟨rfl, hx'.1, by omega⟩]
        · rw [if_neg fun h => hx' h.2, if_neg (by omega)]
    · simp only [hji, false_and, if_false]
  mapped x h1 h2 := by
    by_cases hx : x < off + m
    · rw [hkeep _ (h₁.mapped x h1 hx)]
      exact h₁.mapped x h1 hx
    · exact h₂.mapped x (by omega) (by omega)

/-- What `writei` promises fixes every file's type, size and bytes. -/
theorem WriteiPost.agree {d₁ d₂ : Disk} {n : ℕ} (h₁ : WriteiPost d d₁ i src off n)
    (h₂ : WriteiPost d d₂ i src off n) :
    ∀ j < NINODES, (d₁.inode j).type = (d₂.inode j).type ∧
      (d₁.inode j).size = (d₂.inode j).size ∧ ∀ k, d₁.fileByte j k = d₂.fileByte j k :=
  fun j hj => ⟨(h₁.type j hj).trans (h₂.type j hj).symm, (h₁.size j hj).trans (h₂.size j hj).symm,
    fun k => (h₁.bytes j hj k).trans (h₂.bytes j hj k).symm⟩

end Disk

namespace BlockInv

variable {d : Disk}

/-- `writei` within `MAXFILE` blocks keeps every block already mapped. -/
theorem writei_blockAddr (h : BlockInv d) {i : ℕ} (hi : i < NINODES)
    (hdev : (d.inode i).type ≠ T_DEV) {src : List ℕ} {off n : ℕ}
    (hoff : off ≤ (d.inode i).size) (hend : off + n ≤ MAXFILE * BSIZE) {d' : Disk} {r : ℤ}
    (hw : d.writei i src off n = .ok (d', r)) :
    ∀ j < NINODES, ∀ bn, d.blockAddr j bn ≠ 0 → d'.blockAddr j bn = d.blockAddr j bn := by
  have hsmall : off + n < 2 ^ 32 := by
    simp only [MAXFILE, NDIRECT, NINDIRECT, BSIZE] at hend
    omega
  have hwrap : wrap (off + n) = off + n := Nat.mod_eq_of_lt hsmall
  rw [Disk.writei] at hw
  dsimp only at hw
  rw [if_neg hdev, if_neg (by rw [hwrap]; omega), if_neg (by omega)] at hw
  rcases h.writeLoop_cases hi src off n hend with he | ⟨d1, hrun, hw1⟩
  · rw [he] at hw
    cases hw
  rw [hrun, except_ok_bind] at hw
  intro j hj bn hz
  split at hw
  · -- the size grew: `iupdate` moves no block
    obtain rfl := (Prod.mk.inj (Except.ok.inj hw)).1
    rw [(hw1.keeps.inv.setSize hi hsmall).2.2.2 j hj bn, hw1.keeps.mapped j hj bn hz]
  · obtain rfl := (Prod.mk.inj (Except.ok.inj hw)).1
    exact hw1.keeps.mapped j hj bn hz

/-- **`filewrite`'s loop** on a file (not a device) from an offset within it, of a size within
`MAXFILE` blocks, leaves what one `writei` of `writeSpan off (n - i)` bytes leaves, moves `f->off`
and `i` on by as much, and keeps every block already mapped; it fails only when `balloc` runs out
of blocks, never with `short filewrite`.  The induction is on the bytes left, `n - i`. -/
theorem filewriteLoop_spec (h : BlockInv d) {ip : ℕ} (hi : ip < NINODES)
    (hdev : (d.inode ip).type ≠ T_DEV) (htype : (d.inode ip).type ≠ 0) (src : List ℕ) (n : ℕ)
    {off i : ℕ} (hoff : off ≤ (d.inode ip).size) (hsize : (d.inode ip).size ≤ MAXFILE * BSIZE)
    (hin : i ≤ n) :
    d.filewriteLoop ip src n off i = .error (.panic "balloc: out of blocks") ∨
      ∃ d', d.filewriteLoop ip src n off i =
          .ok (d', off + Disk.writeSpan off (n - i), i + Disk.writeSpan off (n - i)) ∧
        Disk.WriteiPost d d' ip (src.drop i) off (Disk.writeSpan off (n - i)) ∧
        ∀ bn, d.blockAddr ip bn ≠ 0 → d'.blockAddr ip bn = d.blockAddr ip bn := by
  induction hk : n - i using Nat.strong_induction_on generalizing d off i with
  | _ k ih =>
  subst hk
  rw [Disk.filewriteLoop]
  by_cases hlt : i < n
  swap
  · -- the loop is done: nothing more is written
    have hn : n - i = 0 := by omega
    rw [dif_neg hlt, hn, Disk.writeSpan_zero (by omega)]
    exact .inr ⟨d, rfl, Disk.WriteiPost.zero h _ hoff, fun _ _ => rfl⟩
  rw [dif_pos hlt]
  have hlock : ilockType d ip = .ok () := by rw [ilockType, if_neg htype]
  simp only [hlock, except_ok_bind]
  have hpos : 0 < min (n - i) MAXWRITE := by
    rw [MAXWRITE_eq]
    omega
  by_cases hfit : off + min (n - i) MAXWRITE ≤ MAXFILE * BSIZE
  swap
  · -- the chunk would pass `MAXFILE` blocks: `writei` returns `-1` and the loop stops
    have hsmall : off + min (n - i) MAXWRITE < UINT := by
      rw [Disk.MAXFILE_BSIZE] at hsize
      rw [MAXWRITE_eq, UINT]
      omega
    have hw : d.writei ip (src.drop i) off (min (n - i) MAXWRITE) = .ok (d, -1) := by
      rw [Disk.writei]
      dsimp only
      rw [if_neg hdev, if_neg (by rw [wrap_of_lt hsmall]; omega), if_pos (by omega)]
    rw [hw, except_ok_bind, Disk.writeSpan_of_over (by omega)]
    exact .inr ⟨d, by simp, Disk.WriteiPost.zero h _ hoff, fun _ _ => rfl⟩
  rcases h.writei_cases hi hdev (src.drop i) hoff hfit with he | ⟨d1, hw, hpost⟩
  · rw [he]
    exact .inl rfl
  have hkeep1 := h.writei_blockAddr hi hdev hoff hfit hw ip hi
  -- `writei` wrote all `n1` bytes: `f->off` and `i` move on by `n1` and the loop goes on
  have hsmall : off + min (n - i) MAXWRITE < UINT := by
    rw [Disk.MAXFILE_BSIZE] at hfit
    rw [UINT]
    omega
  have hr : (0 : ℤ) < (min (n - i) MAXWRITE : ℕ) := by exact_mod_cast hpos
  rw [hw, except_ok_bind]
  simp only [if_pos hr, Int.toNat_natCast, wrap_of_lt hsmall, if_neg (not_lt.mpr (Int.natCast_nonneg _)),
    ne_eq, not_true_eq_false, if_false]
  have hsize1 : (d1.inode ip).size = max (d.inode ip).size (off + min (n - i) MAXWRITE) := by
    rw [hpost.size ip hi, if_pos rfl]
  have hoff1 : off + min (n - i) MAXWRITE ≤ (d1.inode ip).size := by
    rw [hsize1]
    omega
  have hsize1' : (d1.inode ip).size ≤ MAXFILE * BSIZE := by
    rw [hsize1]
    omega
  have hin1 : i + min (n - i) MAXWRITE ≤ n := by omega
  rcases ih (n - (i + min (n - i) MAXWRITE)) (by omega) hpost.inv
      (by rw [hpost.type ip hi]; exact hdev) (by rw [hpost.type ip hi]; exact htype)
      hoff1 hsize1' hin1 rfl with he | ⟨d2, hrun, hpost2, hkeep2⟩
  · exact .inl he
  have hleft : n - (i + min (n - i) MAXWRITE) = n - i - min (n - i) MAXWRITE := by omega
  rw [hleft] at hrun hpost2
  rw [← List.drop_drop] at hpost2
  refine .inr ⟨d2, ?_, ?_, fun bn hz => ?_⟩
  · rw [hrun, Disk.writeSpan_step hfit]
    simp only [Nat.add_assoc]
  · rw [Disk.writeSpan_step hfit]
    exact Disk.WriteiPost.trans hi hpost hpost2 hkeep2
  · rw [hkeep2 bn (by rw [hkeep1 bn hz]; exact hz), hkeep1 bn hz]

end BlockInv

/-! ### The calls on an inode -/

namespace FileTable

variable {t : FileTable} {d : Disk} {f : Fin NFILE}

/-- **`filewrite` on a file**, from an offset within it: it leaves what one `writei` of
`writeSpan off n` bytes leaves, moves `f->off` on by as much, and returns `n` when that is all of
them, `-1` otherwise; it fails only when `balloc` runs out of blocks. -/
theorem filewrite_inode (h : BlockInv d) (hw : (t.file f).writable = true)
    (hty : (t.file f).type = .inode) (hi : (t.file f).ip < NINODES)
    (hdev : (d.inode (t.file f).ip).type ≠ T_DEV) (htype : (d.inode (t.file f).ip).type ≠ 0)
    (hoff : (t.file f).off ≤ (d.inode (t.file f).ip).size)
    (hsize : (d.inode (t.file f).ip).size ≤ MAXFILE * BSIZE) (killed : Bool) (src : List ℕ)
    (n : ℕ) :
    t.filewrite d f killed src n = .error (.panic "balloc: out of blocks") ∨
      ∃ d', t.filewrite d f killed src n =
          .ok (t.setFile f { t.file f with off := (t.file f).off + Disk.writeSpan (t.file f).off n },
            d', .done (if Disk.writeSpan (t.file f).off n = n then n else -1) []) ∧
        Disk.WriteiPost d d' (t.file f).ip src (t.file f).off (Disk.writeSpan (t.file f).off n) := by
  have hpipe : (t.file f).type ≠ .pipe := by
    rw [hty]
    decide
  have hcall : t.filewrite d f killed src n = (do
      let (d, off, i) ← d.filewriteLoop (t.file f).ip src n (t.file f).off 0
      .ok (t.setFile f { t.file f with off := off }, d, .done (if i = n then n else -1) [])) := by
    rw [filewrite]
    simp only [hw, Bool.true_eq_false, if_false, if_neg hpipe, if_pos hty]
  rw [hcall]
  rcases h.filewriteLoop_spec hi hdev htype src n hoff hsize (Nat.zero_le n) with
    he | ⟨d', hrun, hpost, -⟩
  · rw [he]
    exact .inl rfl
  rw [Nat.sub_zero, List.drop_zero] at hpost
  rw [Nat.sub_zero, Nat.zero_add] at hrun
  exact .inr ⟨d', by rw [hrun]; rfl, hpost⟩

/-- **`fileread` of a mapped range within a file** returns its bytes, leaves the disk alone and
moves `f->off` on by `n`. -/
theorem fileread_mapped (h : BlockInv d) (hr : (t.file f).readable = true)
    (hty : (t.file f).type = .inode) (hi : (t.file f).ip < NINODES)
    (hdev : (d.inode (t.file f).ip).type ≠ T_DEV) (htype : (d.inode (t.file f).ip).type ≠ 0)
    (killed : Bool) (c : ℤ × List ℕ) {n : ℕ}
    (hend : (t.file f).off + n ≤ (d.inode (t.file f).ip).size) (hwrap : (t.file f).off + n < UINT)
    (hmapped : ∀ k, (t.file f).off ≤ k → k < (t.file f).off + n →
      d.blockAddr (t.file f).ip (k / BSIZE) ≠ 0) :
    ∃ t', t.fileread d f killed n c = .ok (t', d, .done n
        ((List.range n).map fun k => d.fileByte (t.file f).ip ((t.file f).off + k))) ∧
      (t'.file f).off = (t.file f).off + n ∧ ∀ g, g ≠ f → t'.file g = t.file g := by
  have hpipe : (t.file f).type ≠ .pipe := by
    rw [hty]
    decide
  have hlock : ilockType d (t.file f).ip = .ok () := by rw [ilockType, if_neg htype]
  rw [fileread]
  simp only [hr, Bool.true_eq_false, if_false, if_neg hpipe, if_pos hty, hlock, except_ok_bind,
    h.readi_mapped hi hdev c hend hwrap hmapped]
  refine ⟨_, rfl, ?_, fun g hg => ?_⟩
  · -- `f->off += r` only for `r > 0`
    split_ifs with hpos
    · rw [setFile_file, update_self, Int.toNat_natCast, wrap_of_lt hwrap]
    · have : n = 0 := by omega
      rw [this, Nat.add_zero]
  · split_ifs
    · rw [setFile_file, update_of_ne hg]
    · rfl

/-! ### What a write through a file leaves -/

/-- A disk with one empty file, inode `1`. -/
def ioDisk : Disk := fileDisk fun k => if k < 8 then 255 else 0

theorem ioDisk_blockInv : BlockInv ioDisk := fileDisk_blockInv (by decide)

theorem ioDisk_inode_one : ioDisk.inode 1 = Disk.freshInode T_FILE := fileDisk_inode_one _

/-- Two files open on inode `1` at offset `0`: file `0` for writing, file `1` for reading. -/
def ioTable : FileTable :=
  ⟨fun g => if g = 0 then ⟨.inode, 1, false, true, 0, 1, 0⟩
    else if g = 1 then ⟨.inode, 1, true, false, 0, 1, 0⟩ else File.zero,
    fun _ => Pipe.alloc fun _ => 0, ⟨[], 0x80400000, []⟩⟩

/-- **Chunked writes agree with one `writei`**: `filewrite` of `n` bytes that end within
`MAXFILE` blocks, from an offset within the file, returns `n` and moves `f->off` on by `n`, and
every file's type, size and bytes are then those one `writei` of the `n` bytes leaves.  It fails
only when `balloc` runs out of blocks: never with `short filewrite`. -/
theorem filewrite_agrees_writei (h : BlockInv d) (hw : (t.file f).writable = true)
    (hty : (t.file f).type = .inode) (hi : (t.file f).ip < NINODES)
    (hdev : (d.inode (t.file f).ip).type ≠ T_DEV) (htype : (d.inode (t.file f).ip).type ≠ 0)
    (hoff : (t.file f).off ≤ (d.inode (t.file f).ip).size)
    (hsize : (d.inode (t.file f).ip).size ≤ MAXFILE * BSIZE) {n : ℕ}
    (hend : (t.file f).off + n ≤ MAXFILE * BSIZE) (killed : Bool) (src : List ℕ) :
    t.filewrite d f killed src n = .error (.panic "balloc: out of blocks") ∨
      ∃ d', t.filewrite d f killed src n =
          .ok (t.setFile f { t.file f with off := (t.file f).off + n }, d', .done n []) ∧
        ∀ d₁, d.writei (t.file f).ip src (t.file f).off n = .ok (d₁, n) →
          ∀ j < NINODES, (d'.inode j).type = (d₁.inode j).type ∧
            (d'.inode j).size = (d₁.inode j).size ∧ ∀ k, d'.fileByte j k = d₁.fileByte j k := by
  have hspan : Disk.writeSpan (t.file f).off n = n := by rw [Disk.writeSpan, if_pos hend]
  rcases filewrite_inode h hw hty hi hdev htype hoff hsize killed src n with he | ⟨d', hfw, hpost⟩
  · exact .inl he
  rw [hspan, if_pos rfl] at hfw
  rw [hspan] at hpost
  refine .inr ⟨d', hfw, fun d₁ hw₁ => ?_⟩
  -- the single `writei` leaves what `writei_cases` promises too
  rcases h.writei_cases hi hdev src hoff hend with he | ⟨d₂, hw₂, hpost₂⟩
  · rw [hw₁] at he
    cases he
  obtain rfl : d₂ = d₁ := (Prod.mk.inj (Except.ok.inj (hw₂.symm.trans hw₁))).1
  exact hpost.agree hpost₂

theorem ioTable_write_agrees :
    ioTable.filewrite ioDisk 0 false [7, 8, 9] 3 = .error (.panic "balloc: out of blocks") ∨
      ∃ d', ioTable.filewrite ioDisk 0 false [7, 8, 9] 3 =
          .ok (ioTable.setFile 0 { ioTable.file 0 with off := (ioTable.file 0).off + 3 }, d',
            .done 3 []) ∧
        ∀ d₁, ioDisk.writei (ioTable.file 0).ip [7, 8, 9] (ioTable.file 0).off 3 = .ok (d₁, 3) →
          ∀ j < NINODES, (d'.inode j).type = (d₁.inode j).type ∧
            (d'.inode j).size = (d₁.inode j).size ∧ ∀ k, d'.fileByte j k = d₁.fileByte j k := by
  have hone : ioDisk.inode (ioTable.file 0).ip = Disk.freshInode T_FILE := ioDisk_inode_one
  exact filewrite_agrees_writei (t := ioTable) (f := 0) (n := 3) ioDisk_blockInv rfl rfl (by decide) (by rw [hone]; decide)
    (by rw [hone]; decide) (Nat.zero_le _) (by rw [hone]; decide) (by decide) false [7, 8, 9]

/-- **A write past the largest file is not all or nothing**: `filewrite` of `n` bytes that would
end past `MAXFILE` blocks returns `-1`, but only after it has written the whole chunks of
`MAXWRITE` bytes that fit, fewer than `n`, and moved `f->off` on over them. -/
theorem filewrite_past_max (h : BlockInv d) (hw : (t.file f).writable = true)
    (hty : (t.file f).type = .inode) (hi : (t.file f).ip < NINODES)
    (hdev : (d.inode (t.file f).ip).type ≠ T_DEV) (htype : (d.inode (t.file f).ip).type ≠ 0)
    (hoff : (t.file f).off ≤ (d.inode (t.file f).ip).size)
    (hsize : (d.inode (t.file f).ip).size ≤ MAXFILE * BSIZE) {n : ℕ}
    (hover : MAXFILE * BSIZE < (t.file f).off + n) (killed : Bool) (src : List ℕ) :
    t.filewrite d f killed src n = .error (.panic "balloc: out of blocks") ∨
      ∃ d', t.filewrite d f killed src n =
          .ok (t.setFile f { t.file f with
              off := (t.file f).off + MAXWRITE * ((MAXFILE * BSIZE - (t.file f).off) / MAXWRITE) },
            d', .done (-1) []) ∧
        MAXWRITE * ((MAXFILE * BSIZE - (t.file f).off) / MAXWRITE) < n ∧
        Disk.WriteiPost d d' (t.file f).ip src (t.file f).off
          (MAXWRITE * ((MAXFILE * BSIZE - (t.file f).off) / MAXWRITE)) := by
  have hspan : Disk.writeSpan (t.file f).off n =
      MAXWRITE * ((MAXFILE * BSIZE - (t.file f).off) / MAXWRITE) := by
    rw [Disk.writeSpan, if_neg (by omega)]
  -- the whole chunks fit below `MAXFILE * BSIZE`, which the write passes
  have hlt : MAXWRITE * ((MAXFILE * BSIZE - (t.file f).off) / MAXWRITE) < n := by
    have := Nat.mul_div_le (MAXFILE * BSIZE - (t.file f).off) MAXWRITE
    omega
  rcases filewrite_inode h hw hty hi hdev htype hoff hsize killed src n with he | ⟨d', hfw, hpost⟩
  · exact .inl he
  rw [hspan, if_neg (Nat.ne_of_lt hlt)] at hfw
  rw [hspan] at hpost
  exact .inr ⟨d', hfw, hlt, hpost⟩

theorem ioTable_write_past_max :
    ioTable.filewrite ioDisk 0 false [] 71681 = .error (.panic "balloc: out of blocks") ∨
      ∃ d', ioTable.filewrite ioDisk 0 false [] 71681 =
          .ok (ioTable.setFile 0 { ioTable.file 0 with
              off := (ioTable.file 0).off +
                MAXWRITE * ((MAXFILE * BSIZE - (ioTable.file 0).off) / MAXWRITE) },
            d', .done (-1) []) ∧
        MAXWRITE * ((MAXFILE * BSIZE - (ioTable.file 0).off) / MAXWRITE) < 71681 ∧
        Disk.WriteiPost ioDisk d' (ioTable.file 0).ip [] (ioTable.file 0).off
          (MAXWRITE * ((MAXFILE * BSIZE - (ioTable.file 0).off) / MAXWRITE)) := by
  have hone : ioDisk.inode (ioTable.file 0).ip = Disk.freshInode T_FILE := ioDisk_inode_one
  exact filewrite_past_max (t := ioTable) (f := 0) (n := 71681) ioDisk_blockInv rfl rfl (by decide)
    (by rw [hone]; decide) (by rw [hone]; decide) (Nat.zero_le _) (by rw [hone]; decide)
    (by decide) false []

/-- **What one file writes, another file of the inode reads back**: after `filewrite` of `n` bytes
through `f`, ending within `MAXFILE` blocks, a `fileread` of `n` bytes through another file `g` of
the same inode at the same offset returns those bytes, leaves the disk alone and moves `g`'s
offset on by `n`. -/
theorem filewrite_fileread (h : BlockInv d) {g : Fin NFILE} (hfg : g ≠ f)
    (hw : (t.file f).writable = true) (hty : (t.file f).type = .inode)
    (hi : (t.file f).ip < NINODES) (hdev : (d.inode (t.file f).ip).type ≠ T_DEV)
    (htype : (d.inode (t.file f).ip).type ≠ 0) (hoff : (t.file f).off ≤ (d.inode (t.file f).ip).size)
    (hsize : (d.inode (t.file f).ip).size ≤ MAXFILE * BSIZE)
    (hr : (t.file g).readable = true) (htyg : (t.file g).type = .inode)
    (hip : (t.file g).ip = (t.file f).ip) (hoffg : (t.file g).off = (t.file f).off) {n : ℕ}
    (hend : (t.file f).off + n ≤ MAXFILE * BSIZE) (killed killed' : Bool) (src : List ℕ)
    (c : ℤ × List ℕ) :
    t.filewrite d f killed src n = .error (.panic "balloc: out of blocks") ∨
      ∃ t' d', t.filewrite d f killed src n = .ok (t', d', .done n []) ∧
        ∃ t'', t'.fileread d' g killed' n c = .ok (t'', d', .done n ((List.range n).map (ofList src))) ∧
          (t''.file g).off = (t.file g).off + n := by
  have hspan : Disk.writeSpan (t.file f).off n = n := by rw [Disk.writeSpan, if_pos hend]
  rcases filewrite_inode h hw hty hi hdev htype hoff hsize killed src n with he | ⟨d', hfw, hpost⟩
  · exact .inl he
  rw [hspan, if_pos rfl] at hfw
  rw [hspan] at hpost
  -- the write moved only `f`'s offset
  have hg : (t.setFile f { t.file f with off := (t.file f).off + n }).file g = t.file g := by
    rw [setFile_file, update_of_ne hfg]
  have hsz : (d'.inode (t.file f).ip).size = max (d.inode (t.file f).ip).size ((t.file f).off + n) := by
    rw [hpost.size _ hi, if_pos rfl]
  have hwrap : (t.file f).off + n < UINT := by
    rw [Disk.MAXFILE_BSIZE] at hend
    rw [UINT]
    omega
  obtain ⟨t'', hread, hoff'', -⟩ := fileread_mapped (t := t.setFile f { t.file f with off := (t.file f).off + n })
    (f := g) hpost.inv (by rw [hg]; exact hr) (by rw [hg]; exact htyg) (by rw [hg, hip]; exact hi)
    (by rw [hg, hip, hpost.type _ hi]; exact hdev) (by rw [hg, hip, hpost.type _ hi]; exact htype)
    killed' c (n := n) (by rw [hg, hip, hoffg, hsz]; omega) (by rw [hg, hoffg]; exact hwrap)
    (fun k h1 h2 => by
      rw [hg, hoffg] at h1 h2
      rw [hg, hip]
      exact hpost.mapped k h1 h2)
  refine .inr ⟨_, d', hfw, t'', ?_, by rw [hoff'', hg]⟩
  -- the bytes read are those written
  have hbytes : (List.range n).map (fun k => d'.fileByte (t.file g).ip ((t.file g).off + k)) =
      (List.range n).map (ofList src) := by
    refine List.map_congr_left fun k hk => ?_
    have hk := List.mem_range.mp hk
    rw [hip, hoffg, hpost.bytes _ hi, if_pos ⟨rfl, by omega, by omega⟩, Nat.add_sub_cancel_left]
  rw [hread, hg, hbytes]

theorem ioTable_write_read :
    ioTable.filewrite ioDisk 0 false [7, 8, 9] 3 = .error (.panic "balloc: out of blocks") ∨
      ∃ t' d', ioTable.filewrite ioDisk 0 false [7, 8, 9] 3 = .ok (t', d', .done 3 []) ∧
        ∃ t'', t'.fileread d' 1 false 3 (0, []) = .ok (t'', d', .done 3 [7, 8, 9]) ∧
          (t''.file 1).off = (ioTable.file 1).off + 3 := by
  have hone : ioDisk.inode (ioTable.file 0).ip = Disk.freshInode T_FILE := ioDisk_inode_one
  exact filewrite_fileread (t := ioTable) (f := 0) (g := 1) (n := 3) ioDisk_blockInv (by decide) rfl rfl (by decide) (by rw [hone]; decide)
    (by rw [hone]; decide) (Nat.zero_le _) (by rw [hone]; decide) rfl rfl rfl rfl (by decide)
    false false [7, 8, 9] (0, [])

end FileTable

end Xv6Lab
