import Xv6Lab.Pipe.Queue

/-!
# The ring buffer refines the queue

`Represents p f`: the counters of `p` are bounded, the `count` bytes from `nread` on are the
queue, and the same ends are open.  Each operation of `pipe.c` keeps it and ends as the
queue's operation ends (`Represents.writeLoop`, `Represents.read`, `Represents.close`): a store
at `nwrite % PIPESIZE` is a push because that cell follows the last byte whatever wraps lie
between, and a byte copied from `nread % PIPESIZE` is the front of the queue.
`PipeSys.simulation` lifts this to runs:

* `pipe_refines_queue` — every run of a pipe from a fresh page is a run of the queue over the
  same steps, with the same calls asleep and the same bytes returned;
* `pipe_fifo` — so the bytes the completed reads returned, then the bytes in the ring, are the
  bytes the writes stored, in storage order;
* `piperead_done_nil` — `piperead` returns `0` only for `n = 0`, or at an empty pipe whose write
  end is closed.
-/

namespace Xv6Lab

open Function

namespace Pipe

/-- The bytes in the ring, oldest first. -/
def contents (p : Pipe) : List UInt8 := Ring.contents p.data p.nread p.count

/-- The ring holds the queue `f`. -/
structure Represents (p : Pipe) (f : PipeQueue) : Prop where
  bounded : p.Bounded
  contents_eq : p.contents = f.q
  readopen_eq : p.readopen = f.readopen
  writeopen_eq : p.writeopen = f.writeopen

/-- The queue a pipe with bounded counters holds, with an empty history. -/
def toQueue (p : Pipe) (hb : p.Bounded) : PipeQueue :=
  ⟨p.contents, [], p.readopen, p.writeopen, by
    rw [contents, Ring.length_contents]
    exact hb.count_le⟩

theorem represents_toQueue {p : Pipe} (hb : p.Bounded) : p.Represents (p.toQueue hb) :=
  ⟨hb, rfl, rfl, rfl⟩

theorem represents_alloc (data : Fin PIPESIZE → UInt8) : (alloc data).Represents PipeQueue.empty := by
  have h0 : (alloc data).count = 0 := (nread_eq_nwrite_iff (bounded_alloc data)).mp rfl
  refine ⟨bounded_alloc data, ?_, rfl, rfl⟩
  show Ring.contents data 0 (alloc data).count = []
  rw [h0]
  rfl

namespace Represents

section Tests

variable {p : Pipe} {f : PipeQueue} (h : p.Represents f)
include h

theorem count_eq : p.count = f.q.length := by
  rw [← h.contents_eq, contents, Ring.length_contents]

theorem full_iff : p.full = true ↔ f.q.length = PIPESIZE := by
  rw [Pipe.full_iff h.bounded, h.count_eq]

theorem empty_iff : p.nread = p.nwrite ↔ f.q = [] := by
  rw [nread_eq_nwrite_iff h.bounded, h.count_eq, List.length_eq_zero_iff]

theorem freed_eq : p.freed = f.freed := by
  unfold freed PipeQueue.freed
  rw [h.readopen_eq, h.writeopen_eq]

/-- **A store is a push**: it lands in the cell after the last byte. -/
theorem put (hf : f.q.length ≠ PIPESIZE) (c : UInt8) : (p.put c).Represents (f.push c hf) := by
  have hpf : p.full = false := Bool.eq_false_iff.mpr fun hp => hf (h.full_iff.mp hp)
  have hlt : p.count < PIPESIZE := by
    rw [h.count_eq]
    exact Nat.lt_of_le_of_ne f.q_le hf
  have hslot : Ring.slot PIPESIZE p.nwrite = Ring.slot PIPESIZE (p.nread + p.count) :=
    Ring.slot_eq_add_dist PIPESIZE_dvd_UINT h.bounded.nread_lt h.bounded.nwrite_lt
  refine ⟨bounded_put h.bounded hpf c, ?_, h.readopen_eq, h.writeopen_eq⟩
  show Ring.contents (update p.data (Ring.slot PIPESIZE p.nwrite) c) p.nread (p.put c).count =
    f.q ++ [c]
  rw [count_put h.bounded c, hslot, Ring.contents_push _ hlt, ← h.contents_eq]
  rfl

/-- **A byte taken is the front of the queue**, and the rest of the ring is the rest of it. -/
theorem take (he : p.nread ≠ p.nwrite) :
    f.q = p.data (Ring.slot PIPESIZE p.nread) :: (f.drop 1).q ∧ p.take.Represents (f.drop 1) := by
  have hc : p.count ≠ 0 := fun h0 => he ((nread_eq_nwrite_iff h.bounded).mpr h0)
  have hsplit : f.q = p.data (Ring.slot PIPESIZE p.nread) ::
      Ring.contents p.data (p.nread + 1) (p.count - 1) := by
    rw [← h.contents_eq, contents, ← Ring.contents_succ, Nat.sub_add_cancel (Nat.pos_of_ne_zero hc)]
  have hdrop : (f.drop 1).q = Ring.contents p.data (p.nread + 1) (p.count - 1) := by
    show f.q.drop 1 = _
    rw [hsplit]
    rfl
  -- the read counter's wrap at `2^32` keeps its cell
  have htail : p.take.contents = Ring.contents p.data (p.nread + 1) (p.count - 1) := by
    show Ring.contents p.data (wrap (p.nread + 1)) p.take.count = _
    rw [count_take h.bounded he]
    exact Ring.contents_congr _ (Nat.mod_mod_of_dvd _ PIPESIZE_dvd_UINT) _
  refine ⟨by rw [hdrop]; exact hsplit, bounded_take h.bounded he, ?_, h.readopen_eq, h.writeopen_eq⟩
  rw [htail, hdrop]

theorem close (writable : Bool) : (p.pipeclose writable).Represents (f.close writable) := by
  cases writable with
  | false => exact ⟨bounded_pipeclose false h.bounded, h.contents_eq, rfl, h.writeopen_eq⟩
  | true => exact ⟨bounded_pipeclose true h.bounded, h.contents_eq, h.readopen_eq, rfl⟩

end Tests

/-- **`pipewrite`'s loop is the queue's**: the same end, and the ring holds the queue after it. -/
theorem writeLoop (killed : Bool) (bs : List UInt8) {p : Pipe} {f : PipeQueue}
    (h : p.Represents f) :
    (pipewriteLoop killed bs p).2 = (PipeQueue.writeLoop killed bs f).2 ∧
      (pipewriteLoop killed bs p).1.Represents (PipeQueue.writeLoop killed bs f).1 := by
  induction bs generalizing p f with
  | nil => exact ⟨rfl, h⟩
  | cons c cs ih =>
    by_cases hf : f.q.length = PIPESIZE
    · -- both full: the same test of the read end and of the caller
      rw [pipewriteLoop, if_pos (h.full_iff.mpr hf), PipeQueue.writeLoop, dif_pos hf, h.readopen_eq]
      split
      · exact ⟨rfl, h⟩
      · exact ⟨rfl, h⟩
    · rw [pipewriteLoop, if_neg (mt h.full_iff.mp hf), PipeQueue.writeLoop_of_room killed c cs hf]
      exact ih (h.put hf c)

/-- **`piperead`'s copy loop takes the front of the queue.** -/
theorem readCopy (n : ℕ) {p : Pipe} {f : PipeQueue} (h : p.Represents f) :
    (pipereadCopy n p).2 = f.q.take n ∧ (pipereadCopy n p).1.Represents (f.drop n) := by
  induction n generalizing p f with
  | zero => exact ⟨rfl, by rw [PipeQueue.drop_zero]; exact h⟩
  | succ n ih =>
    rw [pipereadCopy]
    by_cases he : p.nread = p.nwrite
    · -- the ring is empty: the loop stops
      have hq : f.q = [] := h.empty_iff.mp he
      rw [if_pos he, PipeQueue.drop_of_q_nil hq, hq]
      exact ⟨rfl, h⟩
    · obtain ⟨hsplit, ht⟩ := h.take he
      obtain ⟨hbytes, hrep⟩ := ih ht
      rw [if_neg he]
      refine ⟨?_, ?_⟩
      · show p.data _ :: (pipereadCopy n p.take).2 = f.q.take (n + 1)
        rw [hbytes, hsplit]
        rfl
      · show (pipereadCopy n p.take).1.Represents (f.drop (n + 1))
        rw [Nat.add_comm n 1, ← PipeQueue.drop_drop]
        exact hrep

/-- **`piperead` is the queue's read.** -/
theorem read (killed : Bool) (n : ℕ) {p : Pipe} {f : PipeQueue} (h : p.Represents f) :
    (piperead killed n p).2 = (PipeQueue.read killed n f).2 ∧
      (piperead killed n p).1.Represents (PipeQueue.read killed n f).1 := by
  have hc : (p.nread = p.nwrite ∧ p.writeopen = true) ↔ (f.q = [] ∧ f.writeopen = true) := by
    rw [h.empty_iff, h.writeopen_eq]
  unfold piperead PipeQueue.read
  by_cases hw : f.q = [] ∧ f.writeopen = true
  · rw [if_pos (hc.mpr hw), if_pos hw]
    exact ⟨rfl, h⟩
  · rw [if_neg (mt hc.mp hw), if_neg hw]
    obtain ⟨hbytes, hrep⟩ := readCopy n h
    exact ⟨congrArg ReadEnd.done hbytes, hrep⟩

end Represents

end Pipe

/-- **The pipe refines the queue**: every run of a pipe allocated in a page holding `data` is a
run of the bounded FIFO queue over the same steps, with the ring holding the queue, the same
calls asleep and the same bytes returned. -/
theorem pipe_refines_queue (data : Fin PIPESIZE → UInt8) (ls : List PipeOp) {s : PipeSys Pipe}
    (hrun : Run.exec (PipeSys.step Pipe.impl) (PipeSys.init (Pipe.alloc data)) ls = some s) :
    ∃ u, Run.exec (PipeSys.step PipeQueue.impl) (PipeSys.init PipeQueue.empty) ls = some u ∧
      s.pipe.Represents u.pipe ∧ s.calls = u.calls ∧ s.out = u.out := by
  refine PipeSys.simulation (I := Pipe.impl) (J := PipeQueue.impl) (R := Pipe.Represents) ?_ ?_ ?_ ?_ ls
    (Pipe.represents_alloc data) hrun
  · intro killed bytes p f h
    exact Pipe.Represents.writeLoop killed bytes h
  · intro killed n p f h
    exact Pipe.Represents.read killed n h
  · intro writable p f h
    exact h.close writable
  · intro p f h
    exact h.freed_eq

/-- **Pipes are FIFO queues**: after any run of a pipe allocated in a page holding `data`, the
bytes the completed reads returned, in completion order, then the bytes in the ring, are the
bytes stored by the writes of the same run over the queue, in storage order: no byte is returned
twice, out of order, or lost while the pipe holds it. -/
theorem pipe_fifo (data : Fin PIPESIZE → UInt8) (ls : List PipeOp) {s : PipeSys Pipe}
    (hrun : Run.exec (PipeSys.step Pipe.impl) (PipeSys.init (Pipe.alloc data)) ls = some s) :
    ∃ u : PipeSys PipeQueue,
      Run.exec (PipeSys.step PipeQueue.impl) (PipeSys.init PipeQueue.empty) ls = some u ∧
        s.out ++ s.pipe.contents = u.pipe.stored := by
  obtain ⟨u, hu, hrep, -, hout⟩ := pipe_refines_queue data ls hrun
  have hreach : PipeSys.Reachable PipeQueue.impl (· = PipeQueue.empty) u :=
    Run.reachable_of_exec ls ⟨_, rfl, rfl⟩ hu
  refine ⟨u, hu, ?_⟩
  rw [hout, hrep.contents_eq]
  exact out_append_queue hreach

/-- **`piperead` returns `0`** only when asked for nothing, or when the pipe is empty and its
write end closed: the queue's law, carried back through `Represents`. -/
theorem piperead_done_nil {killed : Bool} {n : ℕ} {p : Pipe} (hb : p.Bounded)
    (h : (Pipe.piperead killed n p).2 = .done []) :
    n = 0 ∨ p.nread = p.nwrite ∧ p.writeopen = false := by
  have hrep := Pipe.represents_toQueue hb
  obtain ⟨hend, -⟩ := hrep.read killed n
  rcases PipeQueue.read_done_nil (hend ▸ h) with hn | ⟨hq, hw⟩
  · exact .inl hn
  · exact .inr ⟨hrep.empty_iff.mpr hq, hrep.writeopen_eq.trans hw⟩

/-- A `piperead` of `0` bytes at a pipe that holds a byte, its write end open, returns `0`:
after one write of `"h"`, `read(fd, buf, 0)` gets nothing although the pipe is not empty. -/
theorem piperead_zero_of_nonempty : ∃ s : PipeSys Pipe,
    PipeSys.Reachable Pipe.impl (fun p => p = Pipe.alloc p.data) s ∧ s.pipe.nread ≠ s.pipe.nwrite ∧
      s.pipe.writeopen = true ∧ (Pipe.piperead false 0 s.pipe).2 = .done [] := by
  have h : (Run.exec (PipeSys.step Pipe.impl) (PipeSys.init (Pipe.alloc fun _ => 0))
      [.write 0 [104] false]).map
        (fun s => (decide (s.pipe.nread ≠ s.pipe.nwrite), s.pipe.writeopen,
          (Pipe.piperead false 0 s.pipe).2)) = some (true, true, .done []) := by
    decide
  obtain ⟨s, hs, hf⟩ : ∃ t, PipeSys.Reachable Pipe.impl (fun p => p = Pipe.alloc p.data) t ∧ _ :=
    Run.exists_reachable_of_exec_map _ ⟨_, rfl, rfl⟩ h
  obtain ⟨hne, hrest⟩ := Prod.mk.inj hf
  obtain ⟨hw, hread⟩ := Prod.mk.inj hrest
  exact ⟨s, hs, of_decide_eq_true hne, hw, hread⟩

/-- **A pipe is a bounded FIFO queue**: after any run of a pipe allocated in a page holding
`data`, under any interleaving of writes, reads, wakeups and closes by any processes,

* the counters are `uint`s and `nwrite - nread` is at most `PIPESIZE`, however often they
  wrapped;
* the ring holds the queue of the run of the bounded queue over the same steps, the same bytes
  were returned, and those bytes, then the bytes in the ring, are the bytes stored, in storage
  order;
* a `piperead` of `n > 0` bytes returns `0` only at an empty pipe whose write end is closed. -/
theorem pipe_bounded_fifo (data : Fin PIPESIZE → UInt8) (ls : List PipeOp) {s : PipeSys Pipe}
    (hrun : Run.exec (PipeSys.step Pipe.impl) (PipeSys.init (Pipe.alloc data)) ls = some s) :
    s.pipe.Bounded ∧
      (∃ u : PipeSys PipeQueue,
        Run.exec (PipeSys.step PipeQueue.impl) (PipeSys.init PipeQueue.empty) ls = some u ∧
          s.pipe.Represents u.pipe ∧ s.out = u.out ∧ s.out ++ s.pipe.contents = u.pipe.stored) ∧
      ∀ killed n, 0 < n → (Pipe.piperead killed n s.pipe).2 = .done [] →
        s.pipe.nread = s.pipe.nwrite ∧ s.pipe.writeopen = false := by
  obtain ⟨u, hu, hrep, -, hout⟩ := pipe_refines_queue data ls hrun
  have hreach : PipeSys.Reachable PipeQueue.impl (· = PipeQueue.empty) u :=
    Run.reachable_of_exec ls ⟨_, rfl, rfl⟩ hu
  refine ⟨hrep.bounded, ⟨u, hu, hrep, hout, ?_⟩, ?_⟩
  · rw [hout, hrep.contents_eq]
    exact out_append_queue hreach
  · intro killed n hn h
    rcases piperead_done_nil hrep.bounded h with h0 | hempty
    · exact absurd h0 (Nat.pos_iff_ne_zero.mp hn)
    · exact hempty

/-- A reader finds the pipe empty and sleeps, a writer stores `"hi"`, the reader runs again. -/
theorem pipe_bounded_fifo_hi : ∃ s : PipeSys Pipe,
    Run.exec (PipeSys.step Pipe.impl) (PipeSys.init (Pipe.alloc fun _ => 0))
      [.read 1 4 false, .write 2 [104, 105] false, .wake 1 false] = some s ∧
    (s.pipe.Bounded ∧
      (∃ u : PipeSys PipeQueue,
        Run.exec (PipeSys.step PipeQueue.impl) (PipeSys.init PipeQueue.empty)
          [.read 1 4 false, .write 2 [104, 105] false, .wake 1 false] = some u ∧
          s.pipe.Represents u.pipe ∧ s.out = u.out ∧ s.out ++ s.pipe.contents = u.pipe.stored) ∧
      ∀ killed n, 0 < n → (Pipe.piperead killed n s.pipe).2 = .done [] →
        s.pipe.nread = s.pipe.nwrite ∧ s.pipe.writeopen = false) := by
  obtain ⟨s, hs⟩ := Option.isSome_iff_exists.mp
    (show (Run.exec (PipeSys.step Pipe.impl) (PipeSys.init (Pipe.alloc fun _ => 0))
      [.read 1 4 false, .write 2 [104, 105] false, .wake 1 false]).isSome = true by decide)
  exact ⟨s, hs, pipe_bounded_fifo _ _ hs⟩

end Xv6Lab
