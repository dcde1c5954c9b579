import Xv6Lab.Pipe.Pipe

/-!
# A pipe as a bounded FIFO queue

What a pipe is for: a queue of at most `PIPESIZE` bytes.  A write appends its bytes one at a
time while there is room, and gives up or sleeps when the queue is full; a read sleeps while
the queue is empty and the write end open, then takes up to `n` bytes from the front.
`stored` is every byte ever appended, in order: a history that belongs to the statement of
purpose, not to any state the code keeps.

* `writeLoop_appends` / `writeLoop_full` — a segment of a write appends a prefix of its bytes,
  all of them if it returns, and stops early only at a full queue;
* `read_done_nil` — a read returns nothing only for `n = 0` or at an empty queue whose write
  end is closed;
* `out_append_queue` — in every reachable state the bytes the completed reads returned, then
  the bytes still queued, are the bytes stored, in storage order: no byte is returned twice,
  out of order, or lost.
-/

namespace Xv6Lab

/-- A bounded FIFO queue of bytes with its two ends and its history. -/
@[ext] structure PipeQueue where
  q : List UInt8
  stored : List UInt8
  readopen : Bool
  writeopen : Bool
  q_le : q.length ≤ PIPESIZE

namespace PipeQueue

/-- A new pipe: nothing queued, both ends open. -/
def empty : PipeQueue := ⟨[], [], true, true, Nat.zero_le _⟩

/-- `c` appended to a queue with room. -/
def push (f : PipeQueue) (c : UInt8) (h : f.q.length ≠ PIPESIZE) : PipeQueue :=
  ⟨f.q ++ [c], f.stored ++ [c], f.readopen, f.writeopen, by
    rw [List.length_append, List.length_singleton]
    exact Nat.lt_of_le_of_ne f.q_le h⟩

/-- A write's bytes appended while there is room. -/
def writeLoop (killed : Bool) : List UInt8 → PipeQueue → PipeQueue × WriteEnd
  | [], f => (f, .done)
  | c :: cs, f =>
    if h : f.q.length = PIPESIZE then
      if !f.readopen || killed then (f, .failed) else (f, .asleep (c :: cs))
    else writeLoop killed cs (f.push c h)

/-- The first `n` bytes taken. -/
def drop (f : PipeQueue) (n : ℕ) : PipeQueue :=
  ⟨f.q.drop n, f.stored, f.readopen, f.writeopen, by
    rw [List.length_drop]
    exact le_trans (Nat.sub_le _ _) f.q_le⟩

/-- A read of `n` bytes. -/
def read (killed : Bool) (n : ℕ) (f : PipeQueue) : PipeQueue × ReadEnd :=
  if f.q = [] ∧ f.writeopen = true then (f, if killed then .failed else .asleep)
  else (f.drop n, .done (f.q.take n))

/-- One end closed. -/
def close (f : PipeQueue) (writable : Bool) : PipeQueue :=
  if writable then { f with writeopen := false } else { f with readopen := false }

def freed (f : PipeQueue) : Bool := !f.readopen && !f.writeopen

/-- The queue's operations. -/
def impl : PipeImpl PipeQueue := ⟨writeLoop, read, close, freed⟩

@[simp] theorem drop_zero (f : PipeQueue) : f.drop 0 = f := by
  ext <;> simp [drop]

theorem drop_drop (f : PipeQueue) (a b : ℕ) : (f.drop a).drop b = f.drop (a + b) := by
  ext <;> simp [drop, List.drop_drop, Nat.add_comm]

theorem drop_of_q_nil {f : PipeQueue} (h : f.q = []) (n : ℕ) : f.drop n = f := by
  ext <;> simp [drop, h]

/-- A full queue takes nothing: the write gives up or sleeps. -/
theorem writeLoop_of_full (killed : Bool) (c : UInt8) (cs : List UInt8) {f : PipeQueue}
    (h : f.q.length = PIPESIZE) :
    (writeLoop killed (c :: cs) f).1 = f ∧ (writeLoop killed (c :: cs) f).2 ≠ .done := by
  unfold writeLoop
  rw [dif_pos h]
  split <;> exact ⟨rfl, nofun⟩

theorem writeLoop_of_room (killed : Bool) (c : UInt8) (cs : List UInt8) {f : PipeQueue}
    (h : f.q.length ≠ PIPESIZE) : writeLoop killed (c :: cs) f = writeLoop killed cs (f.push c h) := by
  rw [writeLoop, dif_neg h]

/-- **A segment of a write appends a prefix of its bytes** to the queue and to the history, and
all of them when it returns. -/
theorem writeLoop_appends (killed : Bool) (bs : List UInt8) (f : PipeQueue) :
    ∃ d, d <+: bs ∧ (writeLoop killed bs f).1.q = f.q ++ d ∧
      (writeLoop killed bs f).1.stored = f.stored ++ d ∧
      ((writeLoop killed bs f).2 = .done → d = bs) := by
  induction bs generalizing f with
  | nil => exact ⟨[], List.prefix_refl _, (List.append_nil _).symm, (List.append_nil _).symm, fun _ => rfl⟩
  | cons c cs ih =>
    by_cases h : f.q.length = PIPESIZE
    · obtain ⟨hf, hnd⟩ := writeLoop_of_full killed c cs h
      refine ⟨[], List.nil_prefix, ?_, ?_, fun hd => absurd hd hnd⟩
      · rw [hf, List.append_nil]
      · rw [hf, List.append_nil]
    · -- `c` goes in, then the rest of the segment
      obtain ⟨d, hd, hq, hs, hdone⟩ := ih (f.push c h)
      rw [writeLoop_of_room killed c cs h]
      refine ⟨c :: d, List.cons_prefix_cons.mpr ⟨rfl, hd⟩, ?_, ?_, fun hd' => by rw [hdone hd']⟩
      · rw [hq]
        simp [push]
      · rw [hs]
        simp [push]

/-- **A write stops early only at a full queue.** -/
theorem writeLoop_full (killed : Bool) (bs : List UInt8) (f : PipeQueue)
    (h : (writeLoop killed bs f).2 ≠ .done) : (writeLoop killed bs f).1.q.length = PIPESIZE := by
  induction bs generalizing f with
  | nil => exact absurd rfl h
  | cons c cs ih =>
    by_cases hf : f.q.length = PIPESIZE
    · rw [(writeLoop_of_full killed c cs hf).1]
      exact hf
    · rw [writeLoop_of_room killed c cs hf] at h ⊢
      exact ih _ h

/-- **A read returns nothing** only when asked for nothing, or at an empty queue whose write end
is closed. -/
theorem read_done_nil {killed : Bool} {n : ℕ} {f : PipeQueue} (h : (read killed n f).2 = .done []) :
    n = 0 ∨ f.q = [] ∧ f.writeopen = false := by
  unfold read at h
  split at h
  · split at h <;> cases h
  · next hne =>
    have htake : f.q.take n = [] := ReadEnd.done.inj h
    rcases List.take_eq_nil_iff.mp htake with hn | hq
    · exact .inl hn
    · exact .inr ⟨hq, by simpa [hq] using hne⟩

/-- A read returns the front of the queue and leaves the rest, with the history unchanged. -/
theorem read_bytes_append (killed : Bool) (n : ℕ) (f : PipeQueue) :
    (read killed n f).2.bytes ++ (read killed n f).1.q = f.q ∧ (read killed n f).1.stored = f.stored := by
  unfold read
  split
  · split <;> exact ⟨rfl, rfl⟩
  · exact ⟨List.take_append_drop n f.q, rfl⟩

theorem close_q (f : PipeQueue) (writable : Bool) : (f.close writable).q = f.q ∧ (f.close writable).stored = f.stored := by
  unfold close
  split <;> exact ⟨rfl, rfl⟩

end PipeQueue

/-- The bytes returned, then the bytes queued, are the bytes stored. -/
def PipeSys.InOrder (s : PipeSys PipeQueue) : Prop := s.out ++ s.pipe.q = s.pipe.stored

/-- **One step keeps the order.** -/
theorem PipeSys.inOrder_step {s t : PipeSys PipeQueue} {a : PipeOp} (hs : s.InOrder)
    (h : PipeSys.step PipeQueue.impl s a = some t) : t.InOrder := by
  rcases PipeSys.step_cases PipeQueue.impl h with ⟨p, bytes, killed, rfl⟩ | ⟨p, n, killed, rfl⟩ | ⟨w, rfl⟩
  · -- a write appends the same bytes to the queue and to the history
    obtain ⟨d, -, hq, hst, -⟩ := PipeQueue.writeLoop_appends killed bytes s.pipe
    show s.out ++ (PipeQueue.writeLoop killed bytes s.pipe).1.q = (PipeQueue.writeLoop killed bytes s.pipe).1.stored
    rw [hq, hst, ← hs, List.append_assoc]
  · -- a read moves the front of the queue to the bytes returned
    obtain ⟨hq, hst⟩ := PipeQueue.read_bytes_append killed n s.pipe
    show s.out ++ (PipeQueue.read killed n s.pipe).2.bytes ++ (PipeQueue.read killed n s.pipe).1.q =
      (PipeQueue.read killed n s.pipe).1.stored
    rw [List.append_assoc, hq, hst, hs]
  · obtain ⟨hq, hst⟩ := PipeQueue.close_q s.pipe w
    show s.out ++ (s.pipe.close w).q = (s.pipe.close w).stored
    rw [hq, hst, hs]

/-- **FIFO order**: in every state reachable from a new pipe, under any interleaving of writes,
reads, wakeups and closes by any processes, the bytes returned by the completed reads, in
completion order, followed by the bytes still queued, are exactly the bytes stored, in storage
order. -/
theorem out_append_queue {s : PipeSys PipeQueue}
    (hs : PipeSys.Reachable PipeQueue.impl (· = PipeQueue.empty) s) : s.out ++ s.pipe.q = s.pipe.stored := by
  refine Run.Reachable.induction PipeSys.InOrder ?_ (fun _ _ _ hi h => PipeSys.inOrder_step hi h) hs
  rintro _ ⟨f, rfl, rfl⟩
  rfl

end Xv6Lab
