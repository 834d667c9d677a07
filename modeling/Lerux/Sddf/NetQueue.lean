import Lerux.Sddf.RingWord

/-!
# The network queue

`net_queue.rs`: a handle is a free ring and an active ring of buffer descriptors, with 16-bit
cursors and a capacity that `net_queue_init` only asks to be non-zero and to fit in 16 bits.

`netQueue_fifo_iff` settles when the two rings are bounded queues. The slot of a cursor is
`cursor % capacity` while the cursor itself wraps at `2 ^ 16`, so the two agree across the wrap
exactly when the capacity divides `2 ^ 16`.
-/

namespace Lerux.NetQueue

open Lerux.Base

/-- `net_buff_desc_t`. The padding is left out. -/
structure NetBuffDesc where
  ioOrOffset : BitVec 64
  len : BitVec 16
  oidByte : BitVec 8
  deriving DecidableEq, Repr

namespace NetBuffDesc

end NetBuffDesc

/-- `net_queue_t` with its descriptors: the two cursors, the slots and the signal word. -/
structure Queue where
  ring : Ring 16 NetBuffDesc
  consumerSignalled : BitVec 32

/-- A queue in zeroed shared memory. -/
def Queue.zeroed : Queue := ⟨⟨0, 0, fun _ => ⟨0, 0, 0⟩⟩, 0⟩

/-- `net_queue_handle_t`, with the queues its pointers name. -/
structure Handle where
  free : Queue
  active : Queue
  capacity : BitVec 32

/-- `net_queue_init`. -/
def netQueueInit (free active : Queue) (capacity : BitVec 32) : Handle := ⟨free, active, capacity⟩

/-- The empty check both rings share. -/
def netQueueEmpty (queue : Queue) : Bool := RingWord.isEmpty queue.ring.tail queue.ring.head

/-- The full check both rings share: the 16-bit length widened to the capacity's 32 bits. -/
def netQueueFull (queue : Queue) (capacity : BitVec 32) : Bool :=
  (RingWord.len queue.ring.tail queue.ring.head).setWidth 32 == capacity

def netQueueEmptyFree (h : Handle) : Bool := netQueueEmpty h.free
def netQueueEmptyActive (h : Handle) : Bool := netQueueEmpty h.active
def netQueueFullFree (h : Handle) : Bool := netQueueFull h.free h.capacity
def netQueueFullActive (h : Handle) : Bool := netQueueFull h.active h.capacity

/-- `enqueue`. -/
def enqueue (queue : Queue) (capacity : BitVec 32) (buffer : NetBuffDesc) (full : Bool) : Int × Queue :=
  if full then (-1, queue)
  else
    let tail := queue.ring.tail
    let index := RingWord.index (tail.setWidth 32) capacity
    (0, { queue with ring := (queue.ring.write index.toNat buffer).storeTail (RingWord.advance tail) })

/-- `dequeue`. The descriptor is the caller's `buffer` after the call. -/
def dequeue (queue : Queue) (capacity : BitVec 32) (buffer : NetBuffDesc) (empty : Bool) :
    Int × NetBuffDesc × Queue :=
  if empty then (-1, buffer, queue)
  else
    let head := queue.ring.head
    let index := RingWord.index (head.setWidth 32) capacity
    (0, queue.ring.slot index.toNat, { queue with ring := queue.ring.storeHead (RingWord.advance head) })

def netEnqueueFree (h : Handle) (buffer : NetBuffDesc) : Int × Handle :=
  let (status, free) := enqueue h.free h.capacity buffer (netQueueFullFree h)
  (status, { h with free })

def netEnqueueActive (h : Handle) (buffer : NetBuffDesc) : Int × Handle :=
  let (status, active) := enqueue h.active h.capacity buffer (netQueueFullActive h)
  (status, { h with active })

def netDequeueFree (h : Handle) (buffer : NetBuffDesc) : Int × NetBuffDesc × Handle :=
  let (status, buffer, free) := dequeue h.free h.capacity buffer (netQueueEmptyFree h)
  (status, buffer, { h with free })

def netDequeueActive (h : Handle) (buffer : NetBuffDesc) : Int × NetBuffDesc × Handle :=
  let (status, buffer, active) := dequeue h.active h.capacity buffer (netQueueEmptyActive h)
  (status, buffer, { h with active })

/-! ### Runs of calls -/

/-- The four calls on a handle. A dequeue passes the descriptor it wants overwritten. -/
inductive Call
  | enqueueFree (buffer : NetBuffDesc)
  | enqueueActive (buffer : NetBuffDesc)
  | dequeueFree (buffer : NetBuffDesc)
  | dequeueActive (buffer : NetBuffDesc)
  deriving DecidableEq

/-- What a call returns: its status, and for a dequeue the caller's descriptor after the call. -/
structure Reply where
  status : Int
  buffer : Option NetBuffDesc
  deriving DecidableEq

def call (h : Handle) : Call → Reply × Handle
  | .enqueueFree d => let (s, h) := netEnqueueFree h d; (⟨s, none⟩, h)
  | .enqueueActive d => let (s, h) := netEnqueueActive h d; (⟨s, none⟩, h)
  | .dequeueFree d => let (s, d, h) := netDequeueFree h d; (⟨s, some d⟩, h)
  | .dequeueActive d => let (s, d, h) := netDequeueActive h d; (⟨s, some d⟩, h)

/-! ### The bounded queue -/

/-- Two bounded queues of descriptors, as a handle is meant to behave. -/
structure Fifo where
  free : List NetBuffDesc
  active : List NetBuffDesc

/-- A bounded queue refuses an element when it holds `capacity` of them. -/
def push (capacity : Nat) (q : List NetBuffDesc) (d : NetBuffDesc) : Int × List NetBuffDesc :=
  if q.length = capacity then (-1, q) else (0, q ++ [d])

/-- A queue gives its oldest element, and refuses when it has none. -/
def pop (q : List NetBuffDesc) (buffer : NetBuffDesc) : Int × NetBuffDesc × List NetBuffDesc :=
  match q with
  | [] => (-1, buffer, [])
  | d :: q => (0, d, q)

def Fifo.call (capacity : Nat) (f : Fifo) : Call → Reply × Fifo
  | .enqueueFree d => let (s, free) := push capacity f.free d; (⟨s, none⟩, { f with free })
  | .enqueueActive d => let (s, active) := push capacity f.active d; (⟨s, none⟩, { f with active })
  | .dequeueFree d => let (s, d, free) := pop f.free d; (⟨s, some d⟩, { f with free })
  | .dequeueActive d => let (s, d, active) := pop f.active d; (⟨s, some d⟩, { f with active })

/-- The replies of a run of calls of a machine with state `σ`, and the state it ends in. -/
def run {σ : Type} (step : σ → Call → Reply × σ) (s : σ) : List Call → List Reply × σ
  | [] => ([], s)
  | c :: cs => let (r, s) := step s c; let (rs, s) := run step s cs; (r :: rs, s)

/-- Every run of calls on a handle over zeroed rings gets the replies of the two bounded queues. -/
def IsBoundedFifo (capacity : BitVec 32) : Prop :=
  ∀ calls : List Call,
    (run call (netQueueInit Queue.zeroed Queue.zeroed capacity) calls).1 =
      (run (Fifo.call capacity.toNat) ⟨[], []⟩ calls).1

theorem run_append {σ : Type} (step : σ → Call → Reply × σ) (s : σ) (xs ys : List Call) :
    run step s (xs ++ ys) =
      ((run step s xs).1 ++ (run step (run step s xs).2 ys).1, (run step (run step s xs).2 ys).2) := by
  induction xs generalizing s with
  | nil => simp [run]
  | cons c cs ih => simp [run, ih]

/-! ### Capacities that divide the counter's range -/

theorem index_setWidth (cursor : BitVec 16) (capacity : BitVec 32) :
    (RingWord.index (cursor.setWidth 32) capacity).toNat = cursor.toNat % capacity.toNat := by
  rw [RingWord.index_toNat, BitVec.toNat_setWidth_of_le (by omega)]

theorem netQueueFull_iff (queue : Queue) (capacity : BitVec 32) :
    netQueueFull queue capacity = true ↔ queue.ring.len = capacity.toNat := by
  rw [netQueueFull, beq_iff_eq, ← BitVec.toNat_inj, BitVec.toNat_setWidth_of_le (by omega)]
  rfl

/-- The ring of `queue` holds exactly `q`. -/
def Holds (capacity : BitVec 32) (queue : Queue) (q : List NetBuffDesc) : Prop :=
  queue.ring.contents capacity.toNat = q ∧ queue.ring.Fits capacity.toNat

section good

variable {capacity : BitVec 32} (hg : Ring.Good 16 capacity.toNat)

include hg in
theorem enqueue_holds {queue : Queue} {q : List NetBuffDesc} (hq : Holds capacity queue q)
    (d : NetBuffDesc) :
    (enqueue queue capacity d (netQueueFull queue capacity)).1 = (push capacity.toNat q d).1 ∧
      Holds capacity (enqueue queue capacity d (netQueueFull queue capacity)).2
        (push capacity.toNat q d).2 := by
  obtain ⟨rfl, hfit⟩ := hq
  by_cases hfull : queue.ring.len = capacity.toNat
  · rw [(netQueueFull_iff queue capacity).mpr hfull]
    simp only [enqueue, push, if_true, Ring.contents_length, if_pos hfull]
    exact ⟨trivial, rfl, hfit⟩
  · have hlt : queue.ring.len < capacity.toNat := lt_of_le_of_ne hfit hfull
    have hnot : netQueueFull queue capacity = false := by
      rw [Bool.eq_false_iff]
      exact fun h => hfull ((netQueueFull_iff queue capacity).mp h)
    simp only [enqueue, push, hnot, Bool.false_eq_true, if_false, Ring.contents_length, if_neg hfull,
      index_setWidth, RingWord.advance]
    refine ⟨trivial, ?_, ?_⟩
    · have := Ring.contents_storeTail hg.toCounts
        (queue.ring.write (queue.ring.tail.toNat % capacity.toNat) d) hlt
      simpa [Ring.contents_write hg queue.ring hlt] using this
    · have := Ring.len_storeTail hg.toCounts
        (queue.ring.write (queue.ring.tail.toNat % capacity.toNat) d) hlt
      simp only [Ring.Fits, Ring.write_tail, Ring.write_len] at this ⊢
      omega

include hg in
theorem dequeue_holds {queue : Queue} {q : List NetBuffDesc} (hq : Holds capacity queue q)
    (d : NetBuffDesc) :
    (dequeue queue capacity d (netQueueEmpty queue)).1 = (pop q d).1 ∧
      (dequeue queue capacity d (netQueueEmpty queue)).2.1 = (pop q d).2.1 ∧
      Holds capacity (dequeue queue capacity d (netQueueEmpty queue)).2.2 (pop q d).2.2 := by
  obtain ⟨rfl, hfit⟩ := hq
  by_cases hempty : queue.ring.len = 0
  · have hnil : queue.ring.contents capacity.toNat = [] := by
      rw [← List.length_eq_zero_iff, Ring.contents_length, hempty]
    rw [netQueueEmpty, (RingWord.isEmpty_iff queue.ring).mpr hempty, hnil]
    exact ⟨rfl, rfl, hnil, hfit⟩
  · have hnot : netQueueEmpty queue = false := by
      rw [Bool.eq_false_iff]
      exact fun h => hempty ((RingWord.isEmpty_iff queue.ring).mp h)
    rw [hnot, Ring.contents_storeHead hg.toCounts queue.ring (Nat.pos_of_ne_zero hempty)]
    simp only [dequeue, pop, Bool.false_eq_true, if_false, index_setWidth, RingWord.advance]
    refine ⟨trivial, trivial, rfl, ?_⟩
    have := Ring.len_storeHead hg.toCounts queue.ring (Nat.pos_of_ne_zero hempty)
    simp only [Ring.Fits] at hfit ⊢
    omega

/-- The handle's rings hold the two queues. -/
def Sim (capacity : BitVec 32) (h : Handle) (f : Fifo) : Prop :=
  h.capacity = capacity ∧ Holds capacity h.free f.free ∧ Holds capacity h.active f.active

include hg in
theorem call_sim {h : Handle} {f : Fifo} (hs : Sim capacity h f) (c : Call) :
    (call h c).1 = (f.call capacity.toNat c).1 ∧ Sim capacity (call h c).2 (f.call capacity.toNat c).2 := by
  obtain ⟨hc, hfree, hactive⟩ := hs
  subst hc
  cases c with
  | enqueueFree d =>
    obtain ⟨h1, h2⟩ := enqueue_holds hg hfree d
    exact ⟨by simpa [call, netEnqueueFree, netQueueFullFree, Fifo.call] using h1, rfl, h2, hactive⟩
  | enqueueActive d =>
    obtain ⟨h1, h2⟩ := enqueue_holds hg hactive d
    exact ⟨by simpa [call, netEnqueueActive, netQueueFullActive, Fifo.call] using h1, rfl, hfree, h2⟩
  | dequeueFree d =>
    obtain ⟨h1, h2, h3⟩ := dequeue_holds hg hfree d
    exact ⟨by simpa [call, netDequeueFree, Fifo.call] using ⟨h1, h2⟩, rfl, h3, hactive⟩
  | dequeueActive d =>
    obtain ⟨h1, h2, h3⟩ := dequeue_holds hg hactive d
    exact ⟨by simpa [call, netDequeueActive, Fifo.call] using ⟨h1, h2⟩, rfl, hfree, h3⟩

include hg in
theorem run_sim {h : Handle} {f : Fifo} (hs : Sim capacity h f) (calls : List Call) :
    (run call h calls).1 = (run (Fifo.call capacity.toNat) f calls).1 := by
  induction calls generalizing h f with
  | nil => rfl
  | cons c cs ih =>
    obtain ⟨hr, hs⟩ := call_sim hg hs c
    simp only [run, hr, ih hs]

include hg in
theorem isBoundedFifo_of_good : IsBoundedFifo capacity := by
  intro calls
  have hzero : Holds capacity Queue.zeroed [] := by
    refine ⟨?_, Nat.zero_le _⟩
    rw [Ring.contents_eq_nil_iff]
    rfl
  exact run_sim hg ⟨rfl, hzero, hzero⟩ calls

end good

/-! ### Capacities that do not

With `r = 2 ^ 16 % capacity` not zero, `2 ^ 16 - r` enqueue/dequeue pairs bring both cursors of the
free ring to a multiple of the capacity. The next `r` descriptors take the slots `0, …, r - 1` and
move `tail` to the wrap, so the one after them lands in slot `0` again, over the oldest. -/

/-- `n` rounds of one enqueue and one dequeue. -/
def rounds (d : NetBuffDesc) : Nat → List Call
  | 0 => []
  | n + 1 => rounds d n ++ [.enqueueFree d, .dequeueFree d]

/-- The run that overwrites a queued descriptor `a` with `b`. -/
def overwrite (capacity : Nat) (a b : NetBuffDesc) : List Call :=
  rounds a (2 ^ 16 - 2 ^ 16 % capacity) ++ List.replicate (2 ^ 16 % capacity) (.enqueueFree a) ++
    [.enqueueFree b]

section bad

variable {capacity : BitVec 32} (hpos : 0 < capacity.toNat) (hlt : capacity.toNat < 2 ^ 16)

/-- Cursors, capacity and specification state along the overwriting run. -/
def At (capacity : BitVec 32) (h : Handle) (f : Fifo) (tail head : Nat) (q : List NetBuffDesc) : Prop :=
  h.capacity = capacity ∧ h.free.ring.tail = BitVec.ofNat 16 tail ∧
    h.free.ring.head = BitVec.ofNat 16 head ∧ f.free = q

theorem ofNat_len {tail head : Nat} (hle : head ≤ tail) (hd : tail - head < 2 ^ 16) :
    (BitVec.ofNat 16 tail - BitVec.ofNat 16 head).toNat = tail - head := by
  simp only [BitVec.toNat_sub, BitVec.toNat_ofNat]
  omega

include hlt in
theorem enqueueFree_at {h : Handle} {f : Fifo} {tail head : Nat} {q : List NetBuffDesc}
    (hat : At capacity h f tail head q) (hle : head ≤ tail) (hroom : tail - head < capacity.toNat)
    (hlen : q.length < capacity.toNat) (d : NetBuffDesc) :
    At capacity (call h (.enqueueFree d)).2 (f.call capacity.toNat (.enqueueFree d)).2
      (tail + 1) head (q ++ [d]) ∧
      (call h (.enqueueFree d)).2.free.ring.slot (tail % 2 ^ 16 % capacity.toNat) = d := by
  obtain ⟨hc, ht, hh, hq⟩ := hat
  have hnot : netQueueFullFree h = false := by
    rw [Bool.eq_false_iff]
    intro hfull
    have := (netQueueFull_iff h.free h.capacity).mp hfull
    rw [Ring.len, ht, hh, ofNat_len hle (by omega), hc] at this
    omega
  have hslot : (RingWord.index (h.free.ring.tail.setWidth 32) capacity).toNat =
    tail % 2 ^ 16 % capacity.toNat := by
    rw [index_setWidth, ht, BitVec.toNat_ofNat]
  simp only [call, netEnqueueFree, enqueue, hnot, Bool.false_eq_true, if_false, Fifo.call, push, hq,
    if_neg (by omega : ¬q.length = capacity.toNat), hc, hslot]
  refine ⟨⟨rfl, ?_, hh, rfl⟩, Ring.write_slot_self _ _ _⟩
  change h.free.ring.tail + 1 = _
  rw [ht, BitVec.ofNat_add]
  rfl

theorem dequeueFree_at {h : Handle} {f : Fifo} {tail head : Nat} {q : List NetBuffDesc} {d x : NetBuffDesc}
    (hat : At capacity h f tail head (x :: q)) (hlt : head < tail) (hd : tail - head < 2 ^ 16) :
    At capacity (call h (.dequeueFree d)).2 (f.call capacity.toNat (.dequeueFree d)).2 tail (head + 1) q ∧
      (call h (.dequeueFree d)).1 = ⟨0, some (h.free.ring.slot (head % 2 ^ 16 % capacity.toNat))⟩ := by
  obtain ⟨hc, ht, hh, hq⟩ := hat
  have hnot : netQueueEmptyFree h = false := by
    rw [Bool.eq_false_iff]
    intro hempty
    have := (RingWord.isEmpty_iff h.free.ring).mp hempty
    rw [Ring.len, ht, hh, ofNat_len hlt.le hd] at this
    omega
  have hslot : (RingWord.index (h.free.ring.head.setWidth 32) capacity).toNat =
    head % 2 ^ 16 % capacity.toNat := by
    rw [index_setWidth, hh, BitVec.toNat_ofNat]
  simp only [call, netDequeueFree, dequeue, hnot, Bool.false_eq_true, if_false, Fifo.call, pop, hq,
    hc, hslot,
    and_true]
  refine ⟨rfl, ht, ?_, rfl⟩
  change h.free.ring.head + 1 = _
  rw [hh, BitVec.ofNat_add]
  rfl

include hpos hlt in
theorem rounds_at (a : NetBuffDesc) (n : Nat) :
    At capacity (run call (netQueueInit Queue.zeroed Queue.zeroed capacity) (rounds a n)).2
      (run (Fifo.call capacity.toNat) ⟨[], []⟩ (rounds a n)).2 n n [] := by
  induction n with
  | zero => exact ⟨rfl, rfl, rfl, rfl⟩
  | succ n ih =>
    rw [rounds, run_append, run_append]
    have henq := (enqueueFree_at hlt ih le_rfl (by omega) (by simpa using hpos) a).1
    exact (dequeueFree_at henq (by omega) (by omega)).1

include hlt in
theorem fill_at {h : Handle} {f : Fifo} {k : Nat} (hat : At capacity h f k k []) (a : NetBuffDesc) (n : Nat)
    (hn : n < capacity.toNat) :
    At capacity (run call h (List.replicate n (.enqueueFree a))).2
      (run (Fifo.call capacity.toNat) f (List.replicate n (.enqueueFree a))).2 (k + n) k
      (List.replicate n a) := by
  induction n with
  | zero => exact hat
  | succ n ih =>
    rw [List.replicate_succ', run_append, run_append, List.replicate_succ']
    exact (enqueueFree_at hlt (ih (by omega)) (by omega) (by omega) (by simp; omega) a).1

include hpos hlt in
/-- After the run the queue's oldest descriptor is `a`, and the ring's slot for it holds `b`. -/
theorem overwrite_at (hdvd : ¬capacity.toNat ∣ 2 ^ 16) (a b : NetBuffDesc) :
    ∃ tail head q,
      At capacity (run call (netQueueInit Queue.zeroed Queue.zeroed capacity)
        (overwrite capacity.toNat a b)).2
        (run (Fifo.call capacity.toNat) ⟨[], []⟩ (overwrite capacity.toNat a b)).2 tail head (a :: q) ∧
      head < tail ∧ tail - head < 2 ^ 16 ∧
      (run call (netQueueInit Queue.zeroed Queue.zeroed capacity)
        (overwrite capacity.toNat a b)).2.free.ring.slot (head % 2 ^ 16 % capacity.toNat) = b := by
  have hr : 0 < 2 ^ 16 % capacity.toNat := Nat.pos_of_ne_zero fun h => hdvd (Nat.dvd_of_mod_eq_zero h)
  have hrlt : 2 ^ 16 % capacity.toNat < capacity.toNat := Nat.mod_lt _ hpos
  have hle : 2 ^ 16 % capacity.toNat ≤ 2 ^ 16 := Nat.mod_le _ _
  -- the round count is a multiple of the capacity, so its slot is the first one
  have hzero : (2 ^ 16 - 2 ^ 16 % capacity.toNat) % 2 ^ 16 % capacity.toNat = 0 := by
    rw [Nat.mod_eq_of_lt (show 2 ^ 16 - 2 ^ 16 % capacity.toNat < 2 ^ 16 by omega)]
    exact Nat.mod_eq_zero_of_dvd (Nat.dvd_sub_mod _)
  have hfill := fill_at hlt (rounds_at hpos hlt a (2 ^ 16 - 2 ^ 16 % capacity.toNat)) a _ hrlt
  obtain ⟨hat, hslot⟩ := enqueueFree_at hlt hfill (by omega) (by omega) (by simpa using hrlt) b
  rw [Nat.sub_add_cancel hle] at hat hslot
  simp only [overwrite, run_append]
  refine ⟨2 ^ 16 + 1, 2 ^ 16 - 2 ^ 16 % capacity.toNat,
    List.replicate (2 ^ 16 % capacity.toNat - 1) a ++ [b],
    ?_, by omega, by omega, ?_⟩
  · rw [← List.cons_append, ← List.replicate_succ, Nat.sub_add_cancel hr]
    exact hat
  · rw [hzero]
    rwa [Nat.mod_self, Nat.zero_mod] at hslot

include hpos hlt in
theorem not_isBoundedFifo (hdvd : ¬capacity.toNat ∣ 2 ^ 16) : ¬IsBoundedFifo capacity := by
  intro hfifo
  let a : NetBuffDesc := ⟨0, 0, 0⟩
  let b : NetBuffDesc := ⟨1, 0, 0⟩
  obtain ⟨tail, head, q, hat, hne, hd, hslot⟩ := overwrite_at hpos hlt hdvd a b
  have hreply := (dequeueFree_at (d := a) hat hne hd).2
  have hrun := hfifo (overwrite capacity.toNat a b ++ [.dequeueFree a])
  rw [run_append, run_append] at hrun
  have hlast := List.append_inj_right' hrun rfl
  rw [hslot] at hreply
  simp only [run, hreply, Fifo.call, pop, hat.2.2.2] at hlast
  simp [a, b] at hlast

end bad

/-- A handle of a legal capacity is a pair of bounded queues exactly when the capacity divides the
range of the 16-bit cursors. -/
theorem netQueue_fifo_iff (capacity : BitVec 32) (hpos : capacity ≠ 0) (hlt : capacity.toNat < 2 ^ 16) :
    IsBoundedFifo capacity ↔ capacity.toNat ∣ 2 ^ 16 := by
  have hpos : 0 < capacity.toNat := Nat.pos_of_ne_zero fun h =>
    hpos (BitVec.eq_of_toNat_eq (by simpa using h))
  constructor
  · intro hfifo
    by_contra hdvd
    exact not_isBoundedFifo hpos hlt hdvd hfifo
  · intro hdvd
    exact isBoundedFifo_of_good ⟨⟨hpos, hlt⟩, hdvd⟩

/-- The image's capacity. -/
theorem netQueue_fifo_sixteen : IsBoundedFifo 16 ↔ (16 : BitVec 32).toNat ∣ 2 ^ 16 :=
  netQueue_fifo_iff 16 (by decide) (by decide)

/-- Capacity three is legal, and its ring loses a descriptor at the wrap. -/
theorem capacity_three_not_fifo : (3 : BitVec 32) ≠ 0 ∧ (3 : BitVec 32).toNat < 2 ^ 16 ∧ ¬IsBoundedFifo 3 :=
  ⟨by decide, by decide, not_isBoundedFifo (by decide) (by decide) (by decide)⟩

end Lerux.NetQueue
