import Lerux.Base.Bytes
import Lerux.Base.LittleEndian
import Lerux.Base.Steps

/-!
# The rings of the gate

A program that forbids `unsafe` claims regions, asks for both ends of a ring on two of them and
moves bytes through these ends. What it is given are pointers, and every call reads the words of the
queue again. `serial_pair` checks the sizes. It checks neither that the regions are two nor what the
queue says.
-/

namespace Lerux.Gate

open Lerux.Base

abbrev Mem : Type := Nat → UInt8

def maxClaims : Nat := 64

/-- The table of the claimed ranges, unless the claim panics. -/
def claim (table : List (Nat × Nat)) (start len : Nat) : Option (List (Nat × Nat)) :=
  if len = 0 then some table
  else
    let fin := min (start + len) (2 ^ 64 - 1)
    if table.any fun range => start < range.2 && range.1 < fin then none
    else if table.length < maxClaims then some (table ++ [(start, fin)])
    else none

structure Region where
  ptr : Nat
  len : Nat

/-- A buffer of the program, with what it holds when it is claimed. -/
structure Slice where
  ptr : Nat
  bytes : List UInt8
  fits : ptr + bytes.length < 2 ^ 64

/-- What either end of a ring is: `SerialProducer` and `SerialConsumer` have the same fields. -/
structure Ring where
  queue : Nat
  data : Nat
  capacity : Nat
deriving DecidableEq

inductive PairError
  | emptyCapacity | shortData | shortQueue | unalignedQueue
deriving DecidableEq

inductive QueueError
  | full | empty
deriving DecidableEq

/-- The words `tail`, `head` and `producer_signalled`. -/
def queueSize : Nat := 12

def serialPair (queue data : Region) (capacity : Nat) : Except PairError (Ring × Ring) :=
  if capacity = 0 then .error .emptyCapacity
  else if 2 ^ 32 ≤ data.len then .error .shortData
  else if data.len < capacity then .error .shortData
  else if queue.len < queueSize then .error .shortQueue
  else if queue.ptr % 4 ≠ 0 then .error .unalignedQueue
  else .ok (⟨queue.ptr, data.ptr, capacity⟩, ⟨queue.ptr, data.ptr, capacity⟩)

def load (mem : Mem) (ptr : Nat) : Nat := leNat (readAt mem ptr 4)

def store (mem : Mem) (ptr n : Nat) : Mem := writeAt mem ptr (leBytes 4 n)

def Ring.tail (r : Ring) (mem : Mem) : Nat := load mem r.queue

def Ring.head (r : Ring) (mem : Mem) : Nat := load mem (r.queue + 4)

/-- How many bytes the words of the queue say are in it. -/
def Ring.count (r : Ring) (mem : Mem) : Nat := (r.tail mem + 2 ^ 32 - r.head mem) % 2 ^ 32

/-- Where a byte with this number goes. -/
def Ring.slot (r : Ring) (n : Nat) : Nat := n % 2 ^ 32 % r.capacity

def enqueue (r : Ring) (byte : UInt8) (mem : Mem) : Except QueueError Unit × Mem :=
  if r.count mem = r.capacity then (.error .full, mem)
  else (.ok (), store (writeAt mem (r.data + r.slot (r.tail mem)) [byte]) r.queue (r.tail mem + 1))

def dequeue (r : Ring) (mem : Mem) : Except QueueError UInt8 × Mem :=
  if r.head mem = r.tail mem then (.error .empty, mem)
  else (.ok (mem (r.data + r.slot (r.head mem))), store mem (r.queue + 4) (r.head mem + 1))

/-! ### Programs -/

/-- `queued` is what has been enqueued on a ring and not yet dequeued. -/
structure World where
  mem : Mem
  claims : List (Nat × Nat)
  regions : List Region
  producers : List Ring
  consumers : List Ring
  queued : Ring → List UInt8

/-- The calls that a program can make. It names a region or an end by when it got it. -/
inductive Call
  | fromMut (bytes : Slice)
  | serialPair (queue data capacity : Nat)
  | enqueue (producer : Nat) (byte : UInt8)
  | dequeue (consumer : Nat)

def World.new (mem : Mem) : World := ⟨mem, [], [], [], [], fun _ => []⟩

/-- A call, unless the program cannot make it or it panics. -/
def step (w : World) : Call → Option World
  | .fromMut bytes => do
    let claims ← claim w.claims bytes.ptr bytes.bytes.length
    some { w with mem := writeAt w.mem bytes.ptr bytes.bytes, claims, regions := w.regions ++
      [⟨bytes.ptr, bytes.bytes.length⟩] }
  | .serialPair queue data capacity => do
    let queue ← w.regions[queue]?
    let data ← w.regions[data]?
    match serialPair queue data capacity with
    | .error _ => some w
    | .ok (producer, consumer) => some { w with producers := w.producers ++ [producer], consumers := w.consumers ++ [consumer] }
  | .enqueue producer byte => do
    let r ← w.producers[producer]?
    match enqueue r byte w.mem with
    | (.error _, mem) => some { w with mem }
    | (.ok (), mem) => some { w with mem, queued := Function.update w.queued r (w.queued r ++ [byte]) }
  | .dequeue consumer => do
    let r ← w.consumers[consumer]?
    match dequeue r w.mem with
    | (.error _, mem) => some { w with mem }
    | (.ok _, mem) => some { w with mem, queued := Function.update w.queued r (w.queued r).tail }

/-- What the gate promises of a call. An enqueue touches no header, but for the tail of its own
ring, and no byte outside its data. A dequeue returns the oldest byte that is in its ring. -/
def Sound (w : World) : Call → Prop
  | .fromMut _ => True
  | .serialPair _ _ _ => True
  | .enqueue producer byte => ∀ r, w.producers[producer]? = some r → ∀ a,
    (enqueue r byte w.mem).2 a ≠ w.mem a →
      (r.queue ≤ a ∧ a < r.queue + 4 ∨ r.data ≤ a ∧ a < r.data + r.capacity) ∧
        ∀ p ∈ w.producers, p.queue ≤ a → a < p.queue + queueSize → p = r ∧ a < r.queue + 4
  | .dequeue consumer => ∀ r, w.consumers[consumer]? = some r → (dequeue r w.mem).1.toOption =
    (w.queued r).head?

/-- No byte of the ring is where the next byte goes. -/
def Ring.Free (r : Ring) (mem : Mem) : Prop := ∀ k < r.count mem, r.slot (r.head mem + k) ≠
    r.slot (r.tail mem)

/-- A new ring has regions that no other ring has, two of them, and its queue says that it is empty.
Unless a ring is full, the next byte goes where none is. -/
def Careful (w : World) : Call → Prop
  | .fromMut _ => True
  | .serialPair queue data capacity => ∀ q d r s, w.regions[queue]? = some q → w.regions[data]? = some d →
      serialPair q d capacity = .ok (r, s) → r ∈ w.producers ∨
        (r.tail w.mem = r.head w.mem ∧ r.queue ≠ r.data ∧
        ∀ p ∈ w.producers, p.queue ≠ r.queue ∧ p.queue ≠ r.data ∧ p.data ≠ r.queue ∧ p.data ≠ r.data)
  | .enqueue producer _ => ∀ r, w.producers[producer]? = some r → r.count w.mem = r.capacity ∨ r.Free w.mem
  | .dequeue _ => True

/-! ### One ring -/

section ring

variable {mem mem' : Mem} {r : Ring} {queue : List UInt8} {ptr n : Nat}

theorem load_lt (mem : Mem) (ptr : Nat) : load mem ptr < 2 ^ 32 := by
  have h := leNat_lt (readAt mem ptr 4)
  rw [length_readAt] at h
  exact h

theorem load_congr (h : ∀ a, ptr ≤ a → a < ptr + 4 → mem' a = mem a) : load mem' ptr = load mem ptr := by
  unfold load readAt
  refine congrArg leNat (List.map_congr_left fun i hi => ?_)
  have hi := List.mem_range.mp hi
  exact h _ (by omega) (by omega)

theorem load_store : load (store mem ptr n) ptr = n % 2 ^ 32 := by
  have h : readAt (writeAt mem ptr (leBytes 4 n)) ptr (leBytes 4 n).length = leBytes 4 n := readAt_writeAt
  rw [length_leBytes] at h
  unfold load store
  rw [h, leNat_leBytes_mod]
  rfl

theorem store_of_ne {a : Nat} (h : a < ptr ∨ ptr + 4 ≤ a) : store mem ptr n a = mem a :=
  writeAt_of_not_mem (by rw [length_leBytes]; exact h)

/-- The bytes of a ring: the header and the data are apart. -/
def Ring.Apart (r : Ring) : Prop := r.queue + queueSize ≤ r.data ∨ r.data + r.capacity ≤ r.queue

/-- What a ring holds. -/
structure View (mem : Mem) (r : Ring) (queue : List UInt8) : Prop where
  count : r.count mem = queue.length
  room : queue.length ≤ r.capacity
  slots : ∀ k b, queue[k]? = some b → mem (r.data + r.slot (r.head mem + k)) = b

/-- What a call outside a ring leaves. -/
structure Frame (r : Ring) (mem mem' : Mem) : Prop where
  header : ∀ a, r.queue ≤ a → a < r.queue + queueSize → mem' a = mem a
  data : ∀ a, r.data ≤ a → a < r.data + r.capacity → mem' a = mem a

theorem Frame.tail (h : Frame r mem mem') : r.tail mem' = r.tail mem :=
  load_congr fun a ha ha' => h.header a ha (by unfold queueSize; omega)

theorem Frame.head (h : Frame r mem mem') : r.head mem' = r.head mem :=
  load_congr fun a ha ha' => h.header a (by omega) (by unfold queueSize; omega)

theorem Ring.slot_lt (hcapacity : 0 < r.capacity) (n : Nat) : r.slot n < r.capacity :=
  Nat.mod_lt _ hcapacity

theorem View.frame (h : View mem r queue) (hframe : Frame r mem mem') (hcapacity : 0 < r.capacity) :
    View mem' r queue := by
  have hcount : r.count mem' = r.count mem := by
    unfold Ring.count
    rw [hframe.tail, hframe.head]
  refine ⟨hcount.trans h.count, h.room, fun k b hk => ?_⟩
  have hslot := r.slot_lt hcapacity (r.head mem + k)
  rw [hframe.head, hframe.data _ (by omega) (by omega), h.slots k b hk]

theorem View.empty (h : r.tail mem = r.head mem) : View mem r [] := by
  refine ⟨?_, Nat.zero_le _, fun k b hk => by cases hk⟩
  unfold Ring.count
  rw [h, Nat.add_sub_cancel_left]
  rfl

theorem View.dequeue_eq (h : View mem r queue) : (dequeue r mem).1.toOption = queue.head? := by
  have htail := load_lt mem r.queue
  have hhead := load_lt mem (r.queue + 4)
  have hcount := h.count
  unfold Ring.count at hcount
  unfold dequeue
  split
  · rename_i heq
    rw [heq, Nat.add_sub_cancel_left, Nat.mod_self] at hcount
    rw [List.length_eq_zero_iff.mp hcount.symm]
    rfl
  · rename_i hne
    cases queue with
    | nil =>
      rw [List.length_nil] at hcount
      change r.tail mem < _ at htail
      change r.head mem < _ at hhead
      omega
    | cons b queue =>
      exact congrArg some (h.slots 0 b rfl)

theorem Ring.slot_mod (r : Ring) (n k : Nat) : r.slot (n % 2 ^ 32 + k) = r.slot (n + k) := by
  unfold Ring.slot
  rw [Nat.mod_add_mod]

/-- The counter of a ring is the number of its bytes, and the next byte is numbered after them. -/
theorem View.tail_eq (h : View mem r queue) : r.slot (r.head mem + queue.length) = r.slot (r.tail mem) := by
  have htail : r.tail mem < 2 ^ 32 := load_lt mem r.queue
  have hhead : r.head mem < 2 ^ 32 := load_lt mem (r.queue + 4)
  have hsum : (r.head mem + queue.length) % 2 ^ 32 = r.tail mem % 2 ^ 32 := by
    rw [← h.count]
    unfold Ring.count
    omega
  unfold Ring.slot
  rw [hsum]

theorem View.dequeue {b : UInt8} (h : View mem r (b :: queue)) (hapart : r.Apart)
    (hcapacity : 0 < r.capacity) :
    View (dequeue r mem).2 r queue := by
  have htail : r.tail mem < 2 ^ 32 := load_lt mem r.queue
  have hhead : r.head mem < 2 ^ 32 := load_lt mem (r.queue + 4)
  have hcount := h.count
  unfold Ring.count at hcount
  rw [List.length_cons] at hcount
  have hne : r.head mem ≠ r.tail mem := by omega
  have hmem : (Gate.dequeue r mem).2 = store mem (r.queue + 4) (r.head mem + 1) := by
    unfold Gate.dequeue
    rw [if_neg hne]
  rw [hmem]
  have htail' : r.tail (store mem (r.queue + 4) (r.head mem + 1)) = r.tail mem :=
    load_congr fun a _ ha => store_of_ne (.inl ha)
  have hhead' : r.head (store mem (r.queue + 4) (r.head mem + 1)) = (r.head mem + 1) % 2 ^ 32 := load_store
  refine ⟨?_, Nat.le_trans (Nat.le_succ _) h.room, fun k a hk => ?_⟩
  · unfold Ring.count
    rw [htail', hhead']
    omega
  · have hslot := r.slot_lt hcapacity (r.head mem + 1 + k)
    unfold Ring.Apart queueSize at hapart
    rw [hhead', r.slot_mod, store_of_ne (by omega), Nat.add_assoc, Nat.add_comm 1]
    exact h.slots (k + 1) a hk

theorem View.enqueue {b : UInt8} (h : View mem r queue) (hapart : r.Apart)
    (hcapacity : 0 < r.capacity) (hsmall : r.capacity < 2 ^ 32)
    (hroom : r.count mem ≠ r.capacity) (hfree : r.Free mem) : View (enqueue r b mem).2 r
      (queue ++ [b]) := by
  have htail : r.tail mem < 2 ^ 32 := load_lt mem r.queue
  have hhead : r.head mem < 2 ^ 32 := load_lt mem (r.queue + 4)
  have hcount := h.count
  have hlength := h.room
  rw [← hcount] at hlength
  have hmem : (Gate.enqueue r b mem).2 = store (writeAt mem (r.data + r.slot (r.tail mem))
    [b]) r.queue (r.tail mem + 1) := by
    unfold Gate.enqueue
    rw [if_neg hroom]
  have hslot := r.slot_lt hcapacity (r.tail mem)
  have hspan := hapart
  unfold Ring.Apart queueSize at hspan
  -- the words are beside the byte that is written
  have htail' : r.tail (Gate.enqueue r b mem).2 = (r.tail mem + 1) % 2 ^ 32 := by
    rw [hmem]
    exact load_store
  have hhead' : r.head (Gate.enqueue r b mem).2 = r.head mem := by
    rw [hmem]
    refine load_congr fun a ha ha' => ?_
    rw [store_of_ne (by omega), writeAt_of_not_mem (by rw [List.length_singleton]; omega)]
  have hdata : ∀ n, (Gate.enqueue r b mem).2 (r.data + r.slot n) = if r.slot n =
    r.slot (r.tail mem) then b else mem (r.data + r.slot n) := by
    intro n
    have hn := r.slot_lt hcapacity n
    rw [hmem, store_of_ne (by omega)]
    split
    · rename_i heq
      rw [heq, writeAt_of_mem (Nat.le_refl _) (Nat.lt_succ_self _), Nat.sub_self]
      rfl
    · exact writeAt_of_not_mem (by rw [List.length_singleton]; omega)
  refine ⟨?_, ?_, fun k a hk => ?_⟩
  · rw [List.length_append, ← hcount]
    unfold Ring.count at hroom hlength ⊢
    rw [htail', hhead', List.length_singleton]
    omega
  · rw [List.length_append, ← hcount, List.length_singleton]
    omega
  · rw [hhead', hdata]
    obtain hlt | hge := Nat.lt_or_ge k queue.length
    · rw [List.getElem?_append_left hlt] at hk
      rw [if_neg (hfree k (hcount ▸ hlt)), h.slots k a hk]
    · rw [List.getElem?_append_right hge] at hk
      obtain hzero | hpos := Nat.eq_zero_or_pos (k - queue.length)
      · rw [hzero] at hk
        obtain rfl : k = queue.length := by omega
        rw [if_pos h.tail_eq]
        exact Option.some.inj hk
      · rw [List.getElem?_eq_none (by rw [List.length_singleton]; omega)] at hk
        cases hk

/-- Where the words have not wrapped, or wrap with the ring, the next byte goes where none is. -/
theorem View.free (h : View mem r queue) (hroom : r.count mem ≠ r.capacity)
    (hwrap : r.capacity ∣ 2 ^ 32 ∨ r.head mem ≤ r.tail mem) :
    r.Free mem := by
  have htail : r.tail mem < 2 ^ 32 := load_lt mem r.queue
  have hhead : r.head mem < 2 ^ 32 := load_lt mem (r.queue + 4)
  have hcount := h.count
  have hlength := h.room
  have hslot : ∀ k ≤ queue.length, r.slot (r.head mem + k) = (r.head mem + k) % r.capacity := by
    intro k hk
    obtain hdvd | hle := hwrap
    · exact Nat.mod_mod_of_dvd _ hdvd
    · have hsmall : r.head mem + k < 2 ^ 32 := by
        unfold Ring.count at hcount
        omega
      exact congrArg (· % r.capacity) (Nat.mod_eq_of_lt hsmall)
  intro k hk heq
  rw [hcount] at hk hroom
  rw [← h.tail_eq, hslot k (Nat.le_of_lt hk), hslot _ (Nat.le_refl _)] at heq
  have hzero := Nat.sub_mod_eq_zero_of_mod_eq heq.symm
  rw [Nat.add_sub_add_left, Nat.mod_eq_of_lt (by omega)] at hzero
  omega

theorem enqueue_touches {b : UInt8} {a : Nat} (hcapacity : 0 < r.capacity)
    (h : (enqueue r b mem).2 a ≠ mem a) :
    r.queue ≤ a ∧ a < r.queue + 4 ∨ r.data ≤ a ∧ a < r.data + r.capacity := by
  have hslot := r.slot_lt hcapacity (r.tail mem)
  by_cases hfull : r.count mem = r.capacity
  · rw [enqueue, if_pos hfull] at h
    exact absurd rfl h
  · rw [enqueue, if_neg hfull] at h
    by_contra hout
    have hword : a < r.queue ∨ r.queue + 4 ≤ a := by omega
    have hbyte : a < r.data + r.slot (r.tail mem) ∨ r.data + r.slot (r.tail mem) + 1 ≤ a := by omega
    exact h ((store_of_ne hword).trans (writeAt_of_not_mem hbyte))

theorem dequeue_touches {a : Nat} (h : (dequeue r mem).2 a ≠ mem a) : r.queue + 4 ≤ a ∧
    a < r.queue + 8 := by
  unfold dequeue at h
  split at h
  · exact absurd rfl h
  · by_contra hout
    have hword : a < r.queue + 4 ∨ r.queue + 4 + 4 ≤ a := by omega
    exact h (store_of_ne hword)

end ring

/-! ### Runs -/

/-- What is claimed lies beside everything that has been claimed before. -/
theorem claim_eq_some {table claims : List (Nat × Nat)} {start len : Nat} (hfits : start + len < 2 ^ 64)
    (h : claim table start len = some claims) : len = 0 ∧ claims = table ∨
      0 < len ∧ (∀ range ∈ table, range.2 ≤ start ∨ start + len ≤ range.1) ∧
        claims = table ++ [(start, start + len)] := by
  have hfin : min (start + len) (2 ^ 64 - 1) = start + len := Nat.min_eq_left (Nat.le_sub_one_of_lt hfits)
  unfold claim at h
  split at h
  · exact .inl ⟨‹len = 0›, (Option.some.inj h).symm⟩
  · rename_i hlen
    rw [hfin] at h
    dsimp only at h
    split at h
    · cases h
    · rename_i hany
      split at h
      · refine .inr ⟨Nat.pos_of_ne_zero hlen, fun range hrange => ?_, (Option.some.inj h).symm⟩
        by_contra hover
        refine hany (List.any_eq_true.mpr ⟨range, hrange, ?_⟩)
        rw [Bool.and_eq_true, decide_eq_true_iff, decide_eq_true_iff]
        omega
      · cases h

/-- Two rings have no byte in common. -/
structure Disjoint (r p : Ring) : Prop where
  headers : r.queue + queueSize ≤ p.queue ∨ p.queue + queueSize ≤ r.queue
  queue : r.queue + queueSize ≤ p.data ∨ p.data + p.capacity ≤ r.queue
  data : r.data + r.capacity ≤ p.data ∨ p.data + p.capacity ≤ r.data
  header : p.queue + queueSize ≤ r.data ∨ r.data + r.capacity ≤ p.queue

/-- A ring lies in two regions. -/
structure Based (regions : List Region) (r : Ring) : Prop where
  positive : 0 < r.capacity
  small : r.capacity < 2 ^ 32
  two : r.queue ≠ r.data
  queue : ∃ q ∈ regions, q.ptr = r.queue ∧ queueSize ≤ q.len
  data : ∃ d ∈ regions, d.ptr = r.data ∧ r.capacity ≤ d.len

theorem serialPair_eq_ok {q d : Region} {capacity : Nat} {r s : Ring}
    (h : serialPair q d capacity = .ok (r, s)) :
    r = s ∧ q.ptr = r.queue ∧ d.ptr = r.data ∧ 0 < r.capacity ∧ queueSize ≤ q.len ∧
      r.capacity ≤ d.len ∧ r.capacity < 2 ^ 32 := by
  unfold serialPair at h
  split at h
  · cases h
  split at h
  · cases h
  split at h
  · cases h
  split at h
  · cases h
  split at h
  · cases h
  cases h
  have hsmall : capacity < 2 ^ 32 := by omega
  exact ⟨rfl, rfl, rfl, Nat.pos_of_ne_zero ‹_›, Nat.not_lt.mp ‹_›, Nat.not_lt.mp ‹_›, hsmall⟩

structure Inv (w : World) : Prop where
  claimed : ∀ q ∈ w.regions, 0 < q.len → (q.ptr, q.ptr + q.len) ∈ w.claims
  apart : ∀ q ∈ w.regions, ∀ d ∈ w.regions, 0 < q.len → 0 < d.len → q.ptr = d.ptr ∨ q.ptr + q.len ≤
    d.ptr ∨ d.ptr + d.len ≤ q.ptr
  ends : w.consumers = w.producers
  based : ∀ r ∈ w.producers, Based w.regions r
  alone : ∀ r ∈ w.producers, ∀ p ∈ w.producers, r = p ∨
    (p.queue ≠ r.queue ∧ p.queue ≠ r.data ∧ p.data ≠ r.queue ∧ p.data ≠ r.data)
  view : ∀ r ∈ w.producers, View w.mem r (w.queued r)
  fresh : ∀ r, r ∉ w.producers → w.queued r = []

namespace Inv

variable {w w' : World} {r p : Ring}

/-- Spans of regions that begin apart are apart. -/
theorem spans (h : Inv w) {a b m n : Nat} (ha : ∃ q ∈ w.regions, q.ptr = a ∧ m ≤ q.len)
    (hb : ∃ q ∈ w.regions, q.ptr = b ∧ n ≤ q.len)
    (hm : 0 < m) (hn : 0 < n) (hne : a ≠ b) : a + m ≤ b ∨ b + n ≤ a := by
  obtain ⟨q, hq, rfl, hqlen⟩ := ha
  obtain ⟨d, hd, rfl, hdlen⟩ := hb
  obtain heq | hle | hle := h.apart q hq d hd (by omega) (by omega)
  · exact absurd heq hne
  · exact .inl (by omega)
  · exact .inr (by omega)

theorem ring_apart (h : Inv w) (hr : r ∈ w.producers) : r.Apart :=
  have hbased := h.based r hr
  h.spans hbased.queue hbased.data (by decide) hbased.positive hbased.two

theorem disjoint (h : Inv w) (hr : r ∈ w.producers) (hp : p ∈ w.producers) (hne : r ≠ p) :
    Disjoint r p := by
  have hbr := h.based r hr
  have hbp := h.based p hp
  obtain heq | ⟨hqq, hqd, hdq, hdd⟩ := h.alone r hr p hp
  · exact absurd heq hne
  · exact ⟨h.spans hbr.queue hbp.queue (by decide) (by decide) hqq.symm,
      h.spans hbr.queue hbp.data (by decide) hbp.positive hdq.symm,
      h.spans hbr.data hbp.data hbr.positive hbp.positive hdd.symm,
        h.spans hbp.queue hbr.data (by decide) hbr.positive hqd⟩

theorem new (mem : Mem) : Inv (World.new mem) where
  claimed := nofun
  apart := nofun
  ends := rfl
  based := nofun
  alone := nofun
  view := nofun
  fresh _ _ := rfl

/-- What changes the memory in one ring only, and the bytes of that ring with it. -/
theorem call (h : Inv w) (hr : r ∈ w.producers) {mem : Mem} {queue : List UInt8}
    (htouch : ∀ a, mem a ≠ w.mem a → r.queue ≤ a ∧ a < r.queue + queueSize ∨ r.data ≤ a ∧
      a < r.data + r.capacity)
    (hview : View mem r queue) : Inv { w with mem, queued := Function.update w.queued r queue } := by
  refine ⟨h.claimed, h.apart, h.ends, h.based, h.alone, fun p hp => ?_, fun p hp => ?_⟩
  · by_cases heq : p = r
    · show View mem p (Function.update w.queued r queue p)
      rw [heq, Function.update_self]
      exact hview
    · have hdisjoint := h.disjoint hr hp (Ne.symm heq)
      have hsame : ∀ a, ¬(r.queue ≤ a ∧ a < r.queue + queueSize ∨ r.data ≤ a ∧
        a < r.data + r.capacity) → mem a = w.mem a :=
        fun a ha => Decidable.not_not.mp fun hne => ha (htouch a hne)
      obtain ⟨hheaders, hqueue, hdata, hheader⟩ := hdisjoint
      have hframe : Frame p w.mem mem := by
        refine ⟨fun a ha ha' => hsame a (by omega), fun a ha ha' => hsame a (by omega)⟩
      show View mem p (Function.update w.queued r queue p)
      rw [Function.update_of_ne heq]
      exact (h.view p hp).frame hframe (h.based p hp).positive
  · have hne : p ≠ r := fun heq => hp (heq ▸ hr)
    show Function.update w.queued r queue p = []
    rw [Function.update_of_ne hne]
    exact h.fresh p hp

theorem fromMut (h : Inv w) {bytes : Slice} (hstep : step w (.fromMut bytes) = some w') : Inv w' := by
  obtain ⟨claims, hclaim, hw⟩ := Option.bind_eq_some_iff.mp hstep
  obtain rfl := Option.some.inj hw
  have hclaims : (∀ range ∈ w.claims, range ∈ claims) ∧
      (0 < bytes.bytes.length → (bytes.ptr, bytes.ptr + bytes.bytes.length) ∈ claims ∧
        ∀ range ∈ w.claims, range.2 ≤ bytes.ptr ∨ bytes.ptr + bytes.bytes.length ≤ range.1) := by
    obtain ⟨hzero, rfl⟩ | ⟨_, hbeside, rfl⟩ := claim_eq_some bytes.fits hclaim
    · exact ⟨fun _ hrange => hrange, fun hpos => absurd hzero (Nat.ne_of_gt hpos)⟩
    · exact ⟨fun _ hrange => List.mem_append_left _ hrange,
        fun _ => ⟨List.mem_append_right _ (List.mem_singleton_self _), hbeside⟩⟩
  obtain ⟨hold, hnew⟩ := hclaims
  have hbeside : ∀ q ∈ w.regions, 0 < q.len → 0 < bytes.bytes.length →
      q.ptr + q.len ≤ bytes.ptr ∨ bytes.ptr + bytes.bytes.length ≤ q.ptr :=
    fun q hq hlen hpos => (hnew hpos).2 _ (h.claimed q hq hlen)
  have hmem : ∀ q ∈ w.regions ++ [⟨bytes.ptr, bytes.bytes.length⟩], q ∈ w.regions ∨
    q = ⟨bytes.ptr, bytes.bytes.length⟩ := by
    intro q hq
    rwa [List.mem_append, List.mem_singleton] at hq
  -- no byte of a ring is in the buffer
  have hsame : ∀ q ∈ w.regions, ∀ a, q.ptr ≤ a → a < q.ptr + q.len →
    writeAt w.mem bytes.ptr bytes.bytes a = w.mem a := by
    intro q hq a ha ha'
    have hlen := hbeside q hq (by omega)
    exact writeAt_of_not_mem (by omega)
  refine ⟨fun q hq hlen => ?_, fun q hq d hd hqlen hdlen => ?_, h.ends, fun r hr => ?_, h.alone,
    fun r hr => ?_, h.fresh⟩
  · obtain hq | rfl := hmem q hq
    · exact hold _ (h.claimed q hq hlen)
    · exact (hnew hlen).1
  · obtain hq | rfl := hmem q hq
    · obtain hd | rfl := hmem d hd
      · exact h.apart q hq d hd hqlen hdlen
      · exact .inr (hbeside q hq hqlen hdlen)
    · obtain hd | rfl := hmem d hd
      · exact .inr (hbeside d hd hdlen hqlen).symm
      · exact .inl rfl
  · obtain ⟨hpos, hsmall, htwo, ⟨q, hq, hqueue⟩, ⟨d, hd, hdata⟩⟩ := h.based r hr
    exact ⟨hpos, hsmall, htwo, ⟨q, List.mem_append_left _ hq, hqueue⟩,
      ⟨d, List.mem_append_left _ hd, hdata⟩⟩
  · obtain ⟨hpos, _, _, ⟨q, hq, hqueue, hqlen⟩, ⟨d, hd, hdata, hdlen⟩⟩ := h.based r hr
    refine (h.view r hr).frame ⟨fun a ha ha' => ?_, fun a ha ha' => ?_⟩ hpos
    · exact hsame q hq a (by omega) (by omega)
    · exact hsame d hd a (by omega) (by omega)

theorem serialPair (h : Inv w) {queue data capacity : Nat}
    (hcareful : Careful w (.serialPair queue data capacity))
    (hstep : step w (.serialPair queue data capacity) = some w') : Inv w' := by
  obtain ⟨q, hq, hstep⟩ := Option.bind_eq_some_iff.mp hstep
  obtain ⟨d, hd, hstep⟩ := Option.bind_eq_some_iff.mp hstep
  cases hpair : Gate.serialPair q d capacity with
  | error err =>
    rw [hpair] at hstep
    obtain rfl := Option.some.inj hstep
    exact h
  | ok ends =>
    obtain ⟨r, p⟩ := ends
    rw [hpair] at hstep
    obtain rfl := Option.some.inj hstep
    obtain ⟨rfl, hqueue, hdata, hpos, hqlen, hdlen, hsmall⟩ := serialPair_eq_ok hpair
    have hmem : ∀ s ∈ w.producers ++ [r], s ∈ w.producers ∨ s = r := by
      intro s hs
      rwa [List.mem_append, List.mem_singleton] at hs
    have hends : w.consumers ++ [r] = w.producers ++ [r] := congrArg (· ++ [r]) h.ends
    have hfresh : ∀ s, s ∉ w.producers ++ [r] → w.queued s = [] :=
      fun s hs => h.fresh s fun hs' => hs (List.mem_append_left _ hs')
    obtain hr | ⟨hwords, htwo, halone⟩ := hcareful q d r r hq hd hpair
    · -- the ring is one that there was
      have hmem : ∀ s ∈ w.producers ++ [r], s ∈ w.producers :=
        fun s hs => (hmem s hs).elim id fun heq => heq ▸ hr
      exact ⟨h.claimed, h.apart, hends, fun s hs => h.based s (hmem s hs),
        fun s hs t ht => h.alone s (hmem s hs) t (hmem t ht),
        fun s hs => h.view s (hmem s hs), hfresh⟩
    · refine ⟨h.claimed, h.apart, hends, fun s hs => ?_, fun s hs t ht => ?_, fun s hs => ?_, hfresh⟩
      · obtain hs | rfl := hmem s hs
        · exact h.based s hs
        · exact ⟨hpos, hsmall, htwo, ⟨q, List.mem_of_getElem? hq, hqueue, hqlen⟩,
            ⟨d, List.mem_of_getElem? hd, hdata, hdlen⟩⟩
      · obtain hs' | rfl := hmem s hs
        · obtain ht' | rfl := hmem t ht
          · exact h.alone s hs' t ht'
          · obtain ⟨hqq, hqd, hdq, hdd⟩ := halone s hs'
            exact .inr ⟨hqq.symm, hdq.symm, hqd.symm, hdd.symm⟩
        · obtain ht' | heq := hmem t ht
          · exact .inr (halone t ht')
          · exact .inl heq.symm
      · by_cases hs' : s ∈ w.producers
        · exact h.view s hs'
        · obtain rfl := (hmem s hs).resolve_left hs'
          show View w.mem s (w.queued s)
          rw [h.fresh s hs']
          exact View.empty hwords

theorem enqueue (h : Inv w) {producer : Nat} {byte : UInt8} (hcareful : Careful w (.enqueue producer byte))
    (hstep : step w (.enqueue producer byte) = some w') : Inv w' := by
  obtain ⟨r, hr, hstep⟩ := Option.bind_eq_some_iff.mp hstep
  have hmem := List.mem_of_getElem? hr
  have hbased := h.based r hmem
  by_cases hfull : r.count w.mem = r.capacity
  · rw [Gate.enqueue, if_pos hfull] at hstep
    obtain rfl := Option.some.inj hstep
    exact h
  · have hview := (h.view r hmem).enqueue (b := byte) (h.ring_apart hmem) hbased.positive hbased.small hfull
      ((hcareful r hr).resolve_left hfull)
    have hinv := h.call hmem (fun a ha => ?_) hview
    · rw [Gate.enqueue, if_neg hfull] at hstep hinv
      obtain rfl := Option.some.inj hstep
      exact hinv
    · have hspan := enqueue_touches hbased.positive ha
      unfold queueSize
      omega

theorem dequeue (h : Inv w) {consumer : Nat} (hstep : step w (.dequeue consumer) = some w') : Inv w' := by
  obtain ⟨r, hr, hstep⟩ := Option.bind_eq_some_iff.mp hstep
  rw [h.ends] at hr
  have hmem := List.mem_of_getElem? hr
  by_cases hempty : r.head w.mem = r.tail w.mem
  · rw [Gate.dequeue, if_pos hempty] at hstep
    obtain rfl := Option.some.inj hstep
    exact h
  · have hview := h.view r hmem
    have hhead := hview.dequeue_eq
    rw [Gate.dequeue, if_neg hempty] at hhead hstep
    obtain rfl := Option.some.inj hstep
    obtain ⟨queue, hqueue⟩ := List.head?_eq_some_iff.mp hhead.symm
    have hinv := h.call hmem (fun a ha => ?_)
      ((hqueue ▸ hview).dequeue (h.ring_apart hmem) (h.based r hmem).positive)
    · rw [Gate.dequeue, if_neg hempty] at hinv
      rw [hqueue]
      exact hinv
    · have hspan := dequeue_touches ha
      unfold queueSize
      omega

theorem step (h : Inv w) {call : Call} (hcareful : Careful w call) (hstep : step w call = some w') :
    Inv w' := by
  cases call with
  | fromMut bytes => exact h.fromMut hstep
  | serialPair queue data capacity => exact h.serialPair hcareful hstep
  | enqueue producer byte => exact h.enqueue hcareful hstep
  | dequeue consumer => exact h.dequeue hstep

theorem sound (h : Inv w) (call : Call) : Sound w call := by
  cases call with
  | fromMut bytes => trivial
  | serialPair queue data capacity => trivial
  | enqueue producer byte =>
    intro r hr a ha
    have hmem := List.mem_of_getElem? hr
    have hspan := enqueue_touches (h.based r hmem).positive ha
    refine ⟨hspan, fun p hp hlow hhigh => ?_⟩
    by_cases heq : r = p
    · have hapart := h.ring_apart hmem
      unfold Ring.Apart at hapart
      exact ⟨heq.symm, by subst heq; omega⟩
    · obtain ⟨hheaders, _, _, hheader⟩ := h.disjoint hmem hp heq
      unfold queueSize at hheaders hheader hhigh
      omega
  | dequeue consumer =>
    intro r hr
    rw [h.ends] at hr
    exact (h.view r (List.mem_of_getElem? hr)).dequeue_eq

end Inv

/-- In every run of careful calls, every call is sound. An enqueue on a ring that is not full is
careful where the capacity divides the range of the words, or they have not wrapped. -/
theorem careful_sound {mem : Mem} {w : World} (h : Steps step Careful (World.new mem) w) :
    (∀ call, Sound w call) ∧ ∀ r ∈ w.producers, r.count w.mem ≠ r.capacity →
      r.capacity ∣ 2 ^ 32 ∨ r.head w.mem ≤ r.tail w.mem → r.Free w.mem := by
  have hinv : Inv w := h.keeps (fun h hcareful hstep => h.step hcareful hstep) (Inv.new mem)
  exact ⟨hinv.sound, fun r hr hroom hwrap => (hinv.view r hr).free hroom hwrap⟩

def zeros (ptr : Nat) (h : ptr + 16 < 2 ^ 64) : Slice := ⟨ptr, List.replicate 16 0, h⟩

theorem careful_sound_pair : ∃ w, [Call.fromMut (zeros 4096 (by decide)),
    .fromMut (zeros 8192 (by decide)), .serialPair 0 1 3,
    .enqueue 0 0x71].foldlM step (World.new fun _ => 0) = some w ∧ Sound w (.dequeue 0) := by
  have hstart : Steps step Careful (World.new fun _ => 0) (World.new fun _ => 0) := .start
  have hclaim := hstart.next (show Careful _ (.fromMut (zeros 4096 (by decide))) from trivial) rfl
  have hboth := hclaim.next (show Careful _ (.fromMut (zeros 8192 (by decide))) from trivial) rfl
  have hpair := hboth.next (a := .serialPair 0 1 3) ?_ rfl
  · have hbyte := hpair.next (a := .enqueue 0 0x71) ?_ rfl
    · exact ⟨_, rfl, (careful_sound hbyte).1 (.dequeue 0)⟩
    · rintro r hr
      cases hr
      have hcount : Ring.count ⟨4096, 8192, 3⟩
        (writeAt (writeAt (fun _ => 0) 4096 (.replicate 16 0)) 8192 (.replicate 16 0)) = 0 := by
        decide +kernel
      exact .inr fun k hk => absurd hk (hcount ▸ Nat.not_lt_zero k)
  · rintro q d r s hq hd hends
    cases hq
    cases hd
    cases hends
    refine .inr ⟨?_, by decide, nofun⟩
    decide +kernel

/-- One region as both the queue and the data: the byte that comes out is the low byte of the tail. -/
theorem one_region_unsound : ∃ w, [Call.fromMut (zeros 4096 (by decide)), .serialPair 0 0 4,
    .enqueue 0 0x71].foldlM step
    (World.new fun _ => 0) = some w ∧ ¬Sound w (.dequeue 0) := by
  refine ⟨_, rfl, fun h => ?_⟩
  have hbyte := h ⟨4096, 4096, 4⟩ rfl
  revert hbyte
  decide +kernel

end Lerux.Gate
