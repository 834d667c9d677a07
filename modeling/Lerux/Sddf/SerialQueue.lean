import Lerux.Base.Calls
import Lerux.Sddf.RingWord

/-!
# The serial queue

`serial_queue.rs`: one ring of bytes with 32-bit cursors. The functions are written as the loads and
stores they make, in the source's order. `serialLib_linearises` says that each of them takes effect at
one of those operations, as an operation on a bounded list.
-/

namespace Lerux.SerialQueue

open Lerux.Base

variable {α : Type}

/-- The programs a serial queue function is made of. -/
abbrev RingProg (α : Type) := Prog (ringSig 32 α)

def loadTail : RingProg α (BitVec 32) := Prog.act (S := ringSig 32 α) RingOp.loadTail .ret
def loadHead : RingProg α (BitVec 32) := Prog.act (S := ringSig 32 α) RingOp.loadHead .ret
def storeTail (v : BitVec 32) : RingProg α Unit := Prog.act (S := ringSig 32 α) (RingOp.storeTail v) .ret
def storeHead (v : BitVec 32) : RingProg α Unit := Prog.act (S := ringSig 32 α) (RingOp.storeHead v) .ret
def readSlot (i : BitVec 32) : RingProg α α := Prog.act (S := ringSig 32 α) (RingOp.read i.toNat) .ret
def writeSlot (i : BitVec 32) (a : α) : RingProg α Unit :=
  Prog.act (S := ringSig 32 α) (RingOp.write i.toNat a) .ret

/-- `serial_queue_length_producer`. -/
def serialQueueLengthProducer : RingProg α (BitVec 32) := do
  let tail ← loadTail
  let head ← loadHead
  return RingWord.len tail head

/-- `serial_queue_length_consumer`. -/
def serialQueueLengthConsumer : RingProg α (BitVec 32) := do
  let tail ← loadTail
  let head ← loadHead
  return RingWord.len tail head

/-- `serial_enqueue`. -/
def serialEnqueue (capacity : BitVec 32) (character : α) : RingProg α Int := do
  let tail ← loadTail
  let head ← loadHead
  if RingWord.isFull tail head capacity then
    return -1
  else
    writeSlot (RingWord.index tail capacity) character
    storeTail (RingWord.advanceTail tail head capacity)
    return 0

/-- `serial_dequeue`, with the character in place of status zero. -/
def serialDequeue (capacity : BitVec 32) : RingProg α (Option α) := do
  let head ← loadHead
  let tail ← loadTail
  if RingWord.isEmpty tail head then
    return none
  else
    let character ← readSlot (RingWord.index head capacity)
    storeHead (RingWord.advanceHead head tail)
    return some character

/-- `serial_enqueue_local`: the status, and the caller's tail afterwards. -/
def serialEnqueueLocal (capacity localTail : BitVec 32) (character : α) : RingProg α (Int × BitVec 32) := do
  let head ← loadHead
  if RingWord.isFull localTail head capacity then
    return (-1, localTail)
  else
    writeSlot (RingWord.index localTail capacity) character
    return (0, RingWord.advanceTail localTail head capacity)

/-- `serial_update_shared_tail`. -/
def serialUpdateSharedTail (localTail : BitVec 32) : RingProg α Unit := storeTail localTail

/-- The queue functions the transmit path calls. -/
inductive Fn (α : Type)
  | lengthProducer
  | lengthConsumer
  | enqueue (character : α)
  | dequeue
  deriving DecidableEq

def Fn.Res : Fn α → Type
  | .lengthProducer => BitVec 32
  | .lengthConsumer => BitVec 32
  | .enqueue _ => Int
  | .dequeue => Option α

/-- A bounded queue refuses a byte when it holds `cap` of them. -/
def push (cap : Nat) (character : α) (q : List α) : Int × Option (Move α) :=
  if q.length = cap then (-1, none) else (0, some (.push character))

/-- A queue gives its oldest byte. -/
def pop : List α → Option α × Option (Move α)
  | [] => (none, none)
  | a :: _ => (some a, some (.pop a))

/-- The serial queue as a library of ring functions, with what each one does to the queued bytes. -/
def serialLib (α : Type) : RingLib 32 α where
  Fn := Fn α
  Res := Fn.Res
  role
    | .lengthProducer => .producer
    | .lengthConsumer => .consumer
    | .enqueue _ => .producer
    | .dequeue => .consumer
  early f := f = .lengthConsumer
  body cap
    | .lengthProducer => serialQueueLengthProducer
    | .lengthConsumer => serialQueueLengthConsumer
    | .enqueue character => serialEnqueue (BitVec.ofNat 32 cap) character
    | .dequeue => serialDequeue (BitVec.ofNat 32 cap)
  spec cap
    | .lengthProducer, q => (BitVec.ofNat 32 q.length, none)
    | .lengthConsumer, q => (BitVec.ofNat 32 q.length, none)
    | .enqueue character, q => push cap character q
    | .dequeue, q => pop q

/-! ### Each function takes effect at one of its operations -/

section linearises

variable {cap : Nat} {exact early : Prop}

theorem len_spec (r : Ring 32 α) :
    BitVec.ofNat 32 (r.contents cap).length = RingWord.len r.tail r.head := by
  rw [Ring.contents_length, Ring.len, BitVec.ofNat_toNat, BitVec.setWidth_eq]
  rfl

theorem lengthProducer_lin :
    RingLib.Lin (α := α) cap .producer exact early (fun q => (BitVec.ofNat 32 q.length, none)) none
      serialQueueLengthProducer fun _ => True := by
  apply RingLib.lin_act
  intro r _ _
  refine ⟨RingLib.guar_loadTail, .inr ⟨rfl, fun r' => r'.tail = r.tail, fun _ _ h => h, rfl, ?_⟩⟩
  apply RingLib.lin_act
  intro r' _ ht
  refine ⟨RingLib.guar_loadHead, .inl ⟨_, r'.contents cap, none,
    by simp, rfl, rfl, fun _ => ⟨rfl, rfl⟩, ?_⟩⟩
  rw [len_spec, ht]
  rfl

/-- The tail load decides the result: only the caller moves the head it loads afterwards. -/
theorem lengthConsumer_lin (he : early) :
    RingLib.Lin (α := α) cap .consumer exact early (fun q => (BitVec.ofNat 32 q.length, none)) none
      serialQueueLengthConsumer fun _ => True := by
  intro r _ _
  refine ⟨RingLib.guar_loadTail, some (RingWord.len r.tail r.head), fun r' => r'.head = r.head,
    fun _ _ h => ⟨h, fun _ => h⟩, rfl,
    .inr ⟨_, r.contents cap, none, rfl, rfl, by simp, ?_, rfl, fun _ => ⟨rfl, rfl⟩⟩, .inl he, ?_⟩
  · change (BitVec.ofNat 32 (r.contents cap).length, none) = _
    rw [len_spec]
  · intro r' _ hh
    refine ⟨RingLib.guar_loadHead, _, fun _ => True, RingLib.stable_true cap _, trivial,
      .inl ⟨rfl, rfl⟩, .inl he, ?_⟩
    change some (RingWord.len r.tail r.head) = some (RingWord.len r.tail r'.head)
    rw [hh]

theorem capacity_toNat (hg : Ring.Counts 32 cap) : (BitVec.ofNat 32 cap).toNat = cap := by
  rw [BitVec.toNat_ofNat, Nat.mod_eq_of_lt hg.lt]

theorem index_eq (hg : Ring.Counts 32 cap) (cursor : BitVec 32) :
    (RingWord.index cursor (BitVec.ofNat 32 cap)).toNat = cursor.toNat % cap := by
  rw [RingWord.index_toNat, capacity_toNat hg]

theorem enqueue_lin (hg : Ring.Counts 32 cap) (character : α) :
    RingLib.Lin cap .producer exact early (push cap character) none
      (serialEnqueue (BitVec.ofNat 32 cap) character)
      fun _ => True := by
  apply RingLib.lin_act
  intro r _ _
  refine ⟨RingLib.guar_loadTail, .inr ⟨rfl, fun r' => r'.tail = r.tail, fun _ _ h => h, rfl, ?_⟩⟩
  apply RingLib.lin_act
  intro r' hr' ht
  have hfull := RingWord.isFull_iff r' (BitVec.ofNat 32 cap)
  rw [ht, capacity_toNat hg] at hfull
  refine ⟨RingLib.guar_loadHead, ?_⟩
  by_cases hf : r'.len = cap
  · refine .inl ⟨-1, r'.contents cap, none, by simp, ?_, rfl, fun _ => ⟨rfl, rfl⟩, if_pos (hfull.mpr hf)⟩
    rw [push, Ring.contents_length, if_pos hf]
  · have hlt : r'.len < cap := by omega
    refine .inr ⟨rfl, fun r' => r'.tail = r.tail ∧ r'.len < cap, RingLib.stable_room hg r.tail,
      ⟨ht, hlt⟩, ?_⟩
    have : RingLib.Lin cap .producer exact early (push cap character) none
        (.act (.write (r.tail.toNat % cap) character) fun _ => .act (.storeTail (r.tail + 1))
          fun _ => .ret 0)
        fun r' => r'.tail = r.tail ∧ r'.len < cap := RingLib.lin_publish hg fun q hq => if_neg hq.ne
    rw [← index_eq hg r.tail] at this
    change RingLib.Lin cap .producer exact early _ none
      (if RingWord.isFull r.tail r'.head (BitVec.ofNat 32 cap) = true then Prog.ret (-1) else _) _
    rw [if_neg fun h => hf (hfull.mp h)]
    exact this

theorem dequeue_lin (hg : Ring.Counts 32 cap) (hx : exact → Ring.Good 32 cap) :
    RingLib.Lin (α := α) cap .consumer exact early pop none (serialDequeue (BitVec.ofNat 32 cap))
      fun _ => True := by
  apply RingLib.lin_act
  intro r _ _
  refine ⟨RingLib.guar_loadHead, .inr ⟨rfl, fun r' => r'.head = r.head,
    fun _ _ h => ⟨h, fun _ => h⟩, rfl, ?_⟩⟩
  apply RingLib.lin_act
  intro r' _ hh
  have hempty := RingWord.isEmpty_iff r'
  rw [hh] at hempty
  refine ⟨RingLib.guar_loadTail, ?_⟩
  by_cases he : r'.len = 0
  · have hnil : r'.contents cap = [] := by
      rw [← List.length_eq_zero_iff, Ring.contents_length, he]
    exact .inl ⟨none, [], none, he.symm, rfl, rfl, fun _ => ⟨hnil.symm, rfl⟩, if_pos (hempty.mpr he)⟩
  · have hpos : 0 < r'.len := by omega
    refine .inr ⟨rfl, fun r' => r'.head = r.head ∧ 0 < r'.len, RingLib.stable_some hg r.head,
      ⟨hh, hpos⟩, ?_⟩
    have : RingLib.Lin (α := α) cap .consumer exact early pop none
        (.act (.read (r.head.toNat % cap)) fun a => .act (.storeHead (r.head + 1)) fun _ => .ret (some a))
        fun r' => r'.head = r.head ∧ 0 < r'.len := RingLib.lin_take hg hx fun _ _ => rfl
    rw [← index_eq hg r.head] at this
    change RingLib.Lin cap .consumer exact early _ none
      (if RingWord.isEmpty r'.tail r.head = true then Prog.ret none else _) _
    rw [if_neg fun h => he (hempty.mp h)]
    exact this

/-- Every function of the serial queue is one operation on a bounded list. -/
theorem serialLib_linearises (hg : Ring.Counts 32 cap) (hx : exact → Ring.Good 32 cap) (f : Fn α) :
    (serialLib α).Linearises cap exact f := by
  cases f with
  | lengthProducer => exact lengthProducer_lin
  | lengthConsumer => exact lengthConsumer_lin rfl
  | enqueue character => exact enqueue_lin hg character
  | dequeue => exact dequeue_lin hg hx

theorem serialLib_body (f : Fn α) (b : f.Res) : (serialLib α).body cap f ≠ .ret b := by
  cases f <;> exact nofun

end linearises

end Lerux.SerialQueue
