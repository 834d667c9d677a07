import Lerux.Base.Ring

/-!
# Index arithmetic of the single-producer single-consumer rings

The executable functions that `lerux-ring` generates for each counter width (`word16`, `word32`,
`word64`), at an arbitrary width. `len_eq_ringLen` and the lemmas below it read them as statements
about `Base.Ring`.
-/

namespace Lerux.RingWord

open Lerux.Base

variable {w : Nat}

/-- Wrapping distance from `head` up to `tail`. -/
def len (tail head : BitVec w) : BitVec w := tail - head

/-- True when `tail` and `head` name the same counter value. -/
def isEmpty (tail head : BitVec w) : Bool := tail == head

/-- True when the ring already holds `capacity` elements. -/
def isFull (tail head capacity : BitVec w) : Bool := len tail head == capacity

/-- Slot of `cursor`. -/
def index (cursor capacity : BitVec w) : BitVec w := cursor % capacity

/-- Next counter, wrapping at the word boundary. -/
def advance (cursor : BitVec w) : BitVec w := cursor + 1

/-- Push one element: the next tail. `head` and `capacity` only state the precondition. -/
def advanceTail (tail _head _capacity : BitVec w) : BitVec w := advance tail

/-- Pop one element: the next head. `tail` only states the precondition. -/
def advanceHead (head _tail : BitVec w) : BitVec w := advance head

variable {α : Type}

theorem len_eq_ringLen (r : Ring w α) : (len r.tail r.head).toNat = r.len := rfl

@[simp] theorem isEmpty_iff (r : Ring w α) : isEmpty r.tail r.head = true ↔ r.len = 0 := by
  rw [isEmpty, beq_iff_eq, ← Ring.contents_eq_nil_iff 1, ← List.length_eq_zero_iff, Ring.contents_length]

@[simp] theorem isFull_iff (r : Ring w α) (capacity : BitVec w) :
    isFull r.tail r.head capacity = true ↔ r.len = capacity.toNat := by
  rw [isFull, beq_iff_eq, ← BitVec.toNat_inj, len_eq_ringLen]

@[simp] theorem index_toNat (cursor capacity : BitVec w) :
    (index cursor capacity).toNat = cursor.toNat % capacity.toNat :=
  BitVec.toNat_umod

end Lerux.RingWord
