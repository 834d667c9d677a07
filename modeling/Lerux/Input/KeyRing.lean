import Mathlib.Data.List.Infix
import Mathlib.Logic.Function.Basic

/-!
# The key ring of the desk keyboard

`KeyRing` keeps the key-downs that wait for one protection domain in 64 slots, the oldest at `head`.
It is the queue of at most 64 events: a push is refused exactly when 64 wait, and a pop takes the
oldest.
-/

namespace Lerux.Input

def KEY_CAP : Nat := 64

inductive Key where
  | Char (ch : UInt8)
  | Enter
  | Backspace
  | Escape
  | Left
  | Right
  | Tab
  | Up
  | Down
deriving DecidableEq, Repr

structure KeyEvent where
  key : Key
  ctrl : Bool
deriving DecidableEq, Repr

structure KeyRing where
  slots : Fin KEY_CAP → KeyEvent
  head : Fin KEY_CAP
  len : Nat
  bound : len ≤ KEY_CAP

namespace KeyRing

/-- The slot `i` places behind `head`. -/
def slotAt (head : Fin KEY_CAP) (i : Nat) : Fin KEY_CAP := ⟨(head + i) % KEY_CAP, Nat.mod_lt _ (by decide)⟩

def new : KeyRing where
  slots := fun _ => { key := .Escape, ctrl := false }
  head := ⟨0, by decide⟩
  len := 0
  bound := Nat.zero_le _

def push (ring : KeyRing) (event : KeyEvent) : KeyRing × Bool :=
  if h : ring.len = KEY_CAP then (ring, false)
  else
    let tail := slotAt ring.head ring.len
    ({ slots := Function.update ring.slots tail event
       head := ring.head
       len := ring.len + 1
       bound := Nat.lt_of_le_of_ne ring.bound h }, true)

def pop (ring : KeyRing) : KeyRing × Option KeyEvent :=
  if ring.len = 0 then (ring, none)
  else
    let event := ring.slots ring.head
    ({ slots := ring.slots
       head := slotAt ring.head 1
       len := ring.len - 1
       bound := Nat.le_trans (Nat.sub_le _ _) ring.bound }, some event)

/-- The events that wait, oldest first. -/
def waiting (ring : KeyRing) : List KeyEvent :=
  (List.range ring.len).map fun i => ring.slots (slotAt ring.head i)

@[simp] theorem waiting_length (ring : KeyRing) : ring.waiting.length = ring.len := by
  simp [waiting]

theorem slotAt_zero (head : Fin KEY_CAP) : slotAt head 0 = head := by
  apply Fin.ext
  exact Nat.mod_eq_of_lt head.isLt

theorem slotAt_slotAt (head : Fin KEY_CAP) (i j : Nat) : slotAt (slotAt head i) j =
    slotAt head (i + j) := by
  apply Fin.ext
  simp only [slotAt]
  rw [Nat.mod_add_mod, Nat.add_assoc]

/-- Distinct places have distinct slots. -/
theorem slotAt_ne (head : Fin KEY_CAP) {i j : Nat} (hij : i < j) (hj : j < KEY_CAP) :
    slotAt head i ≠ slotAt head j := by
  intro h
  have hval : (head.val + i) % KEY_CAP = (head.val + j) % KEY_CAP := congrArg Fin.val h
  have hlt := head.isLt
  simp only [KEY_CAP] at hval hlt hj
  omega

theorem push_full {ring : KeyRing} (h : ring.waiting.length = KEY_CAP) (event : KeyEvent) :
    ring.push event = (ring, false) := by
  rw [waiting_length] at h
  exact dif_pos h

theorem push_room {ring : KeyRing} (h : ring.waiting.length ≠ KEY_CAP) (event : KeyEvent) :
    (ring.push event).2 = true ∧ (ring.push event).1.waiting = ring.waiting ++ [event] := by
  rw [waiting_length] at h
  have hlt : ring.len < KEY_CAP := Nat.lt_of_le_of_ne ring.bound h
  rw [push, dif_neg h]
  refine ⟨rfl, ?_⟩
  rw [waiting, waiting, List.range_succ, List.map_append, List.map_singleton]
  simp only [Function.update_self]
  congr 1
  apply List.map_congr_left
  intro i hi
  exact Function.update_of_ne (slotAt_ne ring.head (List.mem_range.mp hi) hlt) _ _

theorem pop_nil {ring : KeyRing} (h : ring.waiting = []) : ring.pop = (ring, none) := by
  have hlen : ring.len = 0 := by rw [← waiting_length, h, List.length_nil]
  exact if_pos hlen

theorem pop_cons {ring : KeyRing} {event : KeyEvent} {rest : List KeyEvent}
    (h : ring.waiting = event :: rest) :
    ring.pop.2 = some event ∧ ring.pop.1.waiting = rest := by
  have hlen : ring.len = rest.length + 1 := by rw [← waiting_length, h, List.length_cons]
  have hall : ring.slots ring.head :: (List.range rest.length).map
    (fun i => ring.slots (slotAt ring.head (i + 1))) =
      event :: rest := by
    rw [← h, waiting, hlen, List.range_succ_eq_map, List.map_cons, slotAt_zero, List.map_map]
    rfl
  obtain ⟨hevent, hrest⟩ := List.cons.inj hall
  rw [pop, if_neg (by omega)]
  refine ⟨congrArg some hevent, ?_⟩
  rw [waiting, ← hrest]
  simp only [hlen, Nat.add_sub_cancel]
  apply List.map_congr_left
  intro i _
  rw [slotAt_slotAt, Nat.add_comm]

/-! ### Sequences of pushes and pops -/

inductive Op where
  | push (event : KeyEvent)
  | pop
deriving DecidableEq, Repr

/-- What a push or a pop answers. -/
inductive Answer where
  | pushed (accepted : Bool)
  | popped (event : Option KeyEvent)
deriving DecidableEq, Repr

def apply (ring : KeyRing) : Op → KeyRing × Answer
  | .push event => ((ring.push event).1, .pushed (ring.push event).2)
  | .pop => (ring.pop.1, .popped ring.pop.2)

def answers (ring : KeyRing) : List Op → List Answer
  | [] => []
  | op :: ops => (ring.apply op).2 :: answers (ring.apply op).1 ops

end KeyRing

/-- One step of the queue of at most `KEY_CAP` events. -/
def queueApply (queue : List KeyEvent) : KeyRing.Op → List KeyEvent × KeyRing.Answer
  | .push event => if queue.length = KEY_CAP then (queue, .pushed false)
    else (queue ++ [event], .pushed true)
  | .pop => (queue.tail, .popped queue.head?)

def queueAnswers (queue : List KeyEvent) : List KeyRing.Op → List KeyRing.Answer
  | [] => []
  | op :: ops => (queueApply queue op).2 :: queueAnswers (queueApply queue op).1 ops

/-- One step of the ring is one step of the queue of the events that wait. -/
theorem KeyRing.apply_queue (ring : KeyRing) (op : Op) :
    ((ring.apply op).1.waiting, (ring.apply op).2) = queueApply ring.waiting op := by
  cases op with
  | push event =>
    by_cases hfull : ring.waiting.length = KEY_CAP
    · rw [queueApply, if_pos hfull, apply, push_full hfull]
    · obtain ⟨hanswer, hwaiting⟩ := push_room hfull event
      rw [queueApply, if_neg hfull, apply, hanswer, hwaiting]
  | pop =>
    cases hw : ring.waiting with
    | nil =>
      rw [apply, pop_nil hw, hw]
      rfl
    | cons event rest =>
      obtain ⟨hanswer, hwaiting⟩ := pop_cons hw
      rw [apply, hanswer, hwaiting]
      rfl

theorem KeyRing.answers_queue (ring : KeyRing) (ops : List Op) :
    ring.answers ops = queueAnswers ring.waiting ops := by
  induction ops generalizing ring with
  | nil => rfl
  | cons op ops ih =>
    rw [answers, queueAnswers, ih, ← apply_queue]

end Lerux.Input
