import Lerux.Base.Calls

/-!
# Histories of a bounded queue

One producer and one consumer call operations on a bounded queue. The producer may also put values aside,
one by one, and publish them together. A `History` is the calls and returns of both, in the order they
happen; `Fifo.Run` says that it is one of a queue on which every operation takes effect at once, at some
moment between its call and its return.
-/

namespace Lerux.Base

/-- A bounded queue: what the consumer can see, and what the producer has put aside. -/
structure Fifo (α : Type) where
  queue : List α
  staged : List α

inductive FifoOp (α : Type)
  | enqueue (a : α)
  | stage (a : α)
  | publish
  | dequeue
  deriving DecidableEq

inductive FifoRes (α : Type)
  | done
  | refused
  | took (a : α)
  deriving DecidableEq

inductive FifoEvent (α : Type)
  | call (p : Role) (o : FifoOp α)
  | ret (p : Role) (o : FifoOp α) (r : FifoRes α)
  deriving DecidableEq

/-- Who calls an operation. -/
def FifoOp.role {α : Type} : FifoOp α → Role
  | .dequeue => .consumer
  | _ => .producer

namespace Fifo

variable {α : Type}

/-- The values it holds. -/
def size (f : Fifo α) : Nat := f.queue.length + f.staged.length

/-- An operation, all at once. -/
def step (cap : Nat) (f : Fifo α) : FifoOp α → FifoRes α × Fifo α
  | .enqueue a => if f.size = cap then (.refused, f) else (.done, ⟨f.queue ++ f.staged ++ [a], []⟩)
  | .stage a => if f.size = cap then (.refused, f) else (.done, ⟨f.queue, f.staged ++ [a]⟩)
  | .publish => (.done, ⟨f.queue ++ f.staged, []⟩)
  | .dequeue =>
    match f.queue with
    | [] => (.refused, f)
    | a :: q => (.took a, ⟨q, f.staged⟩)

/-- The call a party stands in, with its result once it has taken effect. -/
abbrev Pending (α : Type) := Option (FifoOp α × Option (FifoRes α))

/-- The histories of a queue of size `cap`, with its contents and the calls in progress. -/
inductive Run (cap : Nat) : List (FifoEvent α) → Fifo α → (Role → Pending α) → Prop
  | init : Run cap [] ⟨[], []⟩ fun _ => none
  | call {h : List (FifoEvent α)} {f : Fifo α} {pend : Role → Pending α} (hr : Run cap h f pend)
      (o : FifoOp α)
      (hp : pend o.role = none) : Run cap (h ++ [.call o.role o]) f
        (Function.update pend o.role (some (o, none)))
  | effect {h : List (FifoEvent α)} {f : Fifo α} {pend : Role → Pending α} (hr : Run cap h f pend)
      (o : FifoOp α)
      (hp : pend o.role = some (o, none)) :
      Run cap h (f.step cap o).2 (Function.update pend o.role (some (o, some (f.step cap o).1)))
  | ret {h : List (FifoEvent α)} {f : Fifo α} {pend : Role → Pending α} (hr : Run cap h f pend)
      (o : FifoOp α)
      (r : FifoRes α) (hp : pend o.role = some (o, some r)) :
      Run cap (h ++ [.ret o.role o r]) f (Function.update pend o.role none)

/-- The values accepted, by the calls that have returned. -/
def accepted (h : List (FifoEvent α)) : List α :=
  h.filterMap fun
    | .ret _ (.enqueue a) .done => some a
    | .ret _ (.stage a) .done => some a
    | _ => none

/-- The values delivered, by the calls that have returned. -/
def delivered (h : List (FifoEvent α)) : List α :=
  h.filterMap fun
    | .ret _ _ (.took a) => some a
    | _ => none

/-- The value a call in progress has had accepted. -/
def accepting : Pending α → List α
  | some (.enqueue a, some .done) => [a]
  | some (.stage a, some .done) => [a]
  | _ => []

/-- The value a call in progress has taken. -/
def taking : Pending α → List α
  | some (_, some (.took a)) => [a]
  | _ => []

theorem accepted_append (h h' : List (FifoEvent α)) : accepted (h ++ h') = accepted h ++ accepted h' :=
  List.filterMap_append

theorem delivered_append (h h' : List (FifoEvent α)) : delivered (h ++ h') = delivered h ++ delivered h' :=
  List.filterMap_append

theorem size_step_le {cap : Nat} {f : Fifo α} (h : f.size ≤ cap) (o : FifoOp α) :
    (f.step cap o).2.size ≤ cap := by
  cases o with
  | enqueue a =>
    simp only [step]
    split
    · exact h
    · simp only [size, List.length_append, List.length_cons, List.length_nil] at *
      omega
  | stage a =>
    simp only [step]
    split
    · exact h
    · simp only [size, List.length_append, List.length_cons, List.length_nil] at *
      omega
  | publish => simpa [step, size] using h
  | dequeue =>
    simp only [step]
    split
    · exact h
    · rename_i hq
      simp only [size, hq, List.length_cons] at *
      omega

theorem Run.size_le {cap : Nat} {h : List (FifoEvent α)} {f : Fifo α} {pend : Role → Pending α}
    (hr : Run cap h f pend) :
    f.size ≤ cap := by
  induction hr with
  | init => exact Nat.zero_le _
  | call _ _ _ ih => exact ih
  | effect _ o _ ih => exact size_step_le ih o
  | ret _ _ _ _ ih => exact ih

/-- What one operation adds on one side it adds on the other. -/
theorem conserve_step (cap : Nat) (f : Fifo α) (o : FifoOp α) :
    f.queue ++ f.staged ++ accepting (some (o, some (f.step cap o).1)) =
      taking (some (o, some (f.step cap o).1)) ++ (f.step cap o).2.queue ++ (f.step cap o).2.staged := by
  cases o with
  | enqueue a =>
    simp only [step]
    split <;> simp [accepting, taking]
  | stage a =>
    simp only [step]
    split <;> simp [accepting, taking]
  | publish => simp [step, accepting, taking]
  | dequeue =>
    simp only [step]
    split
    · simp [accepting, taking]
    · rename_i hq
      simp [accepting, taking, hq]

theorem taking_producer {cap : Nat} {f : Fifo α} {o : FifoOp α} (h : o.role = .producer) :
    taking (some (o, some (f.step cap o).1)) = [] := by
  cases o with
  | enqueue a =>
    simp only [step]
    split <;> rfl
  | stage a =>
    simp only [step]
    split <;> rfl
  | publish => rfl
  | dequeue => exact nomatch h

theorem accepting_dequeue (r : Option (FifoRes α)) : accepting (some ((.dequeue : FifoOp α), r)) = [] := by
  cases r with
  | none => rfl
  | some r => cases r <;> rfl

theorem accepting_none (o : FifoOp α) : accepting (some (o, none)) = [] := by
  cases o <;> rfl

theorem accepted_ret (o : FifoOp α) (r : FifoRes α) : accepted [.ret o.role o r] =
    accepting (some (o, some r)) := by
  cases o <;> cases r <;> rfl

theorem delivered_ret (o : FifoOp α) (r : FifoRes α) : delivered [.ret o.role o r] =
    taking (some (o, some r)) := by
  cases o <;> cases r <;> rfl

/-- Whatever was accepted is delivered, queued or put aside, in order. -/
theorem Run.conserve {cap : Nat} {h : List (FifoEvent α)} {f : Fifo α} {pend : Role → Pending α}
    (hr : Run cap h f pend) :
    accepted h ++ accepting (pend .producer) =
        delivered h ++ taking (pend .consumer) ++ f.queue ++ f.staged ∧
      taking (pend .producer) = [] ∧ accepting (pend .consumer) = [] := by
  induction hr with
  | init => exact ⟨rfl, rfl, rfl⟩
  | call hr o hp ih =>
    obtain ⟨ih, h1, h2⟩ := ih
    rw [accepted_append, delivered_append, show accepted [.call o.role o] = [] from rfl,
      show delivered [.call o.role o] = [] from rfl, List.append_nil, List.append_nil]
    cases hrole : o.role with
    | producer =>
      rw [hrole] at hp
      rw [hp] at ih
      simp only [Function.update_self, accepting_none, ne_eq, reduceCtorEq, not_false_eq_true,
        Function.update_of_ne]
      exact ⟨ih, rfl, h2⟩
    | consumer =>
      rw [hrole] at hp
      rw [hp] at ih
      simp only [Function.update_self, accepting_none, ne_eq, reduceCtorEq, not_false_eq_true,
        Function.update_of_ne]
      exact ⟨ih, h1, trivial⟩
  | @effect h f pend hr o hp ih =>
    obtain ⟨ih, h1, h2⟩ := ih
    have hs := conserve_step cap f o
    cases hrole : o.role with
    | producer =>
      rw [hrole] at hp
      rw [taking_producer hrole, List.nil_append] at hs
      rw [hp, accepting_none, List.append_nil, List.append_assoc] at ih
      simp only [Function.update_self, ne_eq, reduceCtorEq, not_false_eq_true, Function.update_of_ne]
      refine ⟨?_, taking_producer hrole, h2⟩
      rw [ih, List.append_assoc, hs, List.append_assoc, List.append_assoc, List.append_assoc]
    | consumer =>
      obtain rfl : o = .dequeue := by
        cases o <;> first | rfl | exact nomatch hrole
      rw [hrole] at hp
      rw [accepting_dequeue, List.append_nil] at hs
      rw [hp] at ih
      simp only [Function.update_self, ne_eq, reduceCtorEq, not_false_eq_true, Function.update_of_ne]
      refine ⟨?_, h1, accepting_dequeue _⟩
      rw [ih, List.append_assoc, hs]
      simp [taking]
  | ret hr o r hp ih =>
    obtain ⟨ih, h1, h2⟩ := ih
    rw [accepted_append, delivered_append, accepted_ret, delivered_ret]
    cases hrole : o.role with
    | producer =>
      rw [hrole] at hp
      rw [hp] at ih h1
      simp only [Function.update_self, ne_eq, reduceCtorEq, not_false_eq_true, Function.update_of_ne]
      refine ⟨?_, rfl, h2⟩
      rw [h1, ih]
      simp [accepting]
    | consumer =>
      rw [hrole] at hp
      rw [hp] at ih h2
      simp only [Function.update_self, ne_eq, reduceCtorEq, not_false_eq_true, Function.update_of_ne]
      refine ⟨?_, h1, rfl⟩
      rw [h2, List.append_nil, ih]
      simp [taking]

end Fifo

end Lerux.Base
