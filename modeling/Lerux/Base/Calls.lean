import Lerux.Base.Conc
import Lerux.Base.Ring

/-!
# Rings as bounded queues under concurrent calls

Threads share a family of rings and call functions on them. A function's body is a program of single
loads and stores of the ring's cursors and slots, and the loads and stores of different threads
interleave. `RingLib.Linearises` says that such a body takes effect at one of its operations, where it
does to the contents what `spec` does to a list, provided no other thread is inside a call of the same
role on the same ring.

`simulates` lifts this to whole runs: a system whose threads call the bodies is simulated by the
`State` machine of `Lerux.Base.Conc` in which every call is one operation on a list. How much is known
of a ring is its `Trust`: its contents, its length only, or nothing, when its calls return anything.
-/

namespace Lerux.Base

/-! ### Operations on the memory of one ring -/

inductive RingOp (w : Nat) (α : Type)
  | loadTail
  | loadHead
  | storeTail (v : BitVec w)
  | storeHead (v : BitVec w)
  | read (i : Nat)
  | write (i : Nat) (a : α)

namespace RingOp

variable {w : Nat} {α : Type}

def Res : RingOp w α → Type
  | loadTail => BitVec w
  | loadHead => BitVec w
  | storeTail _ => Unit
  | storeHead _ => Unit
  | read _ => α
  | write _ _ => Unit

def exec (r : Ring w α) : (o : RingOp w α) → o.Res × Ring w α
  | loadTail => (r.tail, r)
  | loadHead => (r.head, r)
  | storeTail v => ((), r.storeTail v)
  | storeHead v => ((), r.storeHead v)
  | read i => (r.slot i, r)
  | write i a => ((), r.write i a)

end RingOp

def ringSig (w : Nat) (α : Type) : Sig := ⟨RingOp w α, RingOp.Res⟩

/-- What a program without loops does to a ring that nobody else uses meanwhile. -/
def runAlone {w : Nat} {α β : Type} : Prog (ringSig w α) β → Ring w α → Option (β × Ring w α)
  | .ret b, r => some (b, r)
  | .act o k, r => runAlone (k (RingOp.exec r o).1) (RingOp.exec r o).2
  | .loop _ _ _, _ => none

/-- What happens to a queue at one operation. -/
inductive Move (α : Type)
  | push (a : α)
  | pop (a : α)
  deriving DecidableEq

/-- The queue after a move. -/
def Move.apply {α : Type} (q : List α) : Option (Move α) → List α
  | none => q
  | some (.push a) => q ++ [a]
  | some (.pop _) => q.tail

def Move.isPush {α : Type} : Move α → Bool
  | .push _ => true
  | .pop _ => false

theorem Move.length_apply {α : Type} {q q' : List α} {m m' : Option (Move α)} (hq : q.length = q'.length)
    (hm : m.map Move.isPush = m'.map Move.isPush) : (Move.apply q m).length =
      (Move.apply q' m').length := by
  rcases m with _ | _ | _ <;> rcases m' with _ | _ | _ <;> simp_all [Move.apply, Move.isPush]

/-- The move a store to a cursor makes: it publishes the slot at `tail`, or frees the one at `head`. -/
def RingOp.move {w : Nat} {α : Type} (cap : Nat) (r : Ring w α) : RingOp w α → Option (Move α)
  | .storeTail _ => some (.push (r.slot (r.tail.toNat % cap)))
  | .storeHead _ => some (.pop (r.slot (r.head.toNat % cap)))
  | _ => none

inductive Role
  | producer
  | consumer
  deriving DecidableEq

/-- A library of functions on one ring. `spec` is what a function does to the list of queued elements;
`early` marks the functions that may take effect before their last operation. -/
structure RingLib (w : Nat) (α : Type) where
  Fn : Type
  Res : Fn → Type
  role : Fn → Role
  early : Fn → Prop
  body : (cap : Nat) → (f : Fn) → Prog (ringSig w α) (Res f)
  spec : (cap : Nat) → (f : Fn) → List α → Res f × Option (Move α)

namespace RingLib

variable {w : Nat} {α : Type} (L : RingLib w α)

/-- What a role may do to a ring at one operation. -/
def Guar (cap : Nat) (r : Ring w α) : Role → RingOp w α → Prop
  | .producer, .write i _ => i = r.tail.toNat % cap ∧ r.len < cap
  | .producer, .storeTail v => v = r.tail + 1 ∧ r.len < cap
  | .producer, .storeHead _ => False
  | .consumer, .storeHead v => v = r.head + 1 ∧ 0 < r.len
  | .consumer, .storeTail _ => False
  | .consumer, .write _ _ => False
  | _, _ => True

/-- What a role knows of a ring survives what the other role does to it. -/
def Stable (cap : Nat) : Role → (Ring w α → Prop) → Prop
  | .producer, A => ∀ r, 0 < r.len → A r → A (r.storeHead (r.head + 1))
  | .consumer, A => ∀ r, r.len < cap → A r →
      A (r.storeTail (r.tail + 1)) ∧ ∀ a, A (r.write (r.tail.toNat % cap) a)

/-- What is left of a call, when the caller knows `A` of the ring, takes effect once and returns what
`spec` returns there: on the contents when the call is `exact`, else on some list of that length. `st` is
the result once it has taken effect. -/
def Lin (cap : Nat) (ro : Role) (exact early : Prop) : {β : Type} → (List α → β × Option (Move α)) →
    Option β →
    Prog (ringSig w α) β → (Ring w α → Prop) → Prop
  | _, _, st, .ret b, _ => st = some b
  | β, spec, st, .act o k, A => ∀ r : Ring w α, r.len ≤ cap → A r →
      Guar cap r ro o ∧ ∃ (st' : Option β) (A' : Ring w α → Prop),
        Stable cap ro A' ∧ A' (RingOp.exec r o).2 ∧
        ((st' = st ∧ RingOp.move cap r o = none) ∨
          ∃ b q m, st = none ∧ st' = some b ∧ q.length = r.len ∧ spec q = (b, m) ∧
            m.map Move.isPush = (RingOp.move cap r o).map Move.isPush ∧
            (exact → q = r.contents cap ∧ m = RingOp.move cap r o)) ∧
        (early ∨ st' = none ∨ ∃ b, k (RingOp.exec r o).1 = .ret b) ∧
        Lin cap ro exact early spec st' (k (RingOp.exec r o).1) A'
  | _, _, _, .loop _ _ _, _ => False

@[simp] theorem lin_ret {cap : Nat} {ro : Role} {exact early : Prop} {β : Type}
    {spec : List α → β × Option (Move α)}
    {st : Option β} {b : β} {A : Ring w α → Prop} : Lin cap ro exact early spec st (.ret b) A ↔
      st = some b := Iff.rfl

@[simp] theorem guar_loadTail {cap : Nat} {ro : Role} {r : Ring w α} : Guar cap r ro .loadTail := by
  cases ro <;> trivial

@[simp] theorem guar_loadHead {cap : Nat} {ro : Role} {r : Ring w α} : Guar cap r ro .loadHead := by
  cases ro <;> trivial

theorem stable_true (cap : Nat) (ro : Role) : Stable cap ro fun _ : Ring w α => True := by
  cases ro with
  | producer => exact fun _ _ _ => trivial
  | consumer => exact fun _ _ _ => ⟨trivial, fun _ => trivial⟩

/-- Each operation ends the call with its effect, or goes on without one. -/
theorem lin_act {cap : Nat} {ro : Role} {exact early : Prop} {β : Type}
    {spec : List α → β × Option (Move α)}
    {o : RingOp w α} {k : o.Res → Prog (ringSig w α) β} {A : Ring w α → Prop}
    (h : ∀ r : Ring w α, r.len ≤ cap → A r → Guar cap r ro o ∧
      ((∃ b q m, q.length = r.len ∧ spec q = (b, m) ∧
          m.map Move.isPush = (RingOp.move cap r o).map Move.isPush ∧
          (exact → q = r.contents cap ∧ m = RingOp.move cap r o) ∧ k (RingOp.exec r o).1 = .ret b) ∨
        RingOp.move cap r o = none ∧ ∃ A' : Ring w α → Prop, Stable cap ro A' ∧ A' (RingOp.exec r o).2 ∧
          Lin cap ro exact early spec none (k (RingOp.exec r o).1) A')) :
    Lin cap ro exact early spec none (.act o k) A := by
  intro r hr hA
  obtain ⟨hgu, ⟨b, q, m, hq, hspec, hm, hx, hk⟩ | ⟨hmv, A', hst, hA', hl⟩⟩ := h r hr hA
  · refine ⟨hgu, some b, fun _ => True, stable_true cap ro, trivial,
      .inr ⟨b, q, m, rfl, rfl, hq, hspec, hm, hx⟩,
      .inr (.inr ⟨b, hk⟩), ?_⟩
    rw [hk]
    exact rfl
  · exact ⟨hgu, none, A', hst, hA', .inl ⟨rfl, hmv⟩, .inr (.inl rfl), hl⟩

/-- What a caller makes of the result of a call takes effect with it. -/
theorem Lin.map {cap : Nat} {ro : Role} {exact early : Prop} {β γ : Type}
    {spec : List α → β × Option (Move α)}
    {st : Option β} {p : Prog (ringSig w α) β} {A : Ring w α → Prop}
      (h : Lin cap ro exact early spec st p A) (f : β → γ) :
    Lin cap ro exact early (fun q => (f (spec q).1, (spec q).2)) (st.map f)
      (p.bind fun b => .ret (f b)) A := by
  induction p generalizing A with
  | ret b =>
    obtain rfl : st = some b := h
    rfl
  | act o k ih =>
    intro r hr hA
    obtain ⟨hgu, st', A', hst, hA', heff, hret, hl⟩ := h r hr hA
    refine ⟨hgu, st'.map f, A', hst, hA', ?_, ?_, ih _ hl f⟩
    · rcases heff with ⟨rfl, hm⟩ | ⟨b, q, m, rfl, rfl, hq, hs, hm, hx⟩
      · exact .inl ⟨rfl, hm⟩
      · exact .inr ⟨f b, q, m, rfl, rfl, hq, congrArg (fun x => (f x.1, x.2)) hs, hm, hx⟩
    · rcases hret with he | rfl | ⟨b, hb⟩
      · exact .inl he
      · exact .inr (.inl rfl)
      · exact .inr (.inr ⟨f b, congrArg (fun p => p.bind fun b => Prog.ret (f b)) hb⟩)
  | loop body b k => exact h.elim

/-- A call takes effect once, between its entry and its return. -/
def Linearises (cap : Nat) (exact : Prop) (f : L.Fn) : Prop :=
  Lin cap (L.role f) exact (L.early f) (L.spec cap f) none (L.body cap f) fun _ => True

variable {L} {cap : Nat}

theorem len_exec (hg : Ring.Counts w cap) {r : Ring w α} {ro : Role} {o : RingOp w α} (h : r.len ≤ cap)
    (hgu : Guar cap r ro o) : (RingOp.exec r o).2.len ≤ cap := by
  cases o with
  | storeTail v =>
    cases ro with
    | producer =>
      obtain ⟨rfl, hlt⟩ := hgu
      have := Ring.len_storeTail hg r hlt
      simp only [RingOp.exec]
      omega
    | consumer => exact hgu.elim
  | storeHead v =>
    cases ro with
    | producer => exact hgu.elim
    | consumer =>
      obtain ⟨rfl, hpos⟩ := hgu
      have := Ring.len_storeHead hg r hpos
      simp only [RingOp.exec]
      omega
  | _ => exact h

/-- A producer that knows there is room keeps knowing it. -/
theorem stable_room (hg : Ring.Counts w cap) (tail : BitVec w) :
    Stable cap .producer fun r : Ring w α => r.tail = tail ∧ r.len < cap := by
  rintro r hpos ⟨ht, hl⟩
  have := Ring.len_storeHead hg r hpos
  exact ⟨ht, by omega⟩

/-- A consumer that knows there is an element keeps knowing it. -/
theorem stable_some (hg : Ring.Counts w cap) (head : BitVec w) :
    Stable cap .consumer fun r : Ring w α => r.head = head ∧ 0 < r.len := by
  rintro r hlt ⟨hh, hl⟩
  have := Ring.len_storeTail hg r hlt
  exact ⟨⟨hh, by omega⟩, fun _ => ⟨hh, hl⟩⟩

/-- Write the slot at the tail, then publish it. -/
theorem lin_publish (hg : Ring.Counts w cap) {exact early : Prop} {β : Type}
    {spec : List α → β × Option (Move α)}
    {tail : BitVec w} {a : α} {b : β} (hspec : ∀ q, q.length < cap → spec q = (b, some (.push a))) :
    Lin cap .producer exact early spec none
      (.act (.write (tail.toNat % cap) a) fun _ => .act (.storeTail (tail + 1)) fun _ => .ret b)
      fun r => r.tail = tail ∧ r.len < cap := by
  apply lin_act
  intro r _ hA
  refine ⟨⟨by rw [hA.1], hA.2⟩, .inr ⟨rfl,
    fun r => (r.tail = tail ∧ r.len < cap) ∧ r.slot (r.tail.toNat % cap) = a, ?_, ⟨hA, ?_⟩, ?_⟩⟩
  · rintro r' hpos ⟨h, hs⟩
    exact ⟨stable_room hg tail r' hpos h, hs⟩
  · rw [← hA.1]
    exact Ring.write_slot_self r _ a
  · apply lin_act
    rintro r' _ ⟨⟨rfl, hl⟩, hs⟩
    refine ⟨⟨rfl, hl⟩, .inl ⟨b, r'.contents cap, some (.push a),
      by simp, hspec _ (by simpa using hl), rfl, ?_, rfl⟩⟩
    intro _
    rw [RingOp.move, hs]
    exact ⟨rfl, rfl⟩

/-- Read the slot at the head, then free it. For the call to be exact the producer must not write the
slot in between, and it does not when the slots of the queued elements are distinct. -/
theorem lin_take (hg : Ring.Counts w cap) {exact early : Prop} (hx : exact → Ring.Good w cap) {β : Type}
    {spec : List α → β × Option (Move α)} {head : BitVec w} {f : α → β}
    (hspec : ∀ a q, spec (a :: q) = (f a, some (.pop a))) :
    Lin cap .consumer exact early spec none
      (.act (.read (head.toNat % cap)) fun a => .act (.storeHead (head + 1)) fun _ => .ret (f a))
      fun r => r.head = head ∧ 0 < r.len := by
  apply lin_act
  intro r _ hA
  refine ⟨trivial, .inr ⟨rfl, fun r' => (r'.head = head ∧ 0 < r'.len) ∧
    (exact → r'.slot (r'.head.toNat % cap) = r.slot (head.toNat % cap)), ?_,
      ⟨hA, fun _ => by rw [← hA.1]; rfl⟩, ?_⟩⟩
  · rintro r' hlt ⟨h, hs⟩
    have hst := stable_some hg head r' hlt h
    refine ⟨⟨hst.1, hs⟩, fun a => ⟨hst.2 a, fun hex => ?_⟩⟩
    have hne := Ring.slotAt_ne (hx hex) r'.head h.2 hlt
    rw [Ring.slotAt_zero, Ring.slotAt_len] at hne
    rw [← hs hex]
    exact Function.update_of_ne hne _ _
  · apply lin_act
    rintro r' _ ⟨⟨rfl, hl⟩, hs⟩
    refine ⟨⟨rfl, hl⟩, .inl ⟨_, r.slot (r'.head.toNat % cap) :: (r'.contents cap).tail, _, ?_,
      hspec _ _, rfl, ?_, rfl⟩⟩
    · simp only [List.length_cons, List.length_tail, Ring.contents_length]
      omega
    · intro hex
      rw [RingOp.move, Ring.contents_storeHead (hx hex).toCounts r' hl, hs hex]
      exact ⟨rfl, rfl⟩

/-- An operation does to the contents what its move does to the list. -/
theorem contents_exec (hg : Ring.Good w cap) {r : Ring w α} {ro : Role} {o : RingOp w α}
    (hgu : Guar cap r ro o) :
    (RingOp.exec r o).2.contents cap = Move.apply (r.contents cap) (RingOp.move cap r o) := by
  cases o with
  | storeTail v =>
    cases ro with
    | producer =>
      obtain ⟨rfl, hlt⟩ := hgu
      exact Ring.contents_storeTail hg.toCounts r hlt
    | consumer => exact hgu.elim
  | storeHead v =>
    cases ro with
    | producer => exact hgu.elim
    | consumer =>
      obtain ⟨rfl, hpos⟩ := hgu
      simp only [RingOp.exec, RingOp.move, Move.apply, Ring.contents_storeHead hg.toCounts r hpos,
        List.tail_cons]
  | write i a =>
    cases ro with
    | producer =>
      obtain ⟨rfl, hlt⟩ := hgu
      exact Ring.contents_write hg r hlt a
    | consumer => exact hgu.elim
  | _ => rfl

/-- An operation does to the length what its move does to that of a list. -/
theorem length_exec (hg : Ring.Counts w cap) {r : Ring w α} {ro : Role} {o : RingOp w α}
    (hgu : Guar cap r ro o) :
    (RingOp.exec r o).2.len = (Move.apply (r.contents cap) (RingOp.move cap r o)).length := by
  cases o with
  | storeTail v =>
    cases ro with
    | producer =>
      obtain ⟨rfl, hlt⟩ := hgu
      simpa [RingOp.exec, RingOp.move, Move.apply] using Ring.len_storeTail hg r hlt
    | consumer => exact hgu.elim
  | storeHead v =>
    cases ro with
    | producer => exact hgu.elim
    | consumer =>
      obtain ⟨rfl, hpos⟩ := hgu
      have := Ring.len_storeHead hg r hpos
      simp only [RingOp.exec, RingOp.move, Move.apply, List.length_tail, Ring.contents_length]
      omega
  | _ => simp [RingOp.exec, RingOp.move, Move.apply]

/-- What the other role knows survives the operation. -/
theorem stable_exec {r : Ring w α} {ro ro' : Role} {o : RingOp w α} {A : Ring w α → Prop} (hne : ro ≠ ro')
    (hs : Stable cap ro' A) (hgu : Guar cap r ro o) (hA : A r) : A (RingOp.exec r o).2 := by
  cases o with
  | storeTail v =>
    cases ro with
    | producer =>
      cases ro' with
      | producer => exact (hne rfl).elim
      | consumer =>
        obtain ⟨rfl, hlt⟩ := hgu
        exact (hs r hlt hA).1
    | consumer => exact hgu.elim
  | storeHead v =>
    cases ro with
    | producer => exact hgu.elim
    | consumer =>
      cases ro' with
      | producer =>
        obtain ⟨rfl, hpos⟩ := hgu
        exact hs r hpos hA
      | consumer => exact (hne rfl).elim
  | write i a =>
    cases ro with
    | producer =>
      cases ro' with
      | producer => exact (hne rfl).elim
      | consumer =>
        obtain ⟨rfl, hlt⟩ := hgu
        exact (hs r hlt hA).2 a
    | consumer => exact hgu.elim
  | _ => exact hA

end RingLib

/-! ### Systems of threads that call ring functions -/

/-- The operations of a system's programs: events of its environment, and calls on its rings. -/
inductive CallOp (E : Sig) {w : Nat} {α : Type} (L : RingLib w α) (Q : Type)
  | ev (o : E.Op)
  | call (q : Q) (f : L.Fn)

def callSig (E : Sig) {w : Nat} {α : Type} (L : RingLib w α) (Q : Type) : Sig where
  Op := CallOp E L Q
  Res
    | .ev o => E.Res o
    | .call _ f => L.Res f

/-- What a run records: the moves on the rings, and the notes of the environment. -/
inductive Entry (T Q α N : Type)
  | move (t : T) (q : Q) (m : Move α)
  | note (t : T) (n : N)
  deriving DecidableEq

/-- The record an operation on a ring leaves. -/
def Entry.moves {T Q α N : Type} (t : T) (q : Q) : Option (Move α) → List (Entry T Q α N)
  | none => []
  | some m => [.move t q m]

/-- A system: the capacities of its rings and its environment. `exec` performs an event, with a choice
where the outcome is open; `note` is what the event leaves in the record. -/
structure System (T Q : Type) (E : Sig) {w : Nat} {α : Type} (L : RingLib w α) where
  Env : Type
  Choice : Type
  Note : Type
  cap : Q → Nat
  exec : T → Env → (o : E.Op) → Choice → Option (E.Res o × Env)
  note : (o : E.Op) → E.Res o → Option Note

/-- A thread runs its program, or stands inside a call. -/
inductive Thread (E : Sig) {w : Nat} {α : Type} (L : RingLib w α) (Q : Type)
  | run (p : Prog (callSig E L Q) Empty)
  | call (q : Q) (f : L.Fn) (m : Prog (ringSig w α) (L.Res f)) (k : L.Res f → Prog (callSig E L Q) Empty)

/-- Go on with what is left of a call, or return from it. -/
def Thread.resume {E : Sig} {w : Nat} {α : Type} {L : RingLib w α} {Q : Type} (q : Q) (f : L.Fn)
    (m : Prog (ringSig w α) (L.Res f)) (k : L.Res f → Prog (callSig E L Q) Empty) : Thread E L Q :=
  match m with
  | .ret b => .run (k b)
  | m => .call q f m k

/-- The program a thread shows to an observer who takes a call for one operation that is yet to come. -/
def Thread.shown {E : Sig} {w : Nat} {α : Type} {L : RingLib w α} {Q : Type} :
    Thread E L Q → Prog (callSig E L Q) Empty
  | .run p => p
  | .call q f _ k => .act (.call q f) k

namespace System

variable {T Q : Type} [DecidableEq T] [DecidableEq Q] {E : Sig} {w : Nat} {α : Type} {L : RingLib w α}
  (Y : System T Q E L)

/-- The threads, the rings, the environment and the record. -/
structure Conf where
  thread : T → Thread E L Q
  ring : Q → Ring w α
  env : Y.Env
  log : List (Entry T Q α Y.Note)

/-- The record an event leaves. -/
def noted (t : T) (o : E.Op) (r : E.Res o) : List (Entry T Q α Y.Note) :=
  match Y.note o r with
  | none => []
  | some n => [.note t n]

omit [DecidableEq T] [DecidableEq Q] in
variable {Y} in
theorem noted_none {t : T} {o : E.Op} {r : E.Res o} (h : Y.note o r = none) : Y.noted t o r = [] := by
  simp [noted, h]

variable {Y} in
/-- One step of thread `t`. -/
def Conf.step (s : Y.Conf) (t : T) (ch : Y.Choice) : Option Y.Conf :=
  match s.thread t with
  | .run (.ret a) => a.elim
  | .run (.loop body b k) => some { s with thread := Function.update s.thread t (.run (Prog.turn body b k)) }
  | .run (.act (.ev o) k) =>
    match Y.exec t s.env o ch with
    | none => none
    | some (r, env) =>
      some { s with
        thread := Function.update s.thread t (.run (k r))
        env := env
        log := s.log ++ Y.noted t o r }
  | .run (.act (.call q f) k) =>
    some { s with thread := Function.update s.thread t (.resume q f (L.body (Y.cap q) f) k) }
  | .call _ _ (.ret _) _ => none
  | .call _ _ (.loop _ _ _) _ => none
  | .call q f (.act o k') k =>
    let x := RingOp.exec (s.ring q) o
    some { s with
      thread := Function.update s.thread t (.resume q f (k' x.1) k)
      ring := Function.update s.ring q x.2
      log := s.log ++ Entry.moves t q (RingOp.move (Y.cap q) (s.ring q) o) }

/-- The configurations some schedule that follows `may` reaches. -/
inductive Reaches (may : Y.Conf → T → Prop) (init : Y.Conf) : Y.Conf → Prop
  | init : Reaches may init init
  | step {s s' : Y.Conf} {t : T} {ch : Y.Choice} (h : Reaches may init s) (hm : may s t)
      (hs : s.step t ch = some s') : Reaches may init s'

variable {Y} in
/-- Run a schedule whose steps all pass `ok`. -/
def Conf.runs (ok : Y.Conf → T → Bool) (s : Y.Conf) : List (T × Y.Choice) → Option Y.Conf
  | [] => some s
  | (t, ch) :: rest => if ok s t then (s.step t ch).bind fun s => s.runs ok rest else none

variable {Y} in
theorem Reaches.runs {may : Y.Conf → T → Prop} {ok : Y.Conf → T → Bool} {init s s' : Y.Conf}
    (hok : ∀ s t, ok s t = true → may s t) (h : Y.Reaches may init s) {l : List (T × Y.Choice)}
    (hr : s.runs ok l = some s') : Y.Reaches may init s' := by
  induction l generalizing s with
  | nil =>
    cases hr
    exact h
  | cons x l ih =>
    obtain ⟨t, ch⟩ := x
    unfold Conf.runs at hr
    split at hr
    · obtain ⟨s1, hs1, hr⟩ := Option.bind_eq_some_iff.mp hr
      exact ih (.step h (hok _ _ ‹_›) hs1) hr
    · exact nomatch hr

/-- The event a thread is about to perform. -/
def nextEvent : Thread E L Q → Option E.Op
  | .run (.act (.ev o) _) => some o
  | _ => none

/-- Thread `t` is about to perform the event `o`. -/
def At (s : Y.Conf) (t : T) (o : E.Op) : Prop := nextEvent (s.thread t) = some o

omit [DecidableEq T] [DecidableEq Q] in
variable {Y} in
theorem At.thread {s : Y.Conf} {t : T} {o : E.Op} (h : Y.At s t o) :
    ∃ k, s.thread t = .run (.act (.ev o) k) := by
  unfold At nextEvent at h
  split at h
  · rename_i o' k heq
    obtain rfl := Option.some.inj h
    exact ⟨k, heq⟩
  · exact nomatch h

omit [DecidableEq T] [DecidableEq Q] in
variable {Y} in
theorem At.of_shown {s : Y.Conf} {t : T} {o : E.Op} {k : E.Res o → Prog (callSig E L Q) Empty}
    (h : (s.thread t).shown = .act (.ev o) k) : Y.At s t o := by
  unfold At
  cases hth : s.thread t with
  | run p =>
    rw [hth] at h
    obtain rfl : p = _ := h
    rfl
  | call q f m k' =>
    rw [hth] at h
    exact nomatch h

/-- Thread `t` stands inside a call of this role on this ring. -/
def InCall (s : Y.Conf) (t : T) (q : Q) (ro : Role) : Prop :=
  ∃ f m k, s.thread t = .call q f m k ∧ L.role f = ro

/-- What is known of a ring: its contents, its length, or nothing. -/
inductive Trust
  | exact
  | loose
  | wild
  deriving DecidableEq

/-- No two threads stand inside calls of one role on one ring. -/
def Exclusive (trust : Q → Trust) (s : Y.Conf) : Prop :=
  ∀ q ro t t', trust q ≠ .wild → Y.InCall s t q ro → Y.InCall s t' q ro → t = t'

/-! ### The same system over lists -/

/-- The memory in which rings are lists. -/
structure Lists where
  queue : Q → List α
  env : Y.Env
  log : List (Entry T Q α Y.Note)

/-- A call is one operation on a list. Where only the length is known, its result is one it has on some
list of that length; on a wild ring it is anything. Only calls on exact rings are recorded. -/
def act (trust : Q → Trust) (t : T) (s : Y.Lists) : (o : CallOp E L Q) → (callSig E L Q).Res o →
    Y.Lists → Prop
  | .ev o, r, s' => ∃ ch env, Y.exec t s.env o ch = some (r, env) ∧
      s' = { s with env := env, log := s.log ++ Y.noted t o r }
  | .call q f, r, s' =>
    match trust q with
    | .exact => ∃ m, L.spec (Y.cap q) f (s.queue q) = (r, m) ∧
        s' = { s with
          queue := Function.update s.queue q (Move.apply (s.queue q) m)
          log := s.log ++ Entry.moves t q m }
    | .loose => ∃ l m, l.length = (s.queue q).length ∧ L.spec (Y.cap q) f l = (r, m) ∧
        s' = { s with queue := Function.update s.queue q (Move.apply (s.queue q) m) }
    | .wild => s' = s

/-- Entries about rings whose contents are known. -/
def tame (trust : Q → Trust) : Entry T Q α Y.Note → Bool
  | .move _ q _ => trust q = .exact
  | .note _ _ => true

/-- What a program has left when a call has not, or has, taken effect. -/
def left (q : Q) (f : L.Fn) (k : L.Res f → Prog (callSig E L Q) Empty) :
    Option (L.Res f) → Prog (callSig E L Q) Empty
  | none => .act (.call q f) k
  | some b => k b

/-- What thread `t`'s program has left, seen from a thread that may stand inside a call. -/
def ThreadRel (trust : Q → Trust) (ring : Q → Ring w α) (p : Prog (callSig E L Q) Empty) :
    Thread E L Q → Prop
  | .run p' => p = p'
  | .call q f m k =>
    if trust q = .wild then p = .act (.call q f) k
    else ∃ (st : Option (L.Res f)) (A : Ring w α → Prop),
      RingLib.Stable (Y.cap q) (L.role f) A ∧ A (ring q) ∧
        RingLib.Lin (Y.cap q) (L.role f) (trust q = .exact) (L.early f) (L.spec (Y.cap q) f) st m A ∧
        (L.early f ∨ st = none) ∧ p = left q f k st

/-- A ring and the list that stands for it. -/
def RingRel (cap : Nat) (r : Ring w α) (q : List α) : Trust → Prop
  | .exact => r.len ≤ cap ∧ r.contents cap = q
  | .loose => r.len ≤ cap ∧ r.len = q.length
  | .wild => True

/-- The configuration is simulated by the state. -/
structure Rel (trust : Q → Trust) (a : State T (callSig E L Q) Y.Lists) (s : Y.Conf) : Prop where
  env : a.mem.env = s.env
  log : a.mem.log = s.log.filter (Y.tame trust)
  ring : ∀ q, RingRel (Y.cap q) (s.ring q) (a.mem.queue q) (trust q)
  thread : ∀ t, Y.ThreadRel trust s.ring (a.prog t) (s.thread t)

/-! ### The simulation -/

theorem RingRel.fits {cap : Nat} {r : Ring w α} {q : List α} {tr : Trust} (h : RingRel cap r q tr)
    (ht : tr ≠ .wild) :
    r.len ≤ cap := by
  cases tr with
  | exact => exact h.1
  | loose => exact h.1
  | wild => exact (ht rfl).elim

theorem RingRel.length {cap : Nat} {r : Ring w α} {q : List α} {tr : Trust} (h : RingRel cap r q tr)
    (ht : tr ≠ .wild) :
    q.length = r.len := by
  cases tr with
  | exact => rw [← h.2, Ring.contents_length]
  | loose => exact h.2.symm
  | wild => exact (ht rfl).elim

/-- The capacities a ring of each trust may have. -/
def CapOk (w cap : Nat) : Trust → Prop
  | .exact => Ring.Good w cap
  | .loose => Ring.Counts w cap
  | .wild => True

theorem CapOk.counts {cap : Nat} {tr : Trust} (h : CapOk w cap tr) (ht : tr ≠ .wild) :
    Ring.Counts w cap := by
  cases tr with
  | exact => exact h.toCounts
  | loose => exact h
  | wild => exact (ht rfl).elim

/-- A permitted operation does to the list what its move does. -/
theorem RingRel.exec {cap : Nat} {r : Ring w α} {q : List α} {tr : Trust} {ro : Role} {o : RingOp w α}
    {m : Option (Move α)} (hcap : CapOk w cap tr) (h : RingRel cap r q tr) (ht : tr ≠ .wild)
    (hgu : RingLib.Guar cap r ro o) (hm : m.map Move.isPush = (RingOp.move cap r o).map Move.isPush)
    (hx : tr = .exact → m = RingOp.move cap r o) : RingRel cap (RingOp.exec r o).2 (Move.apply q m) tr := by
  have hfits := RingLib.len_exec (hcap.counts ht) (h.fits ht) hgu
  cases tr with
  | exact =>
    obtain rfl := hx rfl
    refine ⟨hfits, ?_⟩
    rw [RingLib.contents_exec hcap hgu, h.2]
  | loose =>
    refine ⟨hfits, ?_⟩
    rw [RingLib.length_exec hcap hgu]
    exact Move.length_apply (by rw [Ring.contents_length, h.2]) hm.symm
  | wild => exact (ht rfl).elim

variable {Y} {trust : Q → Trust} {a : State T (callSig E L Q) Y.Lists} {s s' : Y.Conf} {t : T}
  {ch : Y.Choice}

omit [DecidableEq T] [DecidableEq Q] in
/-- A thread that returns, or goes on with a call, is related to the program that has or has not taken
the call's effect. -/
theorem threadRel_resume {ring : Q → Ring w α} {q : Q} {f : L.Fn} {m : Prog (ringSig w α) (L.Res f)}
    {k : L.Res f → Prog (callSig E L Q) Empty} {st : Option (L.Res f)} {A : Ring w α → Prop}
      (hq : trust q ≠ .wild)
    (hst : RingLib.Stable (Y.cap q) (L.role f) A) (hA : A (ring q))
    (hl : RingLib.Lin (Y.cap q) (L.role f) (trust q = .exact) (L.early f) (L.spec (Y.cap q) f) st m A)
    (he : L.early f ∨ st = none ∨ ∃ b, m = .ret b) :
    Y.ThreadRel trust ring (left q f k st) (.resume q f m k) := by
  cases m with
  | ret b =>
    obtain rfl : st = some b := hl
    exact rfl
  | act o k' =>
    simp only [Thread.resume, ThreadRel, if_neg hq]
    refine ⟨st, A, hst, hA, hl, ?_, rfl⟩
    rcases he with he | he | ⟨b, hb⟩
    · exact .inl he
    · exact .inr he
    · exact nomatch hb
  | loop body b k' => exact hl.elim

omit [DecidableEq Q] in
/-- The threads that do not move stay related when the rings do not change. -/
theorem thread_update (hr : Y.Rel trust a s) {p : Prog (callSig E L Q) Empty} {th : Thread E L Q}
    (h : Y.ThreadRel trust s.ring p th) (t' : T) :
    Y.ThreadRel trust s.ring (Function.update a.prog t p t') (Function.update s.thread t th t') := by
  by_cases ht : t' = t
  · subst ht
    simpa using h
  · simpa [Function.update_of_ne ht] using hr.thread t'

omit [DecidableEq Q] in
theorem thread_update_left (hr : Y.Rel trust a s) {th : Thread E L Q}
    (h : Y.ThreadRel trust s.ring (a.prog t) th)
    (t' : T) : Y.ThreadRel trust s.ring (a.prog t') (Function.update s.thread t th t') := by
  have := thread_update (t := t) hr h t'
  rwa [Function.update_eq_self] at this

omit [DecidableEq T] in
/-- What a thread inside a call knows survives an operation of another one. -/
theorem thread_ring (hr : Y.Rel trust a s) (hex : Y.Exclusive trust s) {q : Q} {f : L.Fn}
    {m : Prog (ringSig w α) (L.Res f)} {k : L.Res f → Prog (callSig E L Q) Empty} {o : RingOp w α}
    (ht : s.thread t = .call q f m k) (hgu : trust q ≠ .wild → RingLib.Guar (Y.cap q) (s.ring q)
      (L.role f) o)
    {t' : T} (hne : t' ≠ t) :
    Y.ThreadRel trust (Function.update s.ring q (RingOp.exec (s.ring q) o).2) (a.prog t')
      (s.thread t') := by
  have h := hr.thread t'
  cases hth : s.thread t' with
  | run p => rwa [hth] at h
  | call q' f' m' k' =>
    rw [hth] at h
    by_cases hw : trust q' = .wild
    · simpa only [ThreadRel, if_pos hw] using h
    simp only [ThreadRel, if_neg hw] at h ⊢
    obtain ⟨st, A, hst, hA, hl, he, hp⟩ := h
    refine ⟨st, A, hst, ?_, hl, he, hp⟩
    by_cases hq : q' = q
    · subst hq
      -- the two threads stand inside calls on one ring, so their roles differ
      have hrole : L.role f ≠ L.role f' := by
        intro heq
        exact hne (hex q' (L.role f') t' t hw ⟨f', m', k', hth, rfl⟩ ⟨f, m, k, ht, heq⟩)
      rw [Function.update_self]
      exact RingLib.stable_exec hrole hst (hgu hw) hA
    · rwa [Function.update_of_ne hq]

omit [DecidableEq T] in
/-- The rings and lists after an operation on one of them. -/
theorem ring_update (hr : Y.Rel trust a s) {q : Q} {o : RingOp w α} {m : Option (Move α)}
    (h : RingRel (Y.cap q) (RingOp.exec (s.ring q) o).2 (Move.apply (a.mem.queue q) m) (trust q)) (q' : Q) :
    RingRel (Y.cap q') (Function.update s.ring q (RingOp.exec (s.ring q) o).2 q')
      (Function.update a.mem.queue q (Move.apply (a.mem.queue q) m) q') (trust q') := by
  by_cases hqq : q' = q
  · subst hqq
    simpa using h
  · simpa [Function.update_of_ne hqq] using hr.ring q'

omit [DecidableEq T] [DecidableEq Q] in
/-- The record of an operation, seen by the lists. -/
theorem filter_moved (hr : Y.Rel trust a s) (q : Q) (m : Option (Move α)) :
    (s.log ++ Entry.moves t q m).filter (Y.tame trust) =
      a.mem.log ++ if trust q = .exact then Entry.moves t q m else [] := by
  rw [List.filter_append, ← hr.log]
  congr 1
  cases m with
  | none => simp [Entry.moves]
  | some m => by_cases hq : trust q = .exact <;> simp [Entry.moves, tame, hq]

/-- A step inside a call on a ring that is not wild. -/
theorem rel_call (hcap : ∀ q, CapOk w (Y.cap q) (trust q)) (hr : Y.Rel trust a s)
    (hex : Y.Exclusive trust s) {q : Q} {f : L.Fn} {o : RingOp w α}
      {k' : o.Res → Prog (ringSig w α) (L.Res f)}
    {k : L.Res f → Prog (callSig E L Q) Empty} (ht : s.thread t = .call q f (.act o k') k)
      (hq : trust q ≠ .wild)
    (hs : s.step t ch = some s') :
    Y.Rel trust a s' ∨ a.prog t = (s.thread t).shown ∧ ∃ a', Step (Y.act trust) a t a' ∧
      Y.Rel trust a' s' := by
  have h := hr.thread t
  simp only [ht, ThreadRel, if_neg hq] at h
  obtain ⟨st, A, hst, hA, hl, he, hp⟩ := h
  obtain ⟨hgu, st', A', hst', hA', heff, hearly, hl'⟩ := hl (s.ring q) ((hr.ring q).fits hq) hA
  simp only [Conf.step, ht, Option.some.injEq] at hs
  subst hs
  have hself : Y.ThreadRel trust (Function.update s.ring q (RingOp.exec (s.ring q) o).2)
      (left q f k st') (.resume q f (k' (RingOp.exec (s.ring q) o).1) k) := by
    refine threadRel_resume hq hst' ?_ hl' hearly
    rwa [Function.update_self]
  have hothers : ∀ t', t' ≠ t →
      Y.ThreadRel trust (Function.update s.ring q (RingOp.exec (s.ring q) o).2) (a.prog t') (s.thread t') :=
    fun t' hne => thread_ring hr hex ht (fun _ => hgu) hne
  rcases heff with ⟨rfl, hmv⟩ | ⟨b, l, m, rfl, rfl, hlen, hspec, hm, hx⟩
  · left
    have hring := ring_update hr ((hr.ring q).exec (m := none) (hcap q) hq hgu (by rw [hmv])
      fun _ => hmv.symm)
    refine ⟨hr.env, ?_, fun q' => ?_, fun t' => ?_⟩
    · simpa [hmv, Entry.moves] using hr.log
    · simpa [Move.apply] using hring q'
    · by_cases hne : t' = t
      · subst hne
        rw [hp]
        simpa using hself
      · simpa [Function.update_of_ne hne] using hothers t' hne
  · right
    have hring := ring_update hr ((hr.ring q).exec (hcap q) hq hgu hm fun h => (hx h).2)
    have hthreads : ∀ t', Y.ThreadRel trust (Function.update s.ring q (RingOp.exec (s.ring q) o).2)
        (Function.update a.prog t (k b) t')
        (Function.update s.thread t (.resume q f (k' (RingOp.exec (s.ring q) o).1) k) t') := by
      intro t'
      by_cases hne : t' = t
      · subst hne
        simpa [left] using hself
      · simpa [Function.update_of_ne hne] using hothers t' hne
    refine ⟨by rw [ht]; exact hp, ⟨Function.update a.prog t (k b), { a.mem with
      queue := Function.update a.mem.queue q (Move.apply (a.mem.queue q) m)
      log := a.mem.log ++ if trust q = .exact then Entry.moves t q m else [] }⟩, ?_, hr.env, ?_,
        hring, hthreads⟩
    · refine .act hp ?_
      cases htr : trust q with
      | exact =>
        obtain ⟨rfl, rfl⟩ := hx htr
        have hcont : (s.ring q).contents (Y.cap q) = a.mem.queue q := by
          have := hr.ring q
          rw [htr] at this
          exact this.2
        rw [hcont] at hspec
        simp only [System.act, htr]
        exact ⟨_, hspec, rfl⟩
      | loose =>
        simp only [System.act, htr]
        refine ⟨l, m, ?_, hspec, by simp⟩
        rw [hlen, (hr.ring q).length hq]
      | wild => exact (hq htr).elim
    · change _ = (s.log ++ Entry.moves t q (RingOp.move (Y.cap q) (s.ring q) o)).filter (Y.tame trust)
      rw [filter_moved hr]
      by_cases htr : trust q = .exact
      · rw [(hx htr).2]
      · simp [htr]

/-- A step inside a call on a wild ring. -/
theorem rel_call_wild (hr : Y.Rel trust a s) {q : Q} {f : L.Fn} {o : RingOp w α}
    {k' : o.Res → Prog (ringSig w α) (L.Res f)} {k : L.Res f → Prog (callSig E L Q) Empty}
    (ht : s.thread t = .call q f (.act o k') k) (hq : trust q = .wild) (hex : Y.Exclusive trust s)
    (hs : s.step t ch = some s') :
    Y.Rel trust a s' ∨ a.prog t = (s.thread t).shown ∧ ∃ a', Step (Y.act trust) a t a' ∧
      Y.Rel trust a' s' := by
  have hp := hr.thread t
  simp only [ht, ThreadRel, if_pos hq] at hp
  simp only [Conf.step, ht, Option.some.injEq] at hs
  subst hs
  have hring : ∀ q', RingRel (Y.cap q') (Function.update s.ring q (RingOp.exec (s.ring q) o).2 q')
      (a.mem.queue q') (trust q') := by
    intro q'
    by_cases hqq : q' = q
    · subst hqq
      rw [hq]
      trivial
    · simpa [Function.update_of_ne hqq] using hr.ring q'
  have hlog : a.mem.log =
      (s.log ++ Entry.moves t q (RingOp.move (Y.cap q) (s.ring q) o)).filter (Y.tame trust) := by
    rw [filter_moved hr]
    simp [hq]
  have hothers : ∀ t', t' ≠ t →
      Y.ThreadRel trust (Function.update s.ring q (RingOp.exec (s.ring q) o).2) (a.prog t') (s.thread t') :=
    fun t' hne => thread_ring hr hex ht (fun h => (h hq).elim) hne
  cases hm : k' (RingOp.exec (s.ring q) o).1 with
  | ret b =>
    right
    refine ⟨by
      rw [ht]; exact hp, ⟨Function.update a.prog t (k b), a.mem⟩,
      .act hp (by simp [System.act, hq]), hr.env,
      hlog, hring, ?_⟩
    intro t'
    by_cases hne : t' = t
    · subst hne
      simp [Thread.resume, ThreadRel]
    · simpa [Function.update_of_ne hne] using hothers t' hne
  | _ =>
    left
    refine ⟨hr.env, hlog, hring, ?_⟩
    intro t'
    by_cases hne : t' = t
    · subst hne
      simp [Thread.resume, ThreadRel, hq, hp]
    · simpa [Function.update_of_ne hne] using hothers t' hne

/-- What a system and its library must satisfy for the lists to stand for the rings. -/
structure Fits (Y : System T Q E L) (trust : Q → Trust) : Prop where
  cap : ∀ q, CapOk w (Y.cap q) (trust q)
  lin : ∀ q f, trust q ≠ .wild → L.Linearises (Y.cap q) (trust q = .exact) f
  body : ∀ q f b, L.body (Y.cap q) f ≠ .ret b

/-- One step of the system is matched by one of the lists, or by none. -/
theorem rel_step (hY : Y.Fits trust) (hr : Y.Rel trust a s) (hex : Y.Exclusive trust s)
    (hs : s.step t ch = some s') :
    Y.Rel trust a s' ∨ a.prog t = (s.thread t).shown ∧ ∃ a', Step (Y.act trust) a t a' ∧
      Y.Rel trust a' s' := by
  have h := hr.thread t
  cases hth : s.thread t with
  | run p =>
    have hp : a.prog t = p := by rwa [hth] at h
    cases p with
    | ret x => exact x.elim
    | loop body b k =>
      simp only [Conf.step, hth, Option.some.injEq] at hs
      subst hs
      exact .inr ⟨hp, _, .turn hp, hr.env, hr.log, hr.ring, thread_update hr rfl⟩
    | act o k =>
      cases o with
      | ev o =>
        simp only [Conf.step, hth] at hs
        split at hs
        · exact nomatch hs
        · rename_i r env he
          simp only [Option.some.injEq] at hs
          subst hs
          rw [← hr.env] at he
          refine .inr ⟨hp, _, .act hp ⟨ch, env, he, rfl⟩, rfl, ?_, hr.ring, thread_update hr rfl⟩
          rw [List.filter_append, ← hr.log]
          unfold noted
          cases Y.note o r with
          | none => rfl
          | some n => rfl
      | call q f =>
        simp only [Conf.step, hth, Option.some.injEq] at hs
        subst hs
        refine .inl ⟨hr.env, hr.log, hr.ring, thread_update_left hr ?_⟩
        by_cases hq : trust q = .wild
        · cases hm : L.body (Y.cap q) f with
          | ret b => exact (hY.body q f b hm).elim
          | _ => simp [Thread.resume, ThreadRel, hq, hp]
        · rw [hp]
          have hstart : Y.ThreadRel trust s.ring (left q f k none) (.resume q f (L.body (Y.cap q) f) k) :=
            threadRel_resume hq (RingLib.stable_true _ _) trivial (hY.lin q f hq) (.inr (.inl rfl))
          exact hstart
  | call q f m k =>
    cases m with
    | ret b => simp [Conf.step, hth] at hs
    | loop body b k' => simp [Conf.step, hth] at hs
    | act o k' =>
      rw [← hth]
      by_cases hq : trust q = .wild
      · exact rel_call_wild hr hth hq hex hs
      · exact rel_call hY.cap hr hex hth hq hs

/-- Every run of the system is a run of the lists. `may` and `may'` are scheduling rules of the two. -/
theorem simulates (hY : Y.Fits trust) {may : Y.Conf → T → Prop}
    (may' : State T (callSig E L Q) Y.Lists → T → Prop) {init : Y.Conf}
    {init' : State T (callSig E L Q) Y.Lists} (h0 : Y.Rel trust init' init)
    (hex : ∀ s, Y.Reaches may init s → Y.Exclusive trust s)
    (hmay : ∀ a s t, Y.Reaches may init s → Y.Rel trust a s → a.prog t = (s.thread t).shown →
      may s t → may' a t)
    (h : Y.Reaches may init s) :
    ∃ a, Reach (Y.act trust) may' init' a ∧ Y.Rel trust a s := by
  induction h with
  | init => exact ⟨init', .init, h0⟩
  | step hreach hm hs ih =>
    obtain ⟨a, ha, hr⟩ := ih
    rcases rel_step hY hr (hex _ hreach) hs with hr' | ⟨hp, a', hstep, hr'⟩
    · exact ⟨a, ha, hr'⟩
    · exact ⟨a', .step ha (hmay a _ _ hreach hr hp hm) hstep, hr'⟩

/-! ### Who calls what -/

/-- Every operation thread `t` has left is one of `D t`. -/
def ThreadUses (D : CallOp E L Q → Prop) : Thread E L Q → Prop
  | .run p => p.All D
  | .call q f _ k => D (.call q f) ∧ ∀ b, (k b).All D

omit [DecidableEq Q] in
theorem threadUses_resume {D : CallOp E L Q → Prop} {q : Q} {f : L.Fn} {m : Prog (ringSig w α) (L.Res f)}
    {k : L.Res f → Prog (callSig E L Q) Empty} (h : D (.call q f)) (hk : ∀ b, (k b).All D) :
    ThreadUses D (.resume q f m k) := by
  unfold Thread.resume
  split
  · exact hk _
  · exact ⟨h, hk⟩

theorem uses_step {D : T → CallOp E L Q → Prop} (h : ∀ t, ThreadUses (D t) (s.thread t))
    (hs : s.step t ch = some s') (t' : T) : ThreadUses (D t') (s'.thread t') := by
  have hmove : ∀ th, ThreadUses (D t) th → ThreadUses (D t') (Function.update s.thread t th t') := by
    intro th hth
    by_cases ht : t' = t
    · subst ht
      simpa using hth
    · simpa [Function.update_of_ne ht] using h t'
  have ht := h t
  cases hth : s.thread t with
  | run p =>
    rw [hth] at ht
    cases p with
    | ret x => exact x.elim
    | loop body b k =>
      simp only [Conf.step, hth, Option.some.injEq] at hs
      subst hs
      exact hmove _ (Prog.All.turn ht)
    | act o k =>
      cases o with
      | ev o =>
        simp only [Conf.step, hth] at hs
        split at hs
        · exact nomatch hs
        · simp only [Option.some.injEq] at hs
          subst hs
          exact hmove _ (ht.2 _)
      | call q f =>
        simp only [Conf.step, hth, Option.some.injEq] at hs
        subst hs
        exact hmove _ (threadUses_resume ht.1 ht.2)
  | call q f m k =>
    rw [hth] at ht
    cases m with
    | ret b => simp [Conf.step, hth] at hs
    | loop body b k' => simp [Conf.step, hth] at hs
    | act o k' =>
      simp only [Conf.step, hth, Option.some.injEq] at hs
      subst hs
      exact hmove _ (threadUses_resume ht.1 ht.2)

theorem uses_of_reaches {D : T → CallOp E L Q → Prop} {may : Y.Conf → T → Prop} {init : Y.Conf}
    (h0 : ∀ t, ThreadUses (D t) (init.thread t)) (h : Y.Reaches may init s) :
    ∀ t, ThreadUses (D t) (s.thread t) := by
  induction h with
  | init => exact h0
  | step _ _ hs ih => exact uses_step ih hs

omit [DecidableEq T] [DecidableEq Q] in
/-- Rings with one producer and one consumer are used exclusively. -/
theorem exclusive_of_uses {D : T → CallOp E L Q → Prop}
    (hD : ∀ q f f' t t', trust q ≠ .wild → L.role f = L.role f' → D t (.call q f) →
      D t' (.call q f') → t = t')
    (h : ∀ t, ThreadUses (D t) (s.thread t)) : Y.Exclusive trust s := by
  rintro q ro t t' hq ⟨f, m, k, ht, hf⟩ ⟨f', m', k', ht', hf'⟩
  have h1 := h t
  have h2 := h t'
  rw [ht] at h1
  rw [ht'] at h2
  exact hD q f f' t t' hq (hf.trans hf'.symm) h1.1 h2.1

end System

end Lerux.Base
