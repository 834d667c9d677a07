import Lerux.Base.Fifo
import Lerux.Sddf.RecordQueues

/-!
# The rings as bounded queues

A producer and a consumer use one serial, block or graphics ring. Each call is made of its single loads and
stores, and those of the two parties interleave in any order. The run records the calls and returns, and the
stores.

`rings_refine` says that in every run the calls and returns are a history of a bounded queue
(`Fifo.Run`), that what the producer stores never goes to a slot that holds a value not yet
delivered, and that a call that returns -1 has stored nothing.
-/

namespace Lerux.RingHistory

open Lerux.Base Lerux.SerialQueue Lerux.RecordQueues

/-! ### The two parties -/

/-- The operations of the parties: on the ring, the choice of the next job, and the calls and returns. -/
inductive PairOp (α J : Type)
  | mem (o : RingOp 32 α)
  | job
  | event (e : FifoEvent α)

def pairSig (α J : Type) : Sig where
  Op := PairOp α J
  Res
    | .mem o => o.Res
    | .job => J
    | .event _ => Unit

/-- What a run records. -/
inductive Stamp (α : Type)
  | event (e : FifoEvent α)
  | store (p : Role)

structure PairMem (α : Type) where
  ring : Ring 32 α
  log : List (Stamp α)

abbrev PairProg (α J : Type) := Prog (pairSig α J)

section programs

variable {α J : Type}

/-- An operation that stores to the ring. -/
def stores : RingOp 32 α → Bool
  | .storeTail _ => true
  | .storeHead _ => true
  | .write _ _ => true
  | _ => false

def pairStep (p : Role) (m : PairMem α) : (o : PairOp α J) → (pairSig α J).Res o → PairMem α → Prop
  | .mem o, r, m' => (r, m'.ring) = RingOp.exec m.ring o ∧ m'.log = m.log ++ if stores o then
    [.store p] else []
  | .job, _, m' => m' = m
  | .event e, _, m' => m' = { m with log := m.log ++ [.event e] }

/-- A queue function, as a program of a party. -/
def lift : {β : Type} → RingProg α β → PairProg α J β
  | _, .ret b => .ret b
  | _, .act o k => .act (.mem o) fun r => lift (k r)
  | _, .loop body b k => .loop (fun b => lift (body b)) b fun c => lift (k c)

def event (e : FifoEvent α) : PairProg α J Unit := Prog.op (S := pairSig α J) (.event e)
def nextJob : PairProg α J J := Prog.op (S := pairSig α J) .job

/-- A call, with its record. -/
def during {β : Type} (o : FifoOp α) (body : RingProg α β) (res : β → FifoRes α) : PairProg α J β := do
  event (.call o.role o)
  let r ← lift body
  event (.ret o.role o (res r))
  return r

def statusRes (status : Int) : FifoRes α := if status = 0 then .done else .refused

def tookRes : Option α → FifoRes α
  | none => .refused
  | some a => .took a

/-- A producer of records. -/
def producer (enqueue : J → RingProg α Int) (value : J → α) : PairProg α J Empty :=
  Prog.forever do
    let j ← nextJob
    let _ ← during (.enqueue (value j)) (enqueue j) statusRes
    return ()

def consumer (dequeue : RingProg α (Option α)) : PairProg α J Empty :=
  Prog.forever do
    let _ ← during .dequeue dequeue tookRes
    return ()

/-- What a producer of bytes does next: one byte, or a batch behind a tail of its own. -/
inductive SerialJob (α : Type)
  | enqueue (character : α)
  | batch (characters : List α)

/-- One byte of a batch. -/
def batchByte (capacity localTail : BitVec 32) (character : α) : PairProg α (SerialJob α) (BitVec 32) := do
  let r ← during (.stage character) (serialEnqueueLocal capacity localTail character) fun r => statusRes r.1
  return r.2

/-- A producer of bytes. The batch loads its tail, as the receive virtualiser does. -/
def serialProducer (capacity : BitVec 32) : PairProg α (SerialJob α) Empty :=
  Prog.forever do
    match ← nextJob with
    | .enqueue character =>
      let _ ← during (.enqueue character) (serialEnqueue capacity character) statusRes
      return ()
    | .batch characters =>
      let tail ← lift loadTail
      let tail ← Prog.fold characters tail (batchByte capacity)
      during .publish (serialUpdateSharedTail tail) fun _ => .done

end programs

/-! ### What the record says -/

section record

variable {α : Type}

/-- The calls and returns. -/
def history (log : List (Stamp α)) : List (FifoEvent α) :=
  log.filterMap fun
    | .event e => some e
    | .store _ => none

/-- Whether party `p` has stored since its last call. -/
def dirtyStep (p : Role) (b : Bool) : Stamp α → Bool
  | .event (.call p' _) => if p' = p then false else b
  | .event (.ret _ _ _) => b
  | .store p' => if p' = p then true else b

def dirty (p : Role) (log : List (Stamp α)) : Bool := log.foldl (dirtyStep p) false

/-- A call that returns -1 has stored nothing. -/
def Quiet (log : List (Stamp α)) : Prop :=
  ∀ before p o after, log = before ++ .event (.ret p o .refused) :: after → dirty p before = false

theorem history_append (l l' : List (Stamp α)) : history (l ++ l') = history l ++ history l' :=
  List.filterMap_append

theorem dirty_snoc (p : Role) (l : List (Stamp α)) (s : Stamp α) :
    dirty p (l ++ [s]) = dirtyStep p (dirty p l) s := by
  rw [dirty, List.foldl_append]
  rfl

theorem Quiet.snoc {l : List (Stamp α)} {s : Stamp α} (h : Quiet l)
    (hs : ∀ p o, s = .event (.ret p o .refused) → dirty p l = false) : Quiet (l ++ [s]) := by
  intro before p o after heq
  rcases List.eq_nil_or_concat after with rfl | ⟨after, x, rfl⟩
  · obtain ⟨rfl, hx⟩ := List.append_inj' heq rfl
    exact hs p o (List.cons.inj hx).1
  · rw [List.concat_eq_append, ← List.cons_append, ← List.append_assoc] at heq
    exact h before p o after (List.append_inj' heq rfl).1

theorem Quiet.store {l : List (Stamp α)} (h : Quiet l) (p : Role) : Quiet (l ++ [.store p]) :=
  h.snoc fun _ _ h => nomatch h

end record

/-! ### The invariant -/

section invariant

variable {α : Type}

inductive ProdKnow (α : Type)
  | nothing
  | room
  | wrote (a : α)

/-- Where the producer stands: its call, what it has put aside and its own tail, and what it knows. -/
structure ProdAt (α : Type) where
  pend : Fifo.Pending α
  staged : List α
  tail : BitVec 32
  know : ProdKnow α

inductive ConsKnow (α : Type)
  | nothing
  | item
  | got (a : α)

/-- Where the consumer stands. -/
structure ConsAt (α : Type) where
  pend : Fifo.Pending α
  head : BitVec 32
  know : ConsKnow α

/-- A call that has not taken effect or was refused. -/
def unstored : Fifo.Pending α → Bool
  | some (_, none) => true
  | some (_, some .refused) => true
  | _ => false

def ProdAt.clean (g : ProdAt α) : Bool :=
  match g.know with
  | .wrote _ => false
  | _ => unstored g.pend

def ProdKnow.Ok (cap : Nat) (g : ProdAt α) (ring : Ring 32 α) (queue : List α) : ProdKnow α → Prop
  | .nothing => True
  | .room => queue.length + g.staged.length < cap
  | .wrote a => queue.length + g.staged.length < cap ∧ ring.slot (g.tail.toNat % cap) = a

def ConsKnow.Ok (queue : List α) : ConsKnow α → Prop
  | .nothing => True
  | .item => queue ≠ []
  | .got a => queue.head? = some a

def pendOf (p c : Fifo.Pending α) : Role → Fifo.Pending α
  | .producer => p
  | .consumer => c

@[simp] theorem pendOf_producer (p c x : Fifo.Pending α) :
    Function.update (pendOf p c) .producer x = pendOf x c := by
  funext r
  cases r <;> rfl

@[simp] theorem pendOf_consumer (p c x : Fifo.Pending α) :
    Function.update (pendOf p c) .consumer x = pendOf p x := by
  funext r
  cases r <;> rfl

structure PairInv (cap : Nat) (g : ProdAt α) (c : ConsAt α) (m : PairMem α) (queue : List α) : Prop where
  run : Fifo.Run cap (history m.log) ⟨queue, g.staged⟩ (pendOf g.pend c.pend)
  ring : Ring.Ahead cap m.ring g.tail queue g.staged
  head : m.ring.head = c.head
  prod : g.know.Ok cap g m.ring queue
  cons : c.know.Ok queue
  quiet : Quiet m.log
  cleanProd : g.clean = true → dirty .producer m.log = false
  cleanCons : unstored c.pend = true → dirty .consumer m.log = false

variable {cap : Nat} {g : ProdAt α} {c : ConsAt α} {m : PairMem α} {queue : List α}

/-- The producer calls an operation. -/
theorem PairInv.call_producer (h : PairInv cap g c m queue) (hp : g.pend = none) {o : FifoOp α}
    (ho : o.role = .producer) :
    PairInv cap { g with pend := some (o, none), know := .nothing } c
      { m with log := m.log ++ [.event (.call .producer o)] } queue where
  run := by
    have := h.run.call o (by rw [ho]; exact hp)
    rw [ho, pendOf_producer] at this
    rw [history_append]
    exact this
  ring := h.ring
  head := h.head
  prod := trivial
  cons := h.cons
  quiet := h.quiet.snoc fun _ _ h => nomatch h
  cleanProd _ := by
    rw [dirty_snoc]
    rfl
  cleanCons hc := by
    rw [dirty_snoc]
    exact h.cleanCons hc

/-- The producer returns. -/
theorem PairInv.ret_producer (h : PairInv cap g c m queue) {o : FifoOp α} {r : FifoRes α}
    (ho : o.role = .producer)
    (hp : g.pend = some (o, some r)) (hk : g.know = .nothing) :
    PairInv cap { g with pend := none } c { m with log := m.log ++
      [.event (.ret .producer o r)] } queue where
  run := by
    have := h.run.ret o r (by rw [ho]; exact hp)
    rw [ho, pendOf_producer] at this
    rw [history_append]
    exact this
  ring := h.ring
  head := h.head
  prod := by
    rw [hk]
    trivial
  cons := h.cons
  quiet := by
    refine h.quiet.snoc fun p o' he => ?_
    injection he with he
    injection he with hp' ho' hr
    subst hp' hr
    exact h.cleanProd (by simp [ProdAt.clean, hk, hp, unstored])
  cleanProd hc := by simp [ProdAt.clean, hk, unstored] at hc
  cleanCons hc := by
    rw [dirty_snoc]
    exact h.cleanCons hc

/-- The consumer calls. -/
theorem PairInv.call_consumer (h : PairInv cap g c m queue) (hp : c.pend = none) :
    PairInv cap g { c with pend := some (.dequeue, none), know := .nothing }
      { m with log := m.log ++ [.event (.call .consumer .dequeue)] } queue where
  run := by
    have := h.run.call .dequeue hp
    rw [show (FifoOp.dequeue : FifoOp α).role = .consumer from rfl, pendOf_consumer] at this
    rw [history_append]
    exact this
  ring := h.ring
  head := h.head
  prod := h.prod
  cons := trivial
  quiet := h.quiet.snoc fun _ _ h => nomatch h
  cleanProd hc := by
    rw [dirty_snoc]
    exact h.cleanProd hc
  cleanCons _ := by
    rw [dirty_snoc]
    rfl

/-- The consumer returns. -/
theorem PairInv.ret_consumer (h : PairInv cap g c m queue) {r : FifoRes α}
    (hp : c.pend = some (.dequeue, some r)) :
    PairInv cap g { c with pend := none, know := .nothing }
      { m with log := m.log ++ [.event (.ret .consumer .dequeue r)] } queue where
  run := by
    have := h.run.ret .dequeue r hp
    rw [show (FifoOp.dequeue : FifoOp α).role = .consumer from rfl, pendOf_consumer] at this
    rw [history_append]
    exact this
  ring := h.ring
  head := h.head
  prod := h.prod
  cons := trivial
  quiet := by
    refine h.quiet.snoc fun p o' he => ?_
    injection he with he
    injection he with hp' ho' hr
    subst hp' hr
    exact h.cleanCons (by simp [hp, unstored])
  cleanProd hc := by
    rw [dirty_snoc]
    exact h.cleanProd hc
  cleanCons := nofun

/-- The producer's call is refused by a full queue. -/
theorem PairInv.refuse_producer (h : PairInv cap g c m queue) {o : FifoOp α} (ho : o.role = .producer)
    (hp : g.pend = some (o, none)) (hk : g.know = .nothing)
    (hs : Fifo.step cap ⟨queue, g.staged⟩ o = (.refused, ⟨queue, g.staged⟩)) :
    PairInv cap { g with pend := some (o, some .refused) } c m queue where
  run := by
    have := h.run.effect o (by rw [ho]; exact hp)
    rw [ho, pendOf_producer, hs] at this
    exact this
  ring := h.ring
  head := h.head
  prod := by
    rw [hk]
    trivial
  cons := h.cons
  quiet := h.quiet
  cleanProd _ := h.cleanProd (by simp [ProdAt.clean, hk, hp, unstored])
  cleanCons := h.cleanCons

/-- The consumer's call finds the queue empty. -/
theorem PairInv.refuse_consumer (h : PairInv cap g c m []) (hp : c.pend = some (.dequeue, none)) :
    PairInv cap g { c with pend := some (.dequeue, some .refused), know := .nothing } m [] where
  run := by
    have := h.run.effect .dequeue hp
    rw [show (FifoOp.dequeue : FifoOp α).role = .consumer from rfl, pendOf_consumer] at this
    exact this
  ring := h.ring
  head := h.head
  prod := h.prod
  cons := trivial
  quiet := h.quiet
  cleanProd := h.cleanProd
  cleanCons _ := h.cleanCons (by simp [hp, unstored])

/-- The producer learns that there is room. -/
theorem PairInv.room (h : PairInv cap g c m queue) (hk : g.know = .nothing)
    (hlt : queue.length + g.staged.length < cap) :
    PairInv cap { g with know := .room } c m queue where
  run := h.run
  ring := h.ring
  head := h.head
  prod := hlt
  cons := h.cons
  quiet := h.quiet
  cleanProd hc := h.cleanProd (by simpa [ProdAt.clean, hk] using hc)
  cleanCons := h.cleanCons

/-- The producer stores a value it will publish alone. -/
theorem PairInv.write (hg : Ring.Good 32 cap) (h : PairInv cap g c m queue) (hk : g.know = .room) (a : α) :
    PairInv cap { g with know := .wrote a } c
      ⟨m.ring.write (g.tail.toNat % cap) a, m.log ++ [.store .producer]⟩ queue := by
  have hlt := h.prod
  rw [hk] at hlt
  refine ⟨?_, h.ring.write hg hlt a, h.head, ⟨hlt, Ring.write_slot_self _ _ _⟩, h.cons,
    h.quiet.store _, nofun, fun hc => ?_⟩
  · rw [history_append]
    simpa [history] using h.run
  · rw [dirty_snoc]
    exact h.cleanCons hc

/-- What the consumer knows survives when the queue grows. -/
theorem ConsKnow.Ok.grow {k : ConsKnow α} (h : k.Ok queue) (more : List α) : k.Ok (queue ++ more) := by
  cases k with
  | nothing => trivial
  | item => exact List.append_ne_nil_of_left_ne_nil h more
  | got a =>
    have h : queue.head? = some a := h
    change (queue ++ more).head? = some a
    rw [List.head?_append, h]
    rfl

/-- The producer publishes the value it stored. -/
theorem PairInv.publish_one (hg : Ring.Good 32 cap) (h : PairInv cap g c m queue) {a : α}
    (hp : g.pend = some (.enqueue a, none))
    (hk : g.know = .wrote a) (hst : g.staged = []) :
    PairInv cap ⟨some (.enqueue a, some .done), [], g.tail + 1, .nothing⟩ c
      ⟨m.ring.storeTail (g.tail + 1), m.log ++ [.store .producer]⟩ (queue ++ [a]) := by
  have hok := h.prod
  rw [hk] at hok
  obtain ⟨hlt, hslot⟩ := hok
  have hadv := (h.ring.advance hg hlt).publish
  rw [hslot, hst, List.nil_append] at hadv
  refine ⟨?_, hadv, h.head, trivial, h.cons.grow [a], h.quiet.store _, nofun, fun hc => ?_⟩
  · have := h.run.effect (.enqueue a) hp
    rw [show (FifoOp.enqueue a).role = .producer from rfl, pendOf_producer] at this
    have hstep : Fifo.step cap ⟨queue, g.staged⟩ (.enqueue a) = (.done, ⟨queue ++ g.staged ++ [a], []⟩) :=
      if_neg hlt.ne
    rw [hstep, hst, List.append_nil] at this
    rw [history_append]
    simpa [history] using this
  · rw [dirty_snoc]
    exact h.cleanCons hc

/-- The producer stores a value behind its own tail. -/
theorem PairInv.stage (hg : Ring.Good 32 cap) (h : PairInv cap g c m queue) {a : α}
    (hp : g.pend = some (.stage a, none))
    (hk : g.know = .room) :
    PairInv cap ⟨some (.stage a, some .done), g.staged ++ [a], g.tail + 1, .nothing⟩ c
      ⟨m.ring.write (g.tail.toNat % cap) a, m.log ++ [.store .producer]⟩ queue := by
  have hlt := h.prod
  rw [hk] at hlt
  have hadv := (h.ring.write hg hlt a).advance hg hlt
  rw [Ring.write_slot_self] at hadv
  refine ⟨?_, hadv, h.head, trivial, h.cons, h.quiet.store _, nofun, fun hc => ?_⟩
  · have := h.run.effect (.stage a) hp
    rw [show (FifoOp.stage a).role = .producer from rfl, pendOf_producer] at this
    have hlt : queue.length + g.staged.length < cap := hlt
    have hstep : Fifo.step cap ⟨queue, g.staged⟩ (.stage a) = (.done, ⟨queue, g.staged ++ [a]⟩) :=
      if_neg hlt.ne
    rw [hstep] at this
    rw [history_append]
    simpa [history] using this
  · rw [dirty_snoc]
    exact h.cleanCons hc

/-- The producer publishes its tail. -/
theorem PairInv.publish (h : PairInv cap g c m queue) (hp : g.pend = some (.publish, none)) :
    PairInv cap ⟨some (.publish, some .done), [], g.tail, .nothing⟩ c
      ⟨m.ring.storeTail g.tail, m.log ++ [.store .producer]⟩ (queue ++ g.staged) := by
  refine ⟨?_, h.ring.publish, h.head, trivial, h.cons.grow _, h.quiet.store _, nofun, fun hc => ?_⟩
  · have := h.run.effect .publish hp
    rw [show (FifoOp.publish : FifoOp α).role = .producer from rfl, pendOf_producer] at this
    rw [history_append]
    simpa [history, Fifo.step] using this
  · rw [dirty_snoc]
    exact h.cleanCons hc

/-- The consumer learns something. -/
theorem PairInv.learn (h : PairInv cap g c m queue) {k : ConsKnow α} (hk : k.Ok queue) :
    PairInv cap g { c with know := k } m queue :=
  ⟨h.run, h.ring, h.head, h.prod, hk, h.quiet, h.cleanProd, h.cleanCons⟩

/-- The consumer frees the value it read. -/
theorem PairInv.take (hg : Ring.Good 32 cap) {a : α} (h : PairInv cap g c m (a :: queue))
    (hp : c.pend = some (.dequeue, none)) :
    PairInv cap g ⟨some (.dequeue, some (.took a)), c.head + 1, .nothing⟩
      ⟨m.ring.storeHead (c.head + 1), m.log ++ [.store .consumer]⟩ queue := by
  obtain ⟨-, hring⟩ := h.ring.take hg
  rw [h.head] at hring
  refine ⟨?_, hring, rfl, ?_, trivial, h.quiet.store _, fun hc => ?_, nofun⟩
  · have := h.run.effect .dequeue hp
    rw [show (FifoOp.dequeue : FifoOp α).role = .consumer from rfl, pendOf_consumer] at this
    rw [history_append]
    simpa [history, Fifo.step] using this
  · have hok := h.prod
    cases hk : g.know with
    | nothing => trivial
    | room =>
      rw [hk] at hok
      simp only [ProdKnow.Ok, List.length_cons] at hok ⊢
      omega
    | wrote b =>
      rw [hk] at hok
      simp only [ProdKnow.Ok, List.length_cons] at hok ⊢
      exact ⟨by omega, hok.2⟩
  · rw [dirty_snoc]
    exact h.cleanProd hc

end invariant

/-! ### Each party keeps the invariant -/

section outline

variable {α J : Type} {cap : Nat}

def PairGhost (α : Type) : Role → Type
  | .producer => ProdAt α
  | .consumer => ConsAt α

/-- The producer writes the slot behind its own tail, when there is room. -/
def pairOk (cap : Nat) : (t : Role) → PairGhost α t → PairOp α J → Prop
  | .producer, g, .mem (.write i _) => ProdAt.know g = .room ∧ i = (ProdAt.tail g).toNat % cap
  | .consumer, _, .mem (.write _ _) => False
  | _, _, _ => True

def pairOutline (cap : Nat) (α J : Type) : Outline Role (pairSig α J) (PairMem α) where
  step := pairStep
  Ghost := PairGhost α
  ok := pairOk cap
  calm _ _ := True
  may _ _ _ _ := True
  inv G m := ∃ queue, PairInv cap (G .producer) (G .consumer) m queue

theorem performs_producer {o : PairOp α J} {Q : (pairSig α J).Res o → ProdAt α → Prop} {g : ProdAt α}
    (hok : pairOk cap .producer g o)
    (h : ∀ c m queue, PairInv cap g c m queue → ∀ r m', pairStep .producer m o r m' →
      ∃ g' queue', PairInv cap g' c m' queue' ∧ Q r g') :
    (pairOutline cap α J).Performs .producer o Q g := by
  refine ⟨hok, ?_⟩
  rintro G m rfl - ⟨queue, hi⟩ r m' hs
  obtain ⟨g', queue', hi', hq⟩ := h _ _ _ hi r m' hs
  exact ⟨g', ⟨queue', hi'⟩, hq⟩

theorem performs_consumer {o : PairOp α J} {Q : (pairSig α J).Res o → ConsAt α → Prop} {c : ConsAt α}
    (hok : pairOk cap .consumer c o)
    (h : ∀ g m queue, PairInv cap g c m queue → ∀ r m', pairStep .consumer m o r m' →
      ∃ c' queue', PairInv cap g c' m' queue' ∧ Q r c') :
    (pairOutline cap α J).Performs .consumer o Q c := by
  refine ⟨hok, ?_⟩
  rintro G m rfl - ⟨queue, hi⟩ r m' hs
  obtain ⟨g', queue', hi', hq⟩ := h _ _ _ hi r m' hs
  exact ⟨g', ⟨queue', hi'⟩, hq⟩

/-- A load leaves the memory alone. -/
theorem pairStep_loadTail {p : Role} {m m' : PairMem α} {r : BitVec 32}
    (h : pairStep (J := J) p m (.mem .loadTail) r m') : r = m.ring.tail ∧ m = m' := by
  obtain ⟨hr, hl⟩ := h
  obtain ⟨hr, hm⟩ := Prod.mk.inj hr
  refine ⟨hr, ?_⟩
  cases m'
  simp_all [stores, RingOp.exec]

theorem pairStep_loadHead {p : Role} {m m' : PairMem α} {r : BitVec 32}
    (h : pairStep (J := J) p m (.mem .loadHead) r m') : r = m.ring.head ∧ m = m' := by
  obtain ⟨hr, hl⟩ := h
  obtain ⟨hr, hm⟩ := Prod.mk.inj hr
  refine ⟨hr, ?_⟩
  cases m'
  simp_all [stores, RingOp.exec]

theorem pairStep_read {p : Role} {m m' : PairMem α} {i : Nat} {r : α}
    (h : pairStep (J := J) p m (.mem (.read i)) r m') : r = m.ring.slot i ∧ m = m' := by
  obtain ⟨hr, hl⟩ := h
  obtain ⟨hr, hm⟩ := Prod.mk.inj hr
  refine ⟨hr, ?_⟩
  cases m'
  simp_all [stores, RingOp.exec]

theorem pairStep_store {p : Role} {m m' : PairMem α} {o : RingOp 32 α} {r : o.Res} (hs : stores o = true)
    (h : pairStep (J := J) p m (.mem o) r m') : m' = ⟨(RingOp.exec m.ring o).2, m.log ++ [.store p]⟩ := by
  obtain ⟨hr, hl⟩ := h
  rw [hs, if_pos rfl] at hl
  cases m'
  simp only [PairMem.mk.injEq]
  exact ⟨congrArg Prod.snd hr, hl⟩

theorem during_eq {β : Type} (o : FifoOp α) (body : RingProg α β) (res : β → FifoRes α) :
    (during o body res : PairProg α J β) = .act (.event (.call o.role o)) fun _ =>
      (lift body).bind fun r => .act (.event (.ret o.role o (res r))) fun _ => .ret r := rfl

/-- A call of the producer: the body takes effect and gives its result. -/
theorem safe_during_producer {β : Type} {o : FifoOp α} {body : RingProg α β} {res : β → FifoRes α}
    {R : β → List α → BitVec 32 → Prop} {g : ProdAt α} (ho : o.role = .producer) (hp : g.pend = none)
    (h : (pairOutline cap α J).Safe .producer (lift body)
      (fun r (g' : ProdAt α) => g'.pend = some (o, some (res r)) ∧ g'.know = .nothing ∧
        R r g'.staged g'.tail)
      ({ g with pend := some (o, none), know := .nothing } : ProdAt α)) :
    (pairOutline cap α J).Safe .producer (during o body res)
      (fun r (g' : ProdAt α) => g'.pend = none ∧ g'.know = .nothing ∧ R r g'.staged g'.tail) g := by
  rw [during_eq, ho]
  refine performs_producer trivial fun c m queue hi r m' hs => ⟨_, queue, ?_, Outline.Safe.seq h ?_⟩
  · rw [show m' = _ from hs]
    exact hi.call_producer hp ho
  · rintro r g' ⟨hp', hk, hR⟩
    refine performs_producer trivial fun c m queue hi _ m' hs => ⟨{ g' with pend := none }, queue,
      ?_, rfl, hk, hR⟩
    rw [show m' = _ from hs]
    exact hi.ret_producer ho hp' hk

theorem safe_during_consumer {body : RingProg α (Option α)} {c : ConsAt α} (hp : c.pend = none)
    (h : ∀ c : ConsAt α, c.pend = some (.dequeue, none) → (pairOutline cap α J).Safe .consumer (lift body)
      (fun r (c' : ConsAt α) => c'.pend = some (.dequeue, some (tookRes r))) c) :
    (pairOutline cap α J).Safe .consumer (during .dequeue body tookRes)
      (fun _ (c' : ConsAt α) => c'.pend = none) c := by
  rw [during_eq]
  refine performs_consumer trivial fun g m queue hi r m' hs =>
    ⟨{ c with pend := some (.dequeue, none), know := .nothing }, queue, ?_, Outline.Safe.seq (h _ rfl) ?_⟩
  · rw [show m' = _ from hs]
    exact hi.call_consumer hp
  · intro r c' hp'
    refine performs_consumer trivial fun g m queue hi _ m' hs =>
      ⟨{ c' with pend := none, know := .nothing }, queue, ?_, rfl⟩
    rw [show m' = _ from hs]
    exact hi.ret_consumer hp'

/-! ### The queue functions -/

/-- What the producer learns from the head. -/
theorem PairInv.isFull_iff {g : ProdAt α} {c : ConsAt α} {m : PairMem α} {queue : List α}
    (hg : Ring.Good 32 cap)
    (h : PairInv cap g c m queue) :
    RingWord.isFull g.tail m.ring.head (BitVec.ofNat 32 cap) = true ↔
      queue.length + g.staged.length = cap := by
  have := RingWord.isFull_iff (m.ring.storeTail g.tail) (BitVec.ofNat 32 cap)
  rwa [capacity_toNat hg.toCounts, h.ring.size] at this

theorem PairInv.room_of_not_full {g : ProdAt α} {c : ConsAt α} {m : PairMem α} {queue : List α}
    (hg : Ring.Good 32 cap)
    (h : PairInv cap g c m queue) (hf : ¬RingWord.isFull g.tail m.ring.head (BitVec.ofNat 32 cap) = true) :
    queue.length + g.staged.length < cap := by
  have hfits := h.ring.fits
  rw [h.ring.size] at hfits
  rw [h.isFull_iff hg] at hf
  omega

theorem safe_serialEnqueue (hg : Ring.Good 32 cap) {a : α} {g : ProdAt α}
    (hp : g.pend = some (.enqueue a, none))
    (hst : g.staged = []) (hk : g.know = .nothing) :
    (pairOutline cap α J).Safe .producer (lift (serialEnqueue (BitVec.ofNat 32 cap) a))
      (fun r (g' : ProdAt α) => g'.pend = some (.enqueue a, some (statusRes r)) ∧
        g'.know = .nothing ∧ g'.staged = []) g := by
  refine performs_producer trivial fun c m queue hi tail m' hs => ⟨g, queue, ?_, ?_⟩
  · rw [← (pairStep_loadTail hs).2]
    exact hi
  have hring := hi.ring
  rw [hst] at hring
  obtain rfl : tail = g.tail := by
    rw [(pairStep_loadTail hs).1]
    exact hring.tail_eq.symm
  refine performs_producer trivial fun c m queue hi head m' hs => ?_
  obtain ⟨rfl, rfl⟩ := pairStep_loadHead hs
  change ∃ g' queue', _ ∧ (pairOutline cap α J).Safe .producer
    (lift (if RingWord.isFull g.tail m.ring.head (BitVec.ofNat 32 cap) = true then Prog.ret (-1)
      else _)) _ g'
  by_cases hf : RingWord.isFull g.tail m.ring.head (BitVec.ofNat 32 cap) = true
  · rw [if_pos hf]
    exact ⟨_, queue, hi.refuse_producer rfl hp hk (if_pos ((hi.isFull_iff hg).mp hf)), rfl, hk, hst⟩
  · rw [if_neg hf]
    refine ⟨_, queue, hi.room hk (hi.room_of_not_full hg hf), ?_⟩
    refine performs_producer ⟨rfl, index_eq hg.toCounts g.tail⟩ fun c m queue hi _ m' hs =>
      ⟨{ g with know := .wrote a }, queue, ?_, ?_⟩
    · rw [pairStep_store rfl hs, RingOp.exec, index_eq hg.toCounts]
      exact hi.write hg rfl a
    · refine performs_producer trivial fun c m queue hi _ m' hs => 
        ⟨⟨some (.enqueue a, some .done), [], g.tail + 1, .nothing⟩, queue ++ [a], ?_, rfl, rfl, rfl⟩
      rw [pairStep_store rfl hs]
      exact hi.publish_one hg hp rfl hst

theorem safe_serialEnqueueLocal (hg : Ring.Good 32 cap) {a : α} {g : ProdAt α}
    (hp : g.pend = some (.stage a, none))
    (hk : g.know = .nothing) :
    (pairOutline cap α J).Safe .producer (lift (serialEnqueueLocal (BitVec.ofNat 32 cap) g.tail a))
      (fun r (g' : ProdAt α) => g'.pend = some (.stage a, some (statusRes r.1)) ∧
        g'.know = .nothing ∧ r.2 = g'.tail) g := by
  refine performs_producer trivial fun c m queue hi head m' hs => ?_
  obtain ⟨rfl, rfl⟩ := pairStep_loadHead hs
  change ∃ g' queue', _ ∧ (pairOutline cap α J).Safe .producer
    (lift (if RingWord.isFull g.tail m.ring.head (BitVec.ofNat 32 cap) = true then
      Prog.ret (-1, g.tail) else _)) _ g'
  by_cases hf : RingWord.isFull g.tail m.ring.head (BitVec.ofNat 32 cap) = true
  · rw [if_pos hf]
    exact ⟨_, queue, hi.refuse_producer rfl hp hk (if_pos ((hi.isFull_iff hg).mp hf)), rfl, hk, rfl⟩
  · rw [if_neg hf]
    refine ⟨_, queue, hi.room hk (hi.room_of_not_full hg hf), ?_⟩
    refine performs_producer ⟨rfl, index_eq hg.toCounts g.tail⟩ fun c m queue hi _ m' hs =>
      ⟨⟨some (.stage a, some .done), g.staged ++ [a], g.tail + 1, .nothing⟩, queue, ?_, rfl, rfl, rfl⟩
    rw [pairStep_store rfl hs, RingOp.exec, index_eq hg.toCounts]
    exact hi.stage hg hp rfl

theorem safe_serialUpdateSharedTail {g : ProdAt α} (hp : g.pend = some (.publish, none)) :
    (pairOutline cap α J).Safe .producer (lift (serialUpdateSharedTail g.tail))
      (fun _ (g' : ProdAt α) => g'.pend = some (.publish, some .done) ∧ g'.know = .nothing ∧
        g'.staged = []) g := by
  refine performs_producer trivial fun c m queue hi _ m' hs =>
    ⟨⟨some (.publish, some .done), [], g.tail, .nothing⟩, queue ++ g.staged, ?_, rfl, rfl, rfl⟩
  rw [pairStep_store rfl hs]
  exact hi.publish hp

theorem safe_serialDequeue (hg : Ring.Good 32 cap) {c : ConsAt α} (hp : c.pend = some (.dequeue, none)) :
    (pairOutline cap α J).Safe .consumer (lift (serialDequeue (BitVec.ofNat 32 cap)))
      (fun r (c' : ConsAt α) => c'.pend = some (.dequeue, some (tookRes r))) c := by
  refine performs_consumer trivial fun g m queue hi head m' hs => ⟨c, queue, ?_, ?_⟩
  · rw [← (pairStep_loadHead hs).2]
    exact hi
  obtain rfl : head = c.head := by
    rw [(pairStep_loadHead hs).1, hi.head]
  refine performs_consumer trivial fun g m queue hi tail m' hs => ?_
  obtain ⟨rfl, rfl⟩ := pairStep_loadTail hs
  change ∃ c' queue', _ ∧ (pairOutline cap α J).Safe .consumer
    (lift (if RingWord.isEmpty m.ring.tail c.head = true then Prog.ret none else _)) _ c'
  have hempty := RingWord.isEmpty_iff m.ring
  rw [hi.head, hi.ring.length, List.length_eq_zero_iff] at hempty
  by_cases he : RingWord.isEmpty m.ring.tail c.head = true
  · rw [if_pos he]
    obtain rfl := hempty.mp he
    exact ⟨_, [], hi.refuse_consumer hp, rfl⟩
  · rw [if_neg he]
    refine ⟨_, queue, hi.learn (k := .item) fun h => he (hempty.mpr h), ?_⟩
    refine performs_consumer trivial fun g m queue hi a m' hs => ?_
    obtain ⟨rfl, rfl⟩ := pairStep_read hs
    rw [index_eq hg.toCounts]
    have hne : queue ≠ [] := hi.cons
    obtain ⟨a, rest, rfl⟩ := List.exists_cons_of_ne_nil hne
    have ha := (hi.ring.take hg).1
    rw [hi.head] at ha
    refine ⟨_, _, hi.learn (k := .got a) rfl, ?_⟩
    rw [show m.ring.slot (BitVec.toNat c.head % cap) = a from ha]
    refine performs_consumer trivial fun g m queue hi _ m' hs => ?_
    have hhead : queue.head? = some a := hi.cons
    obtain ⟨rest, rfl⟩ : ∃ rest, queue = a :: rest := List.head?_eq_some_iff.mp hhead
    refine ⟨⟨some (.dequeue, some (.took a)), c.head + 1, .nothing⟩, rest, ?_, rfl⟩
    rw [pairStep_store rfl hs]
    exact hi.take hg hp

/-! ### The programs of the parties -/

/-- The producer between two calls, with nothing put aside. -/
def ProdAt.idle (g : ProdAt α) : Prop := g.pend = none ∧ g.know = .nothing ∧ g.staged = []

theorem safe_nextJob {Q : J → ProdAt α → Prop} {g : ProdAt α} (h : ∀ j, Q j g) :
    (pairOutline cap α J).Safe .producer nextJob Q g :=
  performs_producer trivial fun _ _ queue hi r m' hs => ⟨g, queue,
    by rw [show m' = _ from hs]; exact hi, h r⟩

theorem safe_enqueue (hg : Ring.Good 32 cap) (a : α) {g : ProdAt α} (h : g.idle) :
    (pairOutline cap α J).Safe .producer (during (.enqueue a)
      (serialEnqueue (BitVec.ofNat 32 cap) a) statusRes)
      (fun _ (g' : ProdAt α) => g'.idle) g := by
  obtain ⟨hp, -, hst⟩ := h
  exact safe_during_producer (R := fun _ staged _ => staged = []) rfl hp (safe_serialEnqueue hg rfl hst rfl)

theorem safe_producer (hg : Ring.Good 32 cap) {enqueue : J → RingProg α Int} {value : J → α}
    (he : ∀ j, enqueue j = serialEnqueue (BitVec.ofNat 32 cap) (value j)) {g : ProdAt α} (h : g.idle) :
    (pairOutline cap α J).Safe .producer (producer enqueue value) (fun _ _ => True) g := by
  refine Outline.Safe.forever (fun g : ProdAt α => g.idle) h (fun _ _ => trivial) fun g h => ?_
  refine Outline.Safe.seq (R := fun _ (g : ProdAt α) => g.idle) (safe_nextJob fun _ => h) fun j g h => ?_
  rw [he]
  exact (safe_enqueue hg (value j) h).seq fun _ _ h => h

theorem safe_consumer (hg : Ring.Good 32 cap) {c : ConsAt α} (h : c.pend = none) :
    (pairOutline cap α J).Safe .consumer (consumer (serialDequeue (BitVec.ofNat 32 cap)))
      (fun _ _ => True) c := by
  refine Outline.Safe.forever (fun c : ConsAt α => c.pend = none) h (fun _ _ => trivial) fun c h => ?_
  exact (safe_during_consumer h fun c hp => safe_serialDequeue hg hp).seq fun _ _ h => h

/-- One byte of a batch keeps the tail of the batch the producer's own. -/
theorem safe_batchByte (hg : Ring.Good 32 cap) (a : α) {g : ProdAt α} (hp : g.pend = none) :
    (pairOutline cap α (SerialJob α)).Safe .producer (batchByte (BitVec.ofNat 32 cap) g.tail a)
      (fun tail (g' : ProdAt α) => g'.pend = none ∧ g'.know = .nothing ∧ tail = g'.tail) g :=
  Outline.Safe.seq (R := fun (r : Int × BitVec 32) (g' : ProdAt α) => g'.pend = none ∧ g'.know =
    .nothing ∧ r.2 = g'.tail)
    (safe_during_producer (R := fun (r : Int × BitVec 32) _ tail => r.2 = tail) rfl hp
      (safe_serialEnqueueLocal (g := ⟨some (.stage a, none), g.staged, g.tail, .nothing⟩) hg rfl rfl))
    fun _ _ h => h

theorem safe_batch (hg : Ring.Good 32 cap) (characters : List α) {g : ProdAt α}
    (h : g.pend = none ∧ g.know = .nothing) :
    (pairOutline cap α (SerialJob α)).Safe .producer
      (Prog.fold characters g.tail (batchByte (BitVec.ofNat 32 cap)))
      (fun tail (g' : ProdAt α) => g'.pend = none ∧ g'.know = .nothing ∧ tail = g'.tail) g := by
  refine Outline.Safe.fold (O := pairOutline cap α (SerialJob α)) (t := .producer)
    (fun _ tail (g : ProdAt α) => g.pend = none ∧ g.know = .nothing ∧ tail = g.tail) ?_
    (fun _ _ h => h) ⟨h.1, h.2, rfl⟩
  rintro a _ _ g ⟨hp, -, rfl⟩
  exact safe_batchByte hg a hp

/-- With nothing put aside the shared tail is the producer's own. -/
theorem safe_loadTail {g : ProdAt α} (h : g.idle) :
    (pairOutline cap α J).Safe .producer (lift loadTail) (fun tail (g' : ProdAt α) => g'.idle ∧
      tail = g'.tail) g := by
  refine performs_producer trivial fun c m queue hi tail m' hs => ?_
  obtain ⟨rfl, rfl⟩ := pairStep_loadTail hs
  have hring := hi.ring
  rw [h.2.2] at hring
  exact ⟨g, queue, hi, h, hring.tail_eq.symm⟩

theorem safe_publish {g : ProdAt α} (hp : g.pend = none) :
    (pairOutline cap α J).Safe .producer (during .publish (serialUpdateSharedTail g.tail) fun _ => .done)
      (fun _ (g' : ProdAt α) => g'.idle) g :=
  safe_during_producer (R := fun _ staged _ => staged = []) rfl hp
    (safe_serialUpdateSharedTail (g := ⟨some (.publish, none), g.staged, g.tail, .nothing⟩) rfl)

theorem safe_serialProducer (hg : Ring.Good 32 cap) {g : ProdAt α} (h : g.idle) :
    (pairOutline cap α (SerialJob α)).Safe .producer (serialProducer (BitVec.ofNat 32 cap))
      (fun _ _ => True) g := by
  refine Outline.Safe.forever (fun g : ProdAt α => g.idle) h (fun _ _ => trivial) fun g h => ?_
  refine Outline.Safe.seq (R := fun _ (g : ProdAt α) => g.idle) (safe_nextJob fun _ => h) fun j g h => ?_
  cases j with
  | enqueue a => exact (safe_enqueue hg a h).seq fun _ _ h => h
  | batch characters =>
    refine (safe_loadTail h).seq ?_
    rintro _ g ⟨h, rfl⟩
    refine (safe_batch hg characters ⟨h.1, h.2.1⟩).seq ?_
    rintro _ g ⟨hp, -, rfl⟩
    exact safe_publish hp

end outline

/-! ### The rings refine a bounded queue -/

section refine

variable {α J : Type} {cap : Nat}

/-- A ring with zeroed cursors, and nothing recorded. -/
def zeroed (slot : Nat → α) : PairMem α := ⟨⟨0, 0, slot⟩, []⟩

def parties (p c : PairProg α J Empty) : Role → PairProg α J Empty
  | .producer => p
  | .consumer => c

/-- A state of the two parties, seen as a bounded queue of size `cap`. -/
structure AsFifo (cap : Nat) (s : State Role (pairSig α J) (PairMem α)) (f : Fifo α)
    (pend : Role → Fifo.Pending α) : Prop where
  run : Fifo.Run cap (history s.mem.log) f pend
  size : f.size ≤ cap
  shown : s.mem.ring.contents cap = f.queue
  order : Fifo.accepted (history s.mem.log) ++ Fifo.accepting (pend .producer) =
    Fifo.delivered (history s.mem.log) ++ Fifo.taking (pend .consumer) ++ f.queue ++ f.staged
  unread : ∀ t i a k, s.prog t = .act (.mem (.write i a)) k → ∀ j < f.size,
    Ring.slotAt cap s.mem.ring.head j ≠ i
  quiet : Quiet s.mem.log

/-- Every run of the two parties from a zeroed ring is one of a bounded queue. -/
def Refines (cap : Nat) (p c : PairProg α J Empty) : Prop :=
  ∀ slot s, Reach pairStep (fun _ _ => True) ⟨parties p c, zeroed slot⟩ s → ∃ f pend, AsFifo cap s f pend

theorem pairInv_zeroed (cap : Nat) (slot : Nat → α) :
    PairInv cap ⟨none, [], 0, .nothing⟩ ⟨none, 0, .nothing⟩ (zeroed slot) [] where
  run := by
    have : pendOf (α := α) none none = fun _ => none := by
      funext r
      cases r <;> rfl
    rw [this]
    exact .init
  ring := ⟨by
    simp [zeroed, Ring.len], by simp [zeroed, Ring.len], by simp [zeroed, Ring.contents, Ring.len],
    by simp [zeroed, Ring.contents, Ring.len]⟩
  head := rfl
  prod := trivial
  cons := trivial
  quiet := by
    intro before p o after h
    exact absurd h.symm (by simp [zeroed])
  cleanProd := nofun
  cleanCons := nofun

theorem AsFifo.of_holds (hg : Ring.Good 32 cap) {s : State Role (pairSig α J) (PairMem α)}
    (h : (pairOutline cap α J).Holds s) : ∃ f pend, AsFifo cap s f pend := by
  obtain ⟨G, ⟨queue, hi⟩, hc⟩ := h
  refine ⟨⟨queue, ProdAt.staged (G .producer)⟩, _, hi.run, hi.run.size_le, hi.ring.shown,
    hi.run.conserve.1, ?_, hi.quiet⟩
  intro t i a k hp j hj
  have hok : pairOk cap t (G t) _ := hc.ok hp
  cases t with
  | producer =>
    obtain ⟨hk, rfl⟩ := hok
    have hroom := hi.prod
    rw [hk] at hroom
    exact hi.ring.slot_ne hg hroom hj
  | consumer => exact hok.elim

theorem refines_of_safe (hg : Ring.Good 32 cap) {p c : PairProg α J Empty}
    (hp : ∀ g : ProdAt α, g.idle → (pairOutline cap α J).Safe .producer p (fun _ _ => True) g)
    (hc : ∀ g : ConsAt α, g.pend = none → (pairOutline cap α J).Safe .consumer c
      (fun _ _ => True) g) : Refines cap p c := by
  intro slot s hs
  refine AsFifo.of_holds hg (Outline.holds_of_reach (O := pairOutline cap α J) ?_
    (fun _ _ _ _ _ _ _ _ => trivial) hs)
  refine ⟨fun
    | .producer => (⟨none, [], 0, .nothing⟩ : ProdAt α)
    | .consumer => (⟨none, 0, .nothing⟩ : ConsAt α), ⟨[], pairInv_zeroed cap slot⟩, fun t => ?_⟩
  cases t with
  | producer => exact hp _ ⟨rfl, rfl, rfl⟩
  | consumer => exact hc _ rfl

/-- A producer of records. -/
theorem refines_records (hg : Ring.Good 32 cap) {enqueue : J → RingProg α Int} {value : J → α}
    (he : ∀ j, enqueue j = serialEnqueue (BitVec.ofNat 32 cap) (value j)) :
    Refines cap (producer enqueue value) (consumer (serialDequeue (BitVec.ofNat 32 cap))) :=
  refines_of_safe hg (fun _ h => safe_producer hg he h) fun _ h => safe_consumer hg h

theorem good_pow {k : Nat} (h : k ≤ 31) : Ring.Good 32 (2 ^ k) where
  pos := Nat.two_pow_pos k
  lt := Nat.pow_lt_pow_right (by omega) (by omega)
  dvd := Nat.pow_dvd_pow 2 (by omega)

/-- The capacity `2 ^ k` as the functions get it. -/
def capacityOf (k : Nat) : BitVec 32 := BitVec.ofNat 32 (2 ^ k)

/-- The serial, block and graphics rings are bounded queues, for every power-of-two capacity. -/
theorem rings_refine (k : Nat) (hk : k ≤ 31) :
    Refines (2 ^ k) (serialProducer (α := BitVec 8) (capacityOf k))
      (consumer (serialDequeue (capacityOf k))) ∧
      Refines (2 ^ k) (producer (fun r : BlkReq => blkEnqueueReq
        (capacityOf k) r.code r.ioOrOffset r.blockNumber r.count r.id) id)
        (consumer (blkDequeueReq (capacityOf k))) ∧
      Refines (2 ^ k) (producer (fun r : BlkResp => blkEnqueueResp
        (capacityOf k) r.status r.successCount r.id) id)
        (consumer (blkDequeueResp (capacityOf k))) ∧
      Refines (2 ^ k) (producer (gpuEnqueueReq (capacityOf k)) id)
        (consumer (gpuDequeueReq (capacityOf k))) ∧
      Refines (2 ^ k) (producer (gpuEnqueueResp (capacityOf k)) id)
        (consumer (gpuDequeueResp (capacityOf k))) := by
  have hg := good_pow hk
  refine ⟨?_, ?_, ?_, ?_, ?_⟩
  · exact refines_of_safe hg (fun _ h => safe_serialProducer hg h) fun _ h => safe_consumer hg h
  · exact refines_records hg fun _ => rfl
  · exact refines_records hg fun _ => rfl
  · exact refines_records hg fun _ => rfl
  · exact refines_records hg fun _ => rfl

theorem rings_refine_sixteen :
    Refines 16 (serialProducer (α := BitVec 8) 16) (consumer (serialDequeue 16)) ∧
      Refines 16 (producer (fun r : BlkReq =>
        blkEnqueueReq 16 r.code r.ioOrOffset r.blockNumber r.count r.id) id)
        (consumer (blkDequeueReq 16)) ∧
      Refines 16 (producer (fun r : BlkResp => blkEnqueueResp 16 r.status r.successCount r.id) id)
        (consumer (blkDequeueResp 16)) ∧
      Refines 16 (producer (gpuEnqueueReq 16) id) (consumer (gpuDequeueReq 16)) ∧
      Refines 16 (producer (gpuEnqueueResp 16) id) (consumer (gpuDequeueResp 16)) :=
  rings_refine 4 (by decide)

end refine

end Lerux.RingHistory
