import Lerux.Sddf.SerialQueue

/-!
# The serial transmit path

Clients queue bytes, the transmit virtualiser (`sddf-serial-virt-tx`) moves them to the driver's queue,
and the driver (`sddf-serial-driver`) writes them to the UART. Each protection domain is a thread of a
`System`: its programs follow the source statement by statement, a queue call is made of its loads and
stores, and every other access to shared memory is one event.

A byte carries the client it came from. The code never looks at either part.
-/

namespace Lerux.Serial

open Lerux.Base Lerux.SerialQueue

/-- The protection domains. -/
inductive Pd (n : Nat)
  | client (c : Fin n)
  | virt
  | driver
  deriving DecidableEq

/-- The transmit queues: one for each client, and the driver's. -/
inductive Queue (n : Nat)
  | client (c : Fin n)
  | driver
  deriving DecidableEq

structure TxByte where
  owner : Nat
  byte : BitVec 8
  deriving DecidableEq

/-- The `ChannelSet` the virtualiser is started with. -/
structure Channels (n : Nat) where
  driver : Bool
  client : Fin n → Bool

/-- The assertions of the transmit path, and its checked subtraction. -/
inductive Assert
  | clientByte
  | driverSpace
  | queueFree
  | uartWrite
  deriving DecidableEq

/-- What a run records beside the queue moves. -/
inductive Note (n : Nat)
  | uart (x : TxByte)
  | counted (client : Fin n) (length : Nat)
  | finished (client : Fin n) (moved : Bool)
  deriving DecidableEq

/-- What a client of which nothing is known does next. -/
inductive Deed
  | enqueue (byte : BitVec 8)
  | requestConsumerSignal
  | notify

inductive Ev (n : Nat)
  | requestConsumerSignal (q : Queue n)
  | cancelConsumerSignal (q : Queue n)
  | requireConsumerSignal (q : Queue n)
  | notify (peer : Pd n)
  | notified
  | drained
  | waitOnChannel
  | pending (client : Fin n)
  | setPending (client : Fin n) (value : Bool)
  | uartWrite (x : TxByte)
  | bytes
  | deed
  | note (m : Note n)
  | fail (a : Assert)
  deriving DecidableEq

namespace Ev

def Res {n : Nat} : Ev n → Type
  | requestConsumerSignal _ => Unit
  | cancelConsumerSignal _ => Unit
  | requireConsumerSignal _ => Bool
  | notify _ => Unit
  | notified => Channels n
  | drained => Unit
  | waitOnChannel => Unit
  | pending _ => Bool
  | setPending _ _ => Unit
  | uartWrite _ => Bool
  | bytes => List (BitVec 8)
  | deed => Deed
  | note _ => Unit
  | fail _ => Empty

end Ev

def evSig (n : Nat) : Sig := ⟨Ev n, Ev.Res⟩

/-- The memory outside the rings: `producer_signalled` of each queue, the virtualiser's `pending` array,
the notifications not yet delivered, and the channel semaphore of each client. -/
structure Env (n : Nat) where
  producerSignalled : Queue n → BitVec 32
  pending : Fin n → Bool
  virtDriver : Bool
  virtClient : Fin n → Bool
  driverTx : Bool
  semaphore : Fin n → Bool

def Env.zeroed (n : Nat) : Env n := ⟨fun _ => 0, fun _ => false, false, fun _ => false, false,
    fun _ => false⟩

/-- A notification the virtualiser has not taken. -/
def Env.undelivered {n : Nat} (s : Env n) : Bool := s.virtDriver || (List.finRange n).any s.virtClient

inductive Choice (n : Nat)
  | none
  | channels (cs : Channels n)
  | bytes (bs : List (BitVec 8))
  | deed (d : Deed)
  | accepted (ok : Bool)

/-- One event. With `spurious` the virtualiser may be started with any set of channels; otherwise it gets
the ones that were notified. The driver may start to drain at any time. -/
def exec {n : Nat} (spurious : Bool) (t : Pd n) (s : Env n) : (o : Ev n) → Choice n → Option (o.Res × Env n)
  | .requestConsumerSignal q, _ => some ((),
    { s with producerSignalled := Function.update s.producerSignalled q 0 })
  | .cancelConsumerSignal q, _ => some ((),
    { s with producerSignalled := Function.update s.producerSignalled q 1 })
  | .requireConsumerSignal q, _ => some (s.producerSignalled q == 0, s)
  | .notify peer, _ =>
    match t, peer with
    | .client c, .virt => some ((), { s with virtClient := Function.update s.virtClient c true })
    | .driver, .virt => some ((), { s with virtDriver := true })
    | .virt, .driver => some ((), { s with driverTx := true })
    | .virt, .client c => some ((), { s with semaphore := Function.update s.semaphore c true })
    | _, _ => none
  | .notified, ch =>
    if spurious then
      match ch with
      | .channels cs => some (cs, s)
      | _ => none
    else if s.undelivered then
      some (⟨s.virtDriver, s.virtClient⟩, { s with virtDriver := false, virtClient := fun _ => false })
    else none
  | .drained, _ => some ((), { s with driverTx := false })
  | .waitOnChannel, _ =>
    match t with
    | .client c => if s.semaphore c then some ((),
      { s with semaphore := Function.update s.semaphore c false }) else none
    | _ => none
  | .pending c, _ => some (s.pending c, s)
  | .setPending c value, _ => some ((), { s with pending := Function.update s.pending c value })
  | .uartWrite _, .accepted ok => some (ok, s)
  | .uartWrite _, _ => none
  | .bytes, .bytes bs => some (bs, s)
  | .bytes, _ => none
  | .deed, .deed d => some (d, s)
  | .deed, _ => none
  | .note _, _ => some ((), s)
  | .fail _, _ => none

/-- What an event leaves in the record: a byte the UART took, or a note. -/
def noteOf {n : Nat} : (o : Ev n) → o.Res → Option (Note n)
  | .uartWrite x, ok => cond ok (some (.uart x)) none
  | .note m, _ => some m
  | _, _ => none

abbrev TxProg (n : Nat) := Prog (callSig (evSig n) (serialLib (TxByte)) (Queue n))

section programs

variable {n : Nat} {α : Type}

def ev (o : Ev n) : TxProg n o.Res := Prog.op (S := callSig (evSig n) (serialLib (TxByte))
    (Queue n)) (.ev o)

def call (q : Queue n) (f : Fn (TxByte)) : TxProg n f.Res :=
  Prog.op (S := callSig (evSig n) (serialLib (TxByte)) (Queue n)) (.call q f)

/-- A failed assertion stops the thread. -/
def fail (a : Assert) : TxProg n α := (ev (.fail a)).bind Empty.elim

def serialRequestConsumerSignal (q : Queue n) : TxProg n Unit := ev (.requestConsumerSignal q)
def serialCancelConsumerSignal (q : Queue n) : TxProg n Unit := ev (.cancelConsumerSignal q)
def serialRequireConsumerSignal (q : Queue n) : TxProg n Bool := ev (.requireConsumerSignal q)
def notify (peer : Pd n) : TxProg n Unit := ev (.notify peer)
def waitOnChannel : TxProg n Unit := ev .waitOnChannel
def getPending (client : Fin n) : TxProg n Bool := ev (.pending client)
def setPending (client : Fin n) (value : Bool) : TxProg n Unit := ev (.setPending client value)
def uartWrite (x : TxByte) : TxProg n Bool := ev (.uartWrite x)
def note (m : Note n) : TxProg n Unit := ev (.note m)

def lengthProducer (q : Queue n) : TxProg n (BitVec 32) := call q .lengthProducer
def lengthConsumer (q : Queue n) : TxProg n (BitVec 32) := call q .lengthConsumer
def enqueue (q : Queue n) (x : TxByte) : TxProg n Int := call q (.enqueue x)
def dequeue (q : Queue n) : TxProg n (Option TxByte) := call q .dequeue

/-- `serial_queue_free`. The subtraction is checked. -/
def serialQueueFree (capacity : BitVec 32) (q : Queue n) : TxProg n (BitVec 32) := do
  let length ← lengthProducer q
  if capacity < length then fail .queueFree else return capacity - length

/-- One byte of `move_client`'s loop. -/
def moveByte (client : Fin n) : TxProg n Unit := do
  match ← dequeue (.client client) with
  | none => fail .clientByte
  | some byte =>
    let put ← enqueue .driver byte
    if put = 0 then return () else fail .driverSpace

/-- The rest of `move_client` once the length is found positive. `capacity` is the driver queue's. -/
def moveLength (capacity : BitVec 32) (client : Fin n) (length : BitVec 32) : TxProg n Bool := do
  let free ← serialQueueFree capacity .driver
  Prog.when (free < length) (serialRequestConsumerSignal .driver)
  let free ← serialQueueFree capacity .driver
  if free < length then
    setPending client true
    return false
  else
    Prog.each (List.range length.toNat) fun _ => moveByte client
    return true

def moveCounted (capacity : BitVec 32) (client : Fin n) (length : BitVec 32) : TxProg n Bool :=
  if length = 0 then return false else moveLength capacity client length

/-- `move_client`. The two notes record what was counted and what was returned. -/
def moveClient (capacity : BitVec 32) (client : Fin n) : TxProg n Bool := do
  let length ← lengthConsumer (.client client)
  note (.counted client length.toNat)
  let moved ← moveCounted capacity client length
  note (.finished client moved)
  return moved

/-- `wake_client`. -/
def wakeClient (client : Fin n) : TxProg n Unit := do
  let required ← serialRequireConsumerSignal (.client client)
  Prog.when (required = true) do
    serialCancelConsumerSignal (.client client)
    notify (.client client)

/-- `provide`. -/
def provide (capacity : BitVec 32) (client : Fin n) : TxProg n Unit := do
  let moved ← moveClient capacity client
  Prog.when (moved = true) do
    notify .driver
    wakeClient client

/-- One client of `resume_pending`'s first loop. The accumulator is `moved`, `moved_any`. -/
def resumeClient (capacity : BitVec 32) (acc : (Fin n → Bool) × Bool) (client : Fin n) :
    TxProg n ((Fin n → Bool) × Bool) := do
  let pending ← getPending client
  if pending = true then
    setPending client false
    let moved ← moveClient capacity client
    return if moved then (Function.update acc.1 client true, true) else acc
  else return acc

/-- `resume_pending`. -/
def resumePending (capacity : BitVec 32) : TxProg n Unit := do
  let acc ← Prog.fold (List.finRange n) (fun _ => false, false) (resumeClient capacity)
  Prog.when (acc.2 = true) (notify .driver)
  Prog.each (List.finRange n) fun client => Prog.when (acc.1 client = true) (wakeClient client)

/-- The virtualiser's `notified`. -/
def virtNotified (capacity : BitVec 32) (channels : Channels n) : TxProg n Unit := do
  Prog.when (channels.driver = true) (resumePending capacity)
  Prog.each (List.finRange n) fun client => Prog.when (channels.client client = true)
    (provide capacity client)

/-- The driver's `drain_tx`. -/
def drainTx : TxProg n Unit := do
  let transferred ← Prog.iterate false fun transferred => do
    match ← dequeue .driver with
    | none => return .inr transferred
    | some byte =>
      let accepted ← uartWrite byte
      if accepted = true then return .inl true else fail .uartWrite
  Prog.when (transferred = true) do
    let required ← serialRequireConsumerSignal .driver
    Prog.when (required = true) do
      serialCancelConsumerSignal .driver
      notify .virt

/-- A client's `emit`. -/
def emit (c : Fin n) (bytes : List (BitVec 8)) : TxProg n Unit := do
  Prog.each bytes fun byte =>
    Prog.iterate () fun _ => do
      let status ← enqueue (.client c) ⟨c.val, byte⟩
      if status = 0 then return .inr ()
      else
        serialRequestConsumerSignal (.client c)
        notify .virt
        waitOnChannel
        return .inl ()
  notify .virt

/-! ### The threads -/

/-- The virtualiser's event loop. -/
def virtLoop (capacity : BitVec 32) : TxProg n Empty :=
  Prog.forever do
    let channels ← ev .notified
    virtNotified capacity channels

/-- The driver's event loop. -/
def driverLoop : TxProg n Empty :=
  Prog.forever do
    ev .drained
    drainTx

/-- A client that emits byte strings, one after the other. -/
def emitLoop (c : Fin n) : TxProg n Empty :=
  Prog.forever do
    let bytes ← ev .bytes
    emit c bytes

/-- A client of which nothing is known. -/
def anyClient (c : Fin n) : TxProg n Empty :=
  Prog.forever do
    match ← ev .deed with
    | .enqueue byte =>
      let _ ← enqueue (.client c) ⟨c.val, byte⟩
      return ()
    | .requestConsumerSignal => serialRequestConsumerSignal (.client c)
    | .notify => notify .virt

/-- The transmit path of `n` clients. -/
def txSystem (n : Nat) (cap : Queue n → Nat) (spurious : Bool) :
    System (Pd n) (Queue n) (evSig n) (serialLib (TxByte)) where
  Env := Env n
  Choice := Choice n
  Note := Note n
  cap := cap
  exec := exec spurious
  note := noteOf

/-- What each domain runs, with `client` for the clients. -/
def programs (cap : Queue n → Nat) (client : Fin n → TxProg n Empty) : Pd n → TxProg n Empty
  | .client c => client c
  | .virt => virtLoop (BitVec.ofNat 32 (cap .driver))
  | .driver => driverLoop

/-- The system over zeroed memory. -/
def boot (cap : Queue n → Nat) (spurious : Bool) (client : Fin n → TxProg n Empty) :
    (txSystem n cap spurious).Conf where
  thread t := .run (programs cap client t)
  ring _ := ⟨0, 0, fun _ => ⟨0, 0⟩⟩
  env := Env.zeroed n
  log := []

/-- Thread `t` is about to perform the event `o`. -/
abbrev At {cap : Queue n → Nat} {spurious : Bool} (s : (txSystem n cap spurious).Conf) (t : Pd n)
    (o : Ev n) : Prop :=
  (txSystem n cap spurious).At s t o

instance {cap : Queue n → Nat} {spurious : Bool} (s : (txSystem n cap spurious).Conf) (t : Pd n)
    (o : Ev n) :
    Decidable (At s t o) :=
  (inferInstance : DecidableEq (Option (Ev n))) (System.nextEvent (s.thread t)) (some o)

/-! ### One producer and one consumer for every ring -/

/-- The calls each domain makes. -/
def Calls : Pd n → CallOp (evSig n) (serialLib TxByte) (Queue n) → Prop
  | _, .ev _ => True
  | .client c, .call q f => q = .client c ∧ ∃ x, f = .enqueue x
  | .virt, .call (.client _) f => f = .dequeue ∨ f = .lengthConsumer
  | .virt, .call .driver f => f = .lengthProducer ∨ ∃ x, f = .enqueue x
  | .driver, .call q f => q = .driver ∧ f = .dequeue

@[simp] theorem all_ev {t : Pd n} (o : Ev n) : (ev o).All (Calls t) :=
  ⟨by cases t <;> trivial, fun _ => trivial⟩

@[simp] theorem all_fail {t : Pd n} (a : Assert) : (fail a : TxProg n α).All (Calls t) :=
  (all_ev (.fail a)).bind fun e => e.elim

theorem all_serialQueueFree (capacity : BitVec 32) :
    (serialQueueFree (n := n) capacity .driver).All (Calls .virt) := by
  refine ⟨.inl rfl, fun length => ?_⟩
  exact Prog.All.ite (all_fail _) trivial

theorem all_moveByte (client : Fin n) : (moveByte client).All (Calls .virt) := by
  refine ⟨.inl rfl, fun got => ?_⟩
  cases got with
  | none => exact all_fail _
  | some byte => exact ⟨.inr ⟨byte, rfl⟩, fun put => Prog.All.ite trivial (all_fail _)⟩

theorem all_moveLength (capacity : BitVec 32) (client : Fin n) (length : BitVec 32) :
    (moveLength capacity client length).All (Calls .virt) := by
  refine (all_serialQueueFree capacity).bind fun _ => Prog.All.bind (Prog.All.when (all_ev _)) fun _ => ?_
  refine (all_serialQueueFree capacity).bind fun _ => Prog.All.ite ((all_ev _).bind fun _ => trivial) ?_
  exact (Prog.All.each fun _ => all_moveByte client).bind fun _ => trivial

theorem all_moveClient (capacity : BitVec 32) (client : Fin n) :
    (moveClient capacity client).All (Calls .virt) := by
  refine ⟨.inr rfl, fun length => (all_ev _).bind fun _ => ?_⟩
  refine Prog.All.bind (Prog.All.ite (Prog.all_ret _) (all_moveLength capacity client length)) fun _ => ?_
  exact (all_ev _).bind fun _ => trivial

theorem all_wakeClient (client : Fin n) : (wakeClient client).All (Calls .virt) :=
  (all_ev _).bind fun _ => Prog.All.when ((all_ev _).bind fun _ => all_ev _)

theorem all_virtLoop (capacity : BitVec 32) : (virtLoop (n := n) capacity).All (Calls .virt) := by
  refine Prog.All.forever ((all_ev _).bind fun channels => ?_)
  refine Prog.All.bind (Prog.All.when ?_) fun _ => Prog.All.each fun client => Prog.All.when ?_
  · refine Prog.All.bind (Prog.All.fold fun acc client => ?_) fun acc => ?_
    · refine (all_ev _).bind fun _ => Prog.All.ite ((all_ev _).bind fun _ => ?_) trivial
      exact (all_moveClient capacity client).bind fun _ => trivial
    · refine Prog.All.bind (Prog.All.when (all_ev _)) fun _ => Prog.All.each fun client => ?_
      exact Prog.All.when (all_wakeClient client)
  · refine (all_moveClient capacity client).bind fun _ => Prog.All.when ?_
    exact (all_ev _).bind fun _ => all_wakeClient client

theorem all_driverLoop : (driverLoop (n := n)).All (Calls .driver) := by
  refine Prog.All.forever ((all_ev _).bind fun _ => Prog.All.bind (Prog.All.iterate fun _ => ?_)
    fun _ => ?_)
  · refine ⟨⟨rfl, rfl⟩, fun got => ?_⟩
    cases got with
    | none => trivial
    | some byte => exact (all_ev _).bind fun _ => Prog.All.ite trivial (all_fail _)
  · exact Prog.All.when ((all_ev _).bind fun _ => Prog.All.when ((all_ev _).bind fun _ => all_ev _))

theorem all_emitLoop (c : Fin n) : (emitLoop c).All (Calls (.client c)) := by
  refine Prog.All.forever ((all_ev _).bind fun bytes => Prog.All.bind (Prog.All.each fun byte => ?_)
    fun _ => all_ev _)
  refine Prog.All.iterate fun _ => ⟨⟨rfl, _, rfl⟩, fun _ => Prog.All.ite trivial ?_⟩
  exact (all_ev _).bind fun _ => (all_ev _).bind fun _ => (all_ev _).bind fun _ => trivial

theorem all_anyClient (c : Fin n) : (anyClient c).All (Calls (.client c)) := by
  refine Prog.All.forever ((all_ev _).bind fun deed => ?_)
  cases deed with
  | enqueue byte => exact ⟨⟨rfl, _, rfl⟩, fun _ => trivial⟩
  | requestConsumerSignal => exact all_ev _
  | notify => exact all_ev _

/-- The role of a caller on a ring names the caller. -/
theorem calls_unique (q : Queue n) (f f' : Fn TxByte) (t t' : Pd n)
    (hf : (serialLib TxByte).role f = (serialLib TxByte).role f') (h : Calls t (.call q f))
    (h' : Calls t' (.call q f')) : t = t' := by
  cases t with
  | client c =>
    obtain ⟨rfl, x, rfl⟩ := h
    cases t' with
    | client c' =>
      obtain ⟨hq, _⟩ := h'
      injection hq with hq
      rw [hq]
    | virt => rcases h' with rfl | rfl <;> exact nomatch hf
    | driver => exact nomatch h'.1
  | virt =>
    cases q with
    | client c =>
      cases t' with
      | client c' =>
        obtain ⟨_, x, rfl⟩ := h'
        rcases h with rfl | rfl <;> exact nomatch hf
      | virt => rfl
      | driver => exact nomatch h'.1
    | driver =>
      cases t' with
      | client c' => exact nomatch h'.1
      | virt => rfl
      | driver =>
        obtain ⟨_, rfl⟩ := h'
        rcases h with rfl | ⟨x, rfl⟩ <;> exact nomatch hf
  | driver =>
    obtain ⟨rfl, rfl⟩ := h
    cases t' with
    | client c' => exact nomatch h'.1
    | virt => rcases h' with rfl | ⟨x, rfl⟩ <;> exact nomatch hf
    | driver => rfl

/-- A domain only ever makes its own calls, when the clients only enqueue on their own ring. -/
theorem uses {cap : Queue n → Nat} {spurious : Bool} {client : Fin n → TxProg n Empty}
    (hc : ∀ c, (client c).All (Calls (.client c))) {may : (txSystem n cap spurious).Conf → Pd n → Prop}
    {s : (txSystem n cap spurious).Conf}
    (h : System.Reaches (txSystem n cap spurious) may (boot cap spurious client) s) (t : Pd n) :
    System.ThreadUses (Calls t) (s.thread t) := by
  refine System.uses_of_reaches (fun t => ?_) h t
  cases t with
  | client c => exact hc c
  | virt => exact all_virtLoop _
  | driver => exact all_driverLoop

/-- So the rings are used by one producer and one consumer. -/
theorem exclusive {cap : Queue n → Nat} {spurious : Bool} {client : Fin n → TxProg n Empty}
    (hc : ∀ c, (client c).All (Calls (.client c))) {may : (txSystem n cap spurious).Conf → Pd n → Prop}
    {trust : Queue n → System.Trust} {s : (txSystem n cap spurious).Conf}
    (h : System.Reaches (txSystem n cap spurious) may (boot cap spurious client) s) :
    System.Exclusive (txSystem n cap spurious) trust s :=
  System.exclusive_of_uses (D := Calls) (fun q f f' t t' _ => calls_unique q f f' t t') (uses hc h)

end programs

end Lerux.Serial
