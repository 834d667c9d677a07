import Lerux.Sddf.RecordPath

/-!
# The block path

A client queues requests, the block virtualiser (`sddf-blk-virt`) forwards them to the driver's queue, the
driver (`sddf-blk-driver`) serves them, and the responses come back through the virtualiser. Each protection
domain is a thread of a `System`, whose programs follow the source statement by statement.
-/

namespace Lerux.Blk

open Lerux.Base Lerux.RecordQueues Lerux.RecordPath

abbrev Item := BlkReq ⊕ BlkResp

/-- The places where an enqueue fails after a dequeue. -/
inductive Drop
  | forwardRequests
  | forwardResponses
  | serve
  deriving DecidableEq

/-- The `ChannelSet` the virtualiser is started with. -/
structure VirtChannels where
  driver : Bool
  client : Bool

/-- The `ChannelSet` the driver is started with. -/
structure DriverChannels where
  irq : Bool
  virt : Bool

/-- What a client does. -/
inductive Act
  | submit (req : BlkReq)
  | receive
  | notify
  | wait

inductive Ev
  | notify (peer : Pd)
  | virtNotified
  | driverNotified
  | device (read : Bool) (sector len : Nat)
  | acts
  | wait
  | dropped (site : Drop)
  deriving DecidableEq

def Ev.Res : Ev → Type
  | notify _ => Unit
  | virtNotified => VirtChannels
  | driverNotified => DriverChannels
  | device _ _ _ => Bool
  | acts => List Act
  | wait => Unit
  | dropped _ => Unit

def evSig : Sig := ⟨Ev, Ev.Res⟩

instance : DecidableEq evSig.Op := inferInstanceAs (DecidableEq Ev)

/-- The notifications not yet delivered. -/
structure Env where
  virtDriver : Bool
  virtClient : Bool
  driverVirt : Bool
  clientVirt : Bool
  deriving DecidableEq

inductive Choice
  | none
  | irq (b : Bool)
  | device (ok : Bool)
  | acts (as : List Act)

/-- One event. The device interrupt comes at any time, and the device may fail any transfer. -/
def exec (t : Pd) (s : Env) : (o : Ev) → Choice → Option (o.Res × Env)
  | .notify peer, _ =>
    match t, peer with
    | .client, .virt => some ((), { s with virtClient := true })
    | .driver, .virt => some ((), { s with virtDriver := true })
    | .virt, .driver => some ((), { s with driverVirt := true })
    | .virt, .client => some ((), { s with clientVirt := true })
    | _, _ => none
  | .virtNotified, _ =>
    if s.virtDriver || s.virtClient then
      some (⟨s.virtDriver, s.virtClient⟩, { s with virtDriver := false, virtClient := false })
    else none
  | .driverNotified, .irq b => if b || s.driverVirt then
    some (⟨b, s.driverVirt⟩, { s with driverVirt := false }) else none
  | .driverNotified, _ => none
  | .device _ _ _, .device ok => some (ok, s)
  | .device _ _ _, _ => none
  | .acts, .acts as => some (as, s)
  | .acts, _ => none
  | .wait, _ => if s.clientVirt then some ((), { s with clientVirt := false }) else none
  | .dropped _, _ => some ((), s)

abbrev BlkProg := Prog (callSig evSig (recordLib BlkReq BlkResp) Queue)

def ev (o : Ev) : BlkProg o.Res := Prog.op (S := callSig evSig (recordLib BlkReq BlkResp) Queue) (.ev o)

def call (q : Queue) (f : RecordFn BlkReq BlkResp) : BlkProg f.Res :=
  Prog.op (S := callSig evSig (recordLib BlkReq BlkResp) Queue) (.call q f)

def notify (peer : Pd) : BlkProg Unit := ev (.notify peer)
def dropped (site : Drop) : BlkProg Unit := ev (.dropped site)
def queueFull (q : Queue) : BlkProg Bool := call q .full
def enqueueReq (q : Queue) (req : BlkReq) : BlkProg Int := call q (.enqueueReq req)
def dequeueReq (q : Queue) : BlkProg (Option BlkReq) := call q .dequeueReq
def enqueueResp (q : Queue) (resp : BlkResp) : BlkProg Int := call q (.enqueueResp resp)
def dequeueResp (q : Queue) : BlkProg (Option BlkResp) := call q .dequeueResp

/-! ### The virtualiser -/

/-- `forward_requests`. -/
def forwardRequests : BlkProg Bool :=
  Prog.iterate false fun moved => do
    let full ← queueFull .driverReq
    if full = true then return .inr moved
    else
      match ← dequeueReq .clientReq with
      | none => return .inr moved
      | some req =>
        let put ← enqueueReq .driverReq req
        if put = 0 then
          notify .driver
          return .inl true
        else
          dropped .forwardRequests
          return .inr moved

/-- `forward_responses`. -/
def forwardResponses : BlkProg Bool :=
  Prog.iterate false fun moved => do
    let full ← queueFull .clientResp
    if full = true then return .inr moved
    else
      match ← dequeueResp .driverResp with
      | none => return .inr moved
      | some resp =>
        let put ← enqueueResp .clientResp resp
        if put = 0 then
          notify .client
          return .inl true
        else
          dropped .forwardResponses
          return .inr moved

/-- `pump`. -/
def pump : BlkProg Unit :=
  Prog.iterate () fun _ => do
    let responses ← forwardResponses
    let requests ← forwardRequests
    if responses = false ∧ requests = false then return .inr () else return .inl ()

/-- The virtualiser's event loop. -/
def virtLoop : BlkProg Empty :=
  Prog.forever do
    let channels ← ev .virtNotified
    Prog.when (channels.driver = true ∨ channels.client = true) pump

/-! ### The driver -/

def blkDataSize : Nat := 0x10000
def blkTransferSize : Nat := 4096
def virtioSectorsPerBlock : Nat := 8

/-- `transfer_span`: the length of the transfer and its first sector. `usize` has 64 bits, and so have the
checked sums and products. -/
def transferSpan (capacityBlocks : Nat) (req : BlkReq) : Option (Nat × Nat) :=
  if req.count = 0 then none
  else
    let len := req.count.toNat * blkTransferSize
    if 2 ^ 64 ≤ req.ioOrOffset.toNat + len ∨ blkDataSize < req.ioOrOffset.toNat + len then none
    else if 2 ^ 64 ≤ req.blockNumber.toNat + req.count.toNat then none
    else if capacityBlocks < req.blockNumber.toNat + req.count.toNat then none
    else if 2 ^ 64 ≤ req.blockNumber.toNat * virtioSectorsPerBlock then none
    else some (len, req.blockNumber.toNat * virtioSectorsPerBlock)

/-- `transfer`. -/
def transfer (capacityBlocks : Nat) (read : Bool) (req : BlkReq) : BlkProg (BlkRespStatus × BitVec 16) :=
  match transferSpan capacityBlocks req with
  | none => return (.errInvalidParam, 0)
  | some (len, sector) => do
    let ok : Bool ← ev (.device read sector len)
    return if ok = true then (.ok, req.count) else (.errIo, 0)

/-- `finish`. -/
def finish (capacityBlocks : Nat) (req : BlkReq) : BlkProg (BlkRespStatus × BitVec 16) :=
  match req.code with
  | .read => transfer capacityBlocks true req
  | .write => transfer capacityBlocks false req
  | .flush => return (.ok, 0)
  | .barrier => return (.ok, 0)

/-- `serve`. -/
def serve (capacityBlocks : Nat) : BlkProg Unit :=
  Prog.iterate () fun _ => do
    match ← dequeueReq .driverReq with
    | none => return .inr ()
    | some req =>
      let done ← finish capacityBlocks req
      let put ← enqueueResp .driverResp ⟨done.1, done.2, req.id⟩
      if put = 0 then
        notify .virt
        return .inl ()
      else
        dropped .serve
        return .inr ()

/-- The driver's event loop. -/
def driverLoop (capacityBlocks : Nat) : BlkProg Empty :=
  Prog.forever do
    let channels ← ev .driverNotified
    Prog.when (channels.virt = true) (serve capacityBlocks)

/-! ### The client -/

/-- One act of a client that keeps at most `capacity` requests outstanding. The accumulator is the number
outstanding, and whether the virtualiser has to be notified. -/
def clientAct (capacity : Nat) (acc : Nat × Bool) : Act → BlkProg (Nat × Bool)
  | .submit req =>
    if acc.1 < capacity then do
      let put ← enqueueReq .clientReq req
      return if put = 0 then (acc.1 + 1, true) else acc
    else return acc
  | .receive => do
    match ← dequeueResp .clientResp with
    | none => return acc
    | some _ => return (acc.1 - 1, acc.2)
  | .notify => do
    notify .virt
    return (acc.1, false)
  | .wait => do
    ev .wait
    return acc

/-- A client that acts in any way, and does not rest before it has notified the virtualiser of what it
queued. -/
def clientLoop (capacity : Nat) : BlkProg Empty :=
  Prog.iterate 0 fun outstanding => do
    let acts ← ev .acts
    let acc ← Prog.fold acts (outstanding, false) (clientAct capacity)
    Prog.when (acc.2 = true) (notify .virt)
    return .inl acc.1

/-! ### The system -/

/-- The four rings have one capacity. -/
def blkSystem (capacity : Nat) : System Pd Queue evSig (recordLib BlkReq BlkResp) where
  Env := Env
  Choice := Choice
  Note := Empty
  cap _ := capacity
  exec := exec
  note _ _ := none

def programs (capacity capacityBlocks : Nat) : Pd → BlkProg Empty
  | .client => clientLoop capacity
  | .virt => virtLoop
  | .driver => driverLoop capacityBlocks

/-- The system over zeroed rings, with anything in their slots. -/
def boot (capacity capacityBlocks : Nat) (slot : Queue → Nat → Item) : (blkSystem capacity).Conf where
  thread t := .run (programs capacity capacityBlocks t)
  ring q := ⟨0, 0, slot q⟩
  env := ⟨false, false, false, false⟩
  log := []

/-! ### One producer and one consumer for every ring -/

@[simp] theorem all_ev {t : Pd} (o : Ev) : (ev o).All (Calls t) :=
  ⟨calls_ev (E := evSig) t o, fun _ => trivial⟩

theorem all_forwardRequests : forwardRequests.All (Calls .virt) := by
  refine Prog.All.iterate fun moved => ⟨.inl ⟨rfl, .inl rfl⟩, fun full => Prog.All.ite trivial ?_⟩
  refine ⟨.inr (.inl ⟨rfl, rfl⟩), fun got => ?_⟩
  cases got with
  | none => trivial
  | some req =>
    refine ⟨.inl ⟨rfl, .inr ⟨req, rfl⟩⟩, fun put => Prog.All.ite ?_ ?_⟩
    · exact (all_ev _).bind fun _ => trivial
    · exact (all_ev _).bind fun _ => trivial

theorem all_forwardResponses : forwardResponses.All (Calls .virt) := by
  refine Prog.All.iterate fun moved => ⟨.inr (.inr (.inl ⟨rfl, .inl rfl⟩)),
    fun full => Prog.All.ite trivial ?_⟩
  refine ⟨.inr (.inr (.inr ⟨rfl, rfl⟩)), fun got => ?_⟩
  cases got with
  | none => trivial
  | some resp =>
    refine ⟨.inr (.inr (.inl ⟨rfl, .inr ⟨resp, rfl⟩⟩)), fun put => Prog.All.ite ?_ ?_⟩
    · exact (all_ev _).bind fun _ => trivial
    · exact (all_ev _).bind fun _ => trivial

theorem all_virtLoop : virtLoop.All (Calls .virt) := by
  refine Prog.All.forever ((all_ev _).bind fun channels => Prog.All.when ?_)
  refine Prog.All.iterate fun _ => all_forwardResponses.bind fun _ => all_forwardRequests.bind fun _ => ?_
  exact Prog.All.ite trivial trivial

theorem all_finish (capacityBlocks : Nat) (req : BlkReq) :
    (finish capacityBlocks req).All (Calls .driver) := by
  have htransfer : ∀ read, (transfer capacityBlocks read req).All (Calls .driver) := by
    intro read
    unfold transfer
    split
    · trivial
    · exact (all_ev _).bind fun _ => trivial
  unfold finish
  split
  · exact htransfer true
  · exact htransfer false
  · trivial
  · trivial

theorem all_driverLoop (capacityBlocks : Nat) : (driverLoop capacityBlocks).All (Calls .driver) := by
  refine Prog.All.forever ((all_ev _).bind fun channels => Prog.All.when ?_)
  refine Prog.All.iterate fun _ => ⟨.inl ⟨rfl, rfl⟩, fun got => ?_⟩
  cases got with
  | none => trivial
  | some req =>
    refine (all_finish capacityBlocks req).bind fun done => ⟨.inr ⟨rfl, _, rfl⟩,
      fun put => Prog.All.ite ?_ ?_⟩
    · exact (all_ev _).bind fun _ => trivial
    · exact (all_ev _).bind fun _ => trivial

theorem all_clientAct (capacity : Nat) (acc : Nat × Bool) (a : Act) :
    (clientAct capacity acc a).All (Calls .client) := by
  cases a with
  | submit req => exact Prog.All.ite ⟨.inl ⟨rfl, req, rfl⟩, fun _ => trivial⟩ trivial
  | receive =>
    refine ⟨.inr ⟨rfl, rfl⟩, fun got => ?_⟩
    cases got <;> trivial
  | notify => exact (all_ev _).bind fun _ => trivial
  | wait => exact (all_ev _).bind fun _ => trivial

theorem all_clientLoop (capacity : Nat) : (clientLoop capacity).All (Calls .client) := by
  refine Prog.All.iterate fun outstanding => (all_ev _).bind fun acts => ?_
  refine (Prog.All.fold fun acc a => all_clientAct capacity acc a).bind fun acc => ?_
  exact (Prog.All.when (all_ev _)).bind fun _ => trivial

theorem exclusive {capacity capacityBlocks : Nat} {slot : Queue → Nat → Item}
    {may : (blkSystem capacity).Conf → Pd → Prop}
    {trust : Queue → System.Trust} {s : (blkSystem capacity).Conf}
    (h : System.Reaches (blkSystem capacity) may (boot capacity capacityBlocks slot) s) :
    System.Exclusive (blkSystem capacity) trust s := by
  refine System.exclusive_of_uses (D := Calls) (fun q f f' t t' _ => calls_unique q f f' t t')
    (System.uses_of_reaches (fun t => ?_) h)
  cases t with
  | client => exact all_clientLoop capacity
  | virt => exact all_virtLoop
  | driver => exact all_driverLoop capacityBlocks

end Lerux.Blk
