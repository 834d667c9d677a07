import Lerux.Sddf.RecordPath

/-!
# The graphics path

A client queues requests, the graphics virtualiser (`sddf-gpu-virt`) forwards them to the driver's queue and
answers blob requests itself. It notes each request it forwards in a table, at the request's id modulo the
number of slots; when the response comes back the note says whether the display record has to be copied from
the driver's data region to the client's.

The virtualiser's programs follow the source. The driver is any that answers every request it takes once.
-/

namespace Lerux.Gpu

open Lerux.Base Lerux.RecordQueues Lerux.RecordPath

abbrev Item := GpuReq ⊕ GpuResp

def gpuQueueCapacity : Nat := 16
def gpuRegionSize : Nat := 0x1000
def noteSlots : Nat := 16

/-- `size_of::<gpu_resp_get_display_info_t>()`. -/
def displayLen : Nat := 324

structure Note where
  code : GpuReqCode
  memOffset : BitVec 64
  live : Bool
  deriving DecidableEq

/-- The places where an enqueue fails after a dequeue. -/
inductive Drop
  | forwardRequests
  | rejectBlob
  | forwardResponses
  deriving DecidableEq

structure VirtChannels where
  driver : Bool
  client : Bool

/-- What a client does. -/
inductive ClientAct
  | submit (req : GpuReq)
  | receive
  | clearDisplayInfo
  | notify
  | wait

/-- What a driver does. It answers the requests it has taken in any order. -/
inductive DriverAct
  | take
  | answer (i : Nat) (status : GpuRespStatus)
  | store (i : Nat) (b : BitVec 8)
  | setDisplayInfo
  | notify
  | wait

inductive Ev
  | notify (peer : Pd)
  | virtNotified
  | setNote (req : GpuReq)
  | note (id : BitVec 32)
  | clearLive (id : BitVec 32)
  | copy (offset : BitVec 64)
  | checkDisplayInfo
  | setDisplayInfo
  | clearDisplayInfo
  | store (i : Nat) (b : BitVec 8)
  | clientActs
  | driverActs (held : List GpuReq)
  | wait
  | dropped (site : Drop)
  deriving DecidableEq

def Ev.Res : Ev → Type
  | virtNotified => VirtChannels
  | note _ => Note
  | checkDisplayInfo => Bool
  | clientActs => List ClientAct
  | driverActs _ => List DriverAct
  | _ => Unit

def evSig : Sig := ⟨Ev, Ev.Res⟩

instance : DecidableEq evSig.Op := inferInstanceAs (DecidableEq Ev)

/-- The notifications not yet delivered, the virtualiser's notes, the two event words and the two data
regions. -/
structure Env where
  virtDriver : Bool
  virtClient : Bool
  driverVirt : Bool
  clientVirt : Bool
  notes : Nat → Note
  driverEvents : Bool
  clientEvents : Bool
  driverData : Nat → BitVec 8
  clientData : Nat → BitVec 8

inductive Choice
  | none
  | clientActs (as : List ClientAct)
  | driverActs (as : List DriverAct)

def noteSlot (id : BitVec 32) : Nat := id.toNat % noteSlots

/-- The note of a request. -/
def noteOf (req : GpuReq) : Note :=
  ⟨req.code, if req.code = .getDisplayInfo then req.memOffset else 0, true⟩

/-- One event. -/
def exec (t : Pd) (s : Env) : (o : Ev) → Choice → Option (o.Res × Env)
  | .notify peer, _ =>
    match t, peer with
    | .client, .virt => some ((), { s with virtClient := true })
    | .driver, .virt => some ((), { s with virtDriver := true })
    | .virt, .driver => some ((), { s with driverVirt := true })
    | .virt, .client => some ((), { s with clientVirt := true })
    | _, _ => none
  | .virtNotified, _ =>
    if s.virtDriver || s.virtClient then
      some (⟨s.virtDriver, s.virtClient⟩, { s with virtDriver := false, virtClient := false })
    else none
  | .setNote req, _ => some ((), { s with notes := Function.update s.notes (noteSlot req.id) (noteOf req) })
  | .note id, _ => some (s.notes (noteSlot id), s)
  | .clearLive id, _ =>
    some ((), { s with notes := Function.update s.notes (noteSlot id) { s.notes (noteSlot id) with live := false } })
  | .copy offset, _ =>
    some ((), { s with
      clientData := fun i =>
        if offset.toNat ≤ i ∧ i < offset.toNat + displayLen then s.driverData i else s.clientData i })
  | .checkDisplayInfo, _ => some (s.driverEvents, s)
  | .setDisplayInfo, _ =>
    match t with
    | .driver => some ((), { s with driverEvents := true })
    | _ => some ((), { s with clientEvents := true })
  | .clearDisplayInfo, _ =>
    match t with
    | .virt => some ((), { s with driverEvents := false })
    | _ => some ((), { s with clientEvents := false })
  | .store i b, _ => some ((), { s with driverData := Function.update s.driverData i b })
  | .clientActs, .clientActs as => some (as, s)
  | .clientActs, _ => none
  | .driverActs _, .driverActs as => some (as, s)
  | .driverActs _, _ => none
  | .wait, _ =>
    match t with
    | .client => if s.clientVirt then some ((), { s with clientVirt := false }) else none
    | .driver => if s.driverVirt then some ((), { s with driverVirt := false }) else none
    | .virt => none
  | .dropped _, _ => some ((), s)

/-- A copy is recorded, with its offset. -/
def noted : (o : Ev) → o.Res → Option (BitVec 64)
  | .copy offset, _ => some offset
  | _, _ => none

abbrev GpuProg := Prog (callSig evSig (recordLib GpuReq GpuResp) Queue)

def ev (o : Ev) : GpuProg o.Res := Prog.op (S := callSig evSig (recordLib GpuReq GpuResp) Queue) (.ev o)

def call (q : Queue) (f : RecordFn GpuReq GpuResp) : GpuProg f.Res :=
  Prog.op (S := callSig evSig (recordLib GpuReq GpuResp) Queue) (.call q f)

def notify (peer : Pd) : GpuProg Unit := ev (.notify peer)
def dropped (site : Drop) : GpuProg Unit := ev (.dropped site)
def queueFull (q : Queue) : GpuProg Bool := call q .full
def enqueueReq (q : Queue) (req : GpuReq) : GpuProg Int := call q (.enqueueReq req)
def dequeueReq (q : Queue) : GpuProg (Option GpuReq) := call q .dequeueReq
def enqueueResp (q : Queue) (resp : GpuResp) : GpuProg Int := call q (.enqueueResp resp)
def dequeueResp (q : Queue) : GpuProg (Option GpuResp) := call q .dequeueResp

/-! ### The virtualiser -/

/-- `is_blob`. -/
def isBlob : GpuReqCode → Bool
  | .resourceCreateBlob => true
  | .setScanoutBlob => true
  | _ => false

/-- The display record at `offset` lies in the data region. The sum is checked. -/
def inRange (offset : BitVec 64) : Bool :=
  decide (offset.toNat + displayLen < 2 ^ 64 ∧ offset.toNat + displayLen ≤ gpuRegionSize)

/-- `copy_display`. -/
def copyDisplay (offset : BitVec 64) : GpuProg Unit := Prog.when (inRange offset = true) (ev (.copy offset))

/-- `reject_blob`. -/
def rejectBlob (id : BitVec 32) : GpuProg Unit := do
  let put ← enqueueResp .clientResp ⟨.errInvalidParameter, id⟩
  if put = 0 then notify .client else dropped .rejectBlob

/-- `forward_requests`. -/
def forwardRequests : GpuProg Bool :=
  Prog.iterate false fun moved => do
    let full ← queueFull .driverReq
    if full = true then return .inr moved
    else
      match ← dequeueReq .clientReq with
      | none => return .inr moved
      | some req =>
        if isBlob req.code = true then
          rejectBlob req.id
          return .inl true
        else
          ev (.setNote req)
          let put ← enqueueReq .driverReq req
          if put = 0 then
            notify .driver
            return .inl true
          else
            dropped .forwardRequests
            return .inr moved

/-- The condition of the copy in `forward_responses`. -/
def copies (note : Note) (resp : GpuResp) : Prop := note.live = true ∧ note.code = .getDisplayInfo ∧
    resp.status = .ok

instance (note : Note) (resp : GpuResp) : Decidable (copies note resp) :=
  inferInstanceAs (Decidable (_ ∧ _ ∧ _))

/-- `forward_responses`. -/
def forwardResponses : GpuProg Bool :=
  Prog.iterate false fun moved => do
    let full ← queueFull .clientResp
    if full = true then return .inr moved
    else
      match ← dequeueResp .driverResp with
      | none => return .inr moved
      | some resp =>
        let note : Note ← ev (.note resp.id)
        Prog.when (copies note resp) (copyDisplay note.memOffset)
        ev (.clearLive resp.id)
        let put ← enqueueResp .clientResp resp
        if put = 0 then
          notify .client
          return .inl true
        else
          dropped .forwardResponses
          return .inr moved

/-- `forward_events`. -/
def forwardEvents : GpuProg Unit := do
  let set : Bool ← ev .checkDisplayInfo
  Prog.when (set = true) do
    ev .setDisplayInfo
    ev .clearDisplayInfo

/-- `pump`. -/
def pump : GpuProg Unit :=
  Prog.iterate () fun _ => do
    let responses ← forwardResponses
    let requests ← forwardRequests
    forwardEvents
    if responses = false ∧ requests = false then return .inr () else return .inl ()

/-- The virtualiser's event loop. -/
def virtLoop : GpuProg Empty :=
  Prog.forever do
    let channels ← ev .virtNotified
    Prog.when (channels.driver = true ∨ channels.client = true) pump

/-! ### The client and the driver -/

/-- One act of a client that keeps at most `gpuQueueCapacity` requests outstanding, with distinct ids. The
accumulator is the requests outstanding, and whether the virtualiser has to be notified. -/
def clientAct (acc : List GpuReq × Bool) : ClientAct → GpuProg (List GpuReq × Bool)
  | .submit req =>
    if acc.1.length < gpuQueueCapacity ∧ ∀ r ∈ acc.1, r.id ≠ req.id then do
      let put ← enqueueReq .clientReq req
      return if put = 0 then (acc.1 ++ [req], true) else acc
    else return acc
  | .receive => do
    match ← dequeueResp .clientResp with
    | none => return acc
    | some resp => return (acc.1.eraseP fun r => r.id = resp.id, acc.2)
  | .clearDisplayInfo => do
    ev .clearDisplayInfo
    return acc
  | .notify => do
    notify .virt
    return (acc.1, false)
  | .wait => do
    ev .wait
    return acc

/-- A client that acts in any way, and does not rest before it has notified the virtualiser of what it
queued. -/
def clientLoop : GpuProg Empty :=
  Prog.iterate [] fun outstanding => do
    let acts ← ev .clientActs
    let acc ← Prog.fold acts (outstanding, false) clientAct
    Prog.when (acc.2 = true) (notify .virt)
    return .inl acc.1

/-- One act of a driver. The accumulator is the requests it has taken and not answered, and whether the
virtualiser has to be notified. -/
def driverAct (acc : List GpuReq × Bool) : DriverAct → GpuProg (List GpuReq × Bool)
  | .take => do
    match ← dequeueReq .driverReq with
    | none => return acc
    | some req => return (acc.1 ++ [req], acc.2)
  | .answer i status =>
    match acc.1[i]? with
    | none => return acc
    | some req => do
      let put ← enqueueResp .driverResp ⟨status, req.id⟩
      return if put = 0 then (acc.1.eraseIdx i, true) else acc
  | .store i b => do
    ev (.store i b)
    return acc
  | .setDisplayInfo => do
    ev .setDisplayInfo
    return acc
  | .notify => do
    notify .virt
    return (acc.1, false)
  | .wait => do
    ev .wait
    return acc

def driverLoop : GpuProg Empty :=
  Prog.iterate [] fun held => do
    let acts ← ev (.driverActs held)
    let acc ← Prog.fold acts (held, false) driverAct
    Prog.when (acc.2 = true) (notify .virt)
    return .inl acc.1

/-! ### The system -/

def gpuSystem : System Pd Queue evSig (recordLib GpuReq GpuResp) where
  Env := Env
  Choice := Choice
  Note := BitVec 64
  cap _ := gpuQueueCapacity
  exec := exec
  note := noted

def programs : Pd → GpuProg Empty
  | .client => clientLoop
  | .virt => virtLoop
  | .driver => driverLoop

def Env.boot (driverData clientData : Nat → BitVec 8) : Env :=
  ⟨false, false, false, false, fun _ => ⟨.getDisplayInfo, 0, false⟩, false, false, driverData, clientData⟩

/-- The system over zeroed rings, with anything in their slots and in the data regions. -/
def boot (slot : Queue → Nat → Item) (driverData clientData : Nat → BitVec 8) : gpuSystem.Conf where
  thread t := .run (programs t)
  ring q := ⟨0, 0, slot q⟩
  env := Env.boot driverData clientData
  log := []

/-! ### One producer and one consumer for every ring -/

@[simp] theorem all_ev {t : Pd} (o : Ev) : (ev o).All (Calls t) :=
  ⟨calls_ev (E := evSig) t o, fun _ => trivial⟩

theorem all_rejectBlob (id : BitVec 32) : (rejectBlob id).All (Calls .virt) :=
  ⟨.inr (.inr (.inl ⟨rfl, .inr ⟨_, rfl⟩⟩)), fun _ => Prog.All.ite (all_ev _) (all_ev _)⟩

theorem all_forwardRequests : forwardRequests.All (Calls .virt) := by
  refine Prog.All.iterate fun moved => ⟨.inl ⟨rfl, .inl rfl⟩, fun full => Prog.All.ite trivial ?_⟩
  refine ⟨.inr (.inl ⟨rfl, rfl⟩), fun got => ?_⟩
  cases got with
  | none => trivial
  | some req =>
    refine Prog.All.ite ((all_rejectBlob _).bind fun _ => trivial) ((all_ev _).bind fun _ => ?_)
    refine ⟨.inl ⟨rfl, .inr ⟨req, rfl⟩⟩, fun put => Prog.All.ite ?_ ?_⟩
    · exact (all_ev _).bind fun _ => trivial
    · exact (all_ev _).bind fun _ => trivial

theorem all_forwardResponses : forwardResponses.All (Calls .virt) := by
  refine Prog.All.iterate fun moved => ⟨.inr (.inr (.inl ⟨rfl, .inl rfl⟩)),
    fun full => Prog.All.ite trivial ?_⟩
  refine ⟨.inr (.inr (.inr ⟨rfl, rfl⟩)), fun got => ?_⟩
  cases got with
  | none => trivial
  | some resp =>
    refine (all_ev _).bind fun note => Prog.All.bind (Prog.All.when (Prog.All.when (all_ev _))) fun _ => ?_
    refine (all_ev _).bind fun _ => ⟨.inr (.inr (.inl ⟨rfl, .inr ⟨resp, rfl⟩⟩)),
      fun put => Prog.All.ite ?_ ?_⟩
    · exact (all_ev _).bind fun _ => trivial
    · exact (all_ev _).bind fun _ => trivial

theorem all_virtLoop : virtLoop.All (Calls .virt) := by
  refine Prog.All.forever ((all_ev _).bind fun channels => Prog.All.when ?_)
  refine Prog.All.iterate fun _ => all_forwardResponses.bind fun _ => all_forwardRequests.bind fun _ => ?_
  refine Prog.All.bind ((all_ev _).bind fun _ => Prog.All.when ((all_ev _).bind fun _ => all_ev _))
    fun _ => ?_
  exact Prog.All.ite trivial trivial

theorem all_clientAct (acc : List GpuReq × Bool) (a : ClientAct) :
    (clientAct acc a).All (Calls .client) := by
  cases a with
  | submit req => exact Prog.All.ite ⟨.inl ⟨rfl, req, rfl⟩, fun _ => trivial⟩ trivial
  | receive =>
    refine ⟨.inr ⟨rfl, rfl⟩, fun got => ?_⟩
    cases got <;> trivial
  | clearDisplayInfo => exact (all_ev _).bind fun _ => trivial
  | notify => exact (all_ev _).bind fun _ => trivial
  | wait => exact (all_ev _).bind fun _ => trivial

theorem all_clientLoop : clientLoop.All (Calls .client) := by
  refine Prog.All.iterate fun outstanding => (all_ev _).bind fun acts => ?_
  refine (Prog.All.fold fun acc a => all_clientAct acc a).bind fun acc => ?_
  exact (Prog.All.when (all_ev _)).bind fun _ => trivial

theorem all_driverAct (acc : List GpuReq × Bool) (a : DriverAct) :
    (driverAct acc a).All (Calls .driver) := by
  cases a with
  | take =>
    refine ⟨.inl ⟨rfl, rfl⟩, fun got => ?_⟩
    cases got <;> trivial
  | answer i status =>
    simp only [driverAct]
    split
    · trivial
    · exact ⟨.inr ⟨rfl, _, rfl⟩, fun _ => trivial⟩
  | store i b => exact (all_ev _).bind fun _ => trivial
  | setDisplayInfo => exact (all_ev _).bind fun _ => trivial
  | notify => exact (all_ev _).bind fun _ => trivial
  | wait => exact (all_ev _).bind fun _ => trivial

theorem all_driverLoop : driverLoop.All (Calls .driver) := by
  refine Prog.All.iterate fun held => (all_ev _).bind fun acts => ?_
  refine (Prog.All.fold fun acc a => all_driverAct acc a).bind fun acc => ?_
  exact (Prog.All.when (all_ev _)).bind fun _ => trivial

theorem exclusive {slot : Queue → Nat → Item} {driverData clientData : Nat → BitVec 8}
    {may : gpuSystem.Conf → Pd → Prop}
    {trust : Queue → System.Trust} {s : gpuSystem.Conf}
    (h : System.Reaches gpuSystem may (boot slot driverData clientData) s) : System.Exclusive
      gpuSystem trust s := by
  refine System.exclusive_of_uses (D := Calls) (fun q f f' t t' _ => calls_unique q f f' t t')
    (System.uses_of_reaches (fun t => ?_) h)
  cases t with
  | client => exact all_clientLoop
  | virt => exact all_virtLoop
  | driver => exact all_driverLoop

end Lerux.Gpu
