import Mathlib.Data.BitVec
import Mathlib.Data.List.Chain
import Mathlib.Logic.Function.Basic
import Mathlib.Logic.Relation

/-!
# The producer rings of the xHCI hosts

The keyboard host of the console driver and the Bluetooth host keep three rings of 32 descriptors
each: for commands, for control transfers and for interrupt transfers. `ensure_room` writes a link
at the index the ring has come to when a transfer would not fit in front of the last descriptor, so
that the link of a lap can be in any of the last three.

The controller runs beside the driver. It takes the descriptor at its dequeue pointer when its cycle
bit is the consumer cycle state, and follows links. `System` interleaves the two; `Host` also keeps
all that was written on a ring, `System` all that was taken from it, links included.
-/

namespace Lerux.Xhci

abbrev Word := BitVec 32

inductive Ring
  | cmd
  | ep0
  | intr
  deriving DecidableEq

/-- The two drivers. -/
inductive Driver
  | console
  | swiftBt

def Driver.dmaPhys : Driver → BitVec 64
  | console => 0x62000000
  | swiftBt => 0x01f20000

def offData : BitVec 64 := 0x200
def offReport : BitVec 64 := 0x400
def offCmd : BitVec 64 := 0x4000
def offEp0 : BitVec 64 := 0x5000
def offIntr : BitVec 64 := 0x6000

def ringOff : Ring → BitVec 64
  | .cmd => offCmd
  | .ep0 => offEp0
  | .intr => offIntr

def Driver.ringPhys (d : Driver) (ring : Ring) : BitVec 64 := d.dmaPhys + ringOff ring

def ringLast : Nat := 31

def trbNormal : Word := 1
def trbSetup : Word := 2
def trbData : Word := 3
def trbStatus : Word := 4
def trbLink : Word := 6
def trbEnableSlot : Word := 9
def trbDisableSlot : Word := 10
def trbAddress : Word := 11
def trbConfigure : Word := 12
def trbEvaluate : Word := 13
def trbResetEp : Word := 14
def trbSetDeq : Word := 16

def tc : Word := 1 <<< 1
def isp : Word := 1 <<< 2
def chain : Word := 1 <<< 4
def ioc : Word := 1 <<< 5
def idt : Word := 1 <<< 6

def trbType (kind : Word) : Word := kind <<< 10

def lowU32 (value : BitVec 64) : Word := value.setWidth 32

def highU32 (value : BitVec 64) : Word := (value >>> 32).setWidth 32

structure Trb where
  d0 : Word
  d1 : Word
  d2 : Word
  d3 : Word
  deriving DecidableEq

namespace Trb

def cycle (t : Trb) : Bool := t.d3.getLsbD 0

def isLink (t : Trb) : Bool := (t.d3 >>> 10) &&& 0x3f == trbLink

/-- The toggle-cycle flag of a link. -/
def toggles (t : Trb) : Bool := t.d3.getLsbD 1

/-- The descriptor is not the last one of its transfer. -/
def chained (t : Trb) : Bool := t.d3.getLsbD 4

def pointer (t : Trb) : BitVec 64 := (t.d0.setWidth 64 ||| t.d1.setWidth 64 <<< 32) &&& ~~~0xf

def withCycle (t : Trb) (cycle : Nat) : Trb := { t with d3 := t.d3 ||| BitVec.ofNat 32 cycle }

end Trb

/-! ### The driver -/

/-- The ring fields of a host, the rings in the DMA region, and all that was written on each ring. -/
structure Host where
  cmdI : Nat
  cmdC : Nat
  ep0I : Nat
  ep0C : Nat
  intrI : Nat
  intrC : Nat
  dma : Ring → Nat → Trb
  written : Ring → List Trb

namespace Host

def zeroed : Host where
  cmdI := 0
  cmdC := 1
  ep0I := 0
  ep0C := 1
  intrI := 0
  intrC := 1
  dma _ _ := ⟨0, 0, 0, 0⟩
  written _ := []

def ringIndex (h : Host) : Ring → Nat
  | .cmd => h.cmdI
  | .ep0 => h.ep0I
  | .intr => h.intrI

def setRingIndex (h : Host) (ring : Ring) (index : Nat) : Host :=
  match ring with
  | .cmd => { h with cmdI := index }
  | .ep0 => { h with ep0I := index }
  | .intr => { h with intrI := index }

def ringCycle (h : Host) : Ring → Nat
  | .cmd => h.cmdC
  | .ep0 => h.ep0C
  | .intr => h.intrC

def setRingCycle (h : Host) (ring : Ring) (cycle : Nat) : Host :=
  match ring with
  | .cmd => { h with cmdC := cycle }
  | .ep0 => { h with ep0C := cycle }
  | .intr => { h with intrC := cycle }

/-- The fence before the last dword makes the descriptor appear at once. -/
def writeTrb (h : Host) (ring : Ring) (index : Nat) (t : Trb) : Host :=
  { h with
    dma := Function.update h.dma ring (Function.update (h.dma ring) index t)
    written := Function.update h.written ring (h.written ring ++ [t]) }

/-- The link back to the base of a ring. -/
def linkTrb (d : Driver) (ring : Ring) (cycle : Nat) : Trb :=
  let base := d.ringPhys ring
  let d3 := BitVec.ofNat 32 cycle ||| tc ||| trbType trbLink
  ⟨lowU32 base, highU32 base, 0, d3⟩

def writeLink (d : Driver) (ring : Ring) (h : Host) : Host :=
  let index := h.ringIndex ring
  let cycle := h.ringCycle ring
  let h := h.writeTrb ring index (linkTrb d ring cycle)
  let h := h.setRingIndex ring 0
  h.setRingCycle ring (h.ringCycle ring ^^^ 1)

def ensureRoom (d : Driver) (ring : Ring) (count : Nat) (h : Host) : Host :=
  let index := h.ringIndex ring
  if index + count > ringLast then h.writeLink d ring else h

def pushTrb (d : Driver) (ring : Ring) (t : Trb) (h : Host) : BitVec 64 × Host :=
  let h := if h.ringIndex ring = ringLast then h.writeLink d ring else h
  let index := h.ringIndex ring
  let cycle := h.ringCycle ring
  let phys := d.ringPhys ring + BitVec.ofNat 64 index * 16
  let h := h.writeTrb ring index (t.withCycle cycle)
  (phys, h.setRingIndex ring (index + 1))

end Host

/-- The arguments of a control transfer. -/
structure Control where
  bm : BitVec 8
  req : BitVec 8
  value : BitVec 16
  index : BitVec 16
  len : BitVec 16

namespace Control

/-- The device sends the data. -/
def inward (c : Control) : Bool := c.bm &&& 0x80 != 0

def trbs (c : Control) : Nat := if c.len = 0 then 2 else 3

def setup (c : Control) : Trb :=
  let setupD0 := c.bm.setWidth 32 ||| c.req.setWidth 32 <<< 8 ||| c.value.setWidth 32 <<< 16
  let setupD1 := c.index.setWidth 32 ||| c.len.setWidth 32 <<< 16
  let trt : Word := if c.len = 0 then 0 else if c.inward then 3 else 2
  let setupD3 := chain ||| idt ||| trbType trbSetup ||| trt <<< 16
  ⟨setupD0, setupD1, 8, setupD3⟩

def data (d : Driver) (c : Control) : Trb :=
  let buf := d.dmaPhys + offData
  let dir : Word := if c.inward then (1 : Word) <<< 16 else 0
  let short := if c.inward then isp else 0
  let dataD3 := short ||| chain ||| trbType trbData ||| dir
  ⟨lowU32 buf, highU32 buf, c.len.setWidth 32, dataD3⟩

def status (c : Control) : Trb :=
  let statusDir : Word := if c.len ≠ 0 ∧ c.inward then 0 else (1 : Word) <<< 16
  let statusD3 := ioc ||| trbType trbStatus ||| statusDir
  ⟨0, 0, 0, statusD3⟩

end Control

def queueControl (d : Driver) (c : Control) (h : Host) : (BitVec 64 × BitVec 64) × Host :=
  let h := h.ensureRoom d .ep0 c.trbs
  let (_, h) := h.pushTrb d .ep0 c.setup
  let (dataTrb, h) := if c.len ≠ 0 then h.pushTrb d .ep0 (c.data d) else (0, h)
  let (statusTrb, h) := h.pushTrb d .ep0 c.status
  ((dataTrb, statusTrb), h)

inductive CommandKind
  | enableSlot
  | disableSlot
  | address
  | configure
  | evaluate
  | resetEp
  | setDeq

def CommandKind.code : CommandKind → Word
  | enableSlot => trbEnableSlot
  | disableSlot => trbDisableSlot
  | address => trbAddress
  | configure => trbConfigure
  | evaluate => trbEvaluate
  | resetEp => trbResetEp
  | setDeq => trbSetDeq

/-- What the callers of `submit_cmd` give it: a pointer, and a kind with the endpoint and the slot
it is about. -/
structure Command where
  d0 : Word
  d1 : Word
  kind : CommandKind
  ep : BitVec 8
  slot : BitVec 8

def Command.trb (c : Command) : Trb :=
  ⟨c.d0, c.d1, 0, trbType c.kind.code ||| c.ep.setWidth 32 <<< 16 ||| c.slot.setWidth 32 <<< 24⟩

def submitCmd (d : Driver) (c : Command) (h : Host) : BitVec 64 × Host :=
  let h := h.ensureRoom d .cmd 1
  h.pushTrb d .cmd c.trb

def intrTrb (d : Driver) (packet : BitVec 16) : Trb :=
  let buf := d.dmaPhys + offReport
  ⟨lowU32 buf, highU32 buf, packet.setWidth 32, isp ||| ioc ||| trbType trbNormal⟩

/-- The console driver always asks for eight bytes. -/
def queueIntr (d : Driver) (packet : BitVec 16) (h : Host) : BitVec 64 × Host :=
  let h := h.ensureRoom d .intr 1
  h.pushTrb d .intr (intrTrb d packet)

/-! ### Calls in pieces -/

inductive Call
  | submitCmd (command : Command)
  | queueControl (control : Control)
  | queueIntr (packet : BitVec 16)

/-- The part of a call between two moments at which the controller may run. It writes one descriptor
at most: behind `ensure_room` the index is not at the last descriptor, and `push_trb` writes no link
of its own. -/
inductive Act
  | ensureRoom (ring : Ring) (count : Nat)
  | pushTrb (ring : Ring) (t : Trb)

def Act.ring : Act → Ring
  | ensureRoom ring _ => ring
  | pushTrb ring _ => ring

def Act.run (d : Driver) : Act → Host → Host
  | ensureRoom ring count, h => h.ensureRoom d ring count
  | pushTrb ring t, h => (h.pushTrb d ring t).2

namespace Call

def ring : Call → Ring
  | submitCmd _ => .cmd
  | queueControl _ => .ep0
  | queueIntr _ => .intr

/-- The descriptors of a call without their cycle bits. -/
def trbs (d : Driver) : Call → List Trb
  | submitCmd command => [command.trb]
  | queueControl control => if control.len = 0 then [control.setup, control.status]
    else [control.setup, control.data d, control.status]
  | queueIntr packet => [intrTrb d packet]

/-- How many descriptors a call asks room for. -/
def count : Call → Nat
  | submitCmd _ => 1
  | queueControl control => control.trbs
  | queueIntr _ => 1

def acts (d : Driver) (c : Call) : List Act :=
  .ensureRoom c.ring c.count :: (c.trbs d).map (.pushTrb c.ring)

def run (d : Driver) : Call → Host → Host
  | submitCmd command, h => (Xhci.submitCmd d command h).2
  | queueControl control, h => (Xhci.queueControl d control h).2
  | queueIntr packet, h => (Xhci.queueIntr d packet h).2

/-- The pieces of a call, one after the other, are the call. -/
theorem run_eq_acts (d : Driver) (c : Call) (h : Host) :
    c.run d h = (c.acts d).foldl (fun h a => a.run d h) h := by
  cases c with
  | submitCmd command => rfl
  | queueIntr packet => rfl
  | queueControl control =>
    by_cases hlen : control.len = 0#16
    · simp [run, acts, trbs, Xhci.queueControl, hlen, ring, count, Act.run]
    · simp [run, acts, trbs, Xhci.queueControl, hlen, ring, count, Act.run]

theorem length_trbs (d : Driver) (c : Call) : (c.trbs d).length = c.count := by
  cases c with
  | submitCmd command => rfl
  | queueIntr packet => rfl
  | queueControl control => by_cases hlen : control.len = 0#16 <;> simp [trbs, count, Control.trbs, hlen]

theorem count_pos (c : Call) : 1 ≤ c.count := by
  cases c with
  | submitCmd command => exact le_rfl
  | queueIntr packet => exact le_rfl
  | queueControl control => by_cases hlen : control.len = 0#16 <;> simp [count, Control.trbs, hlen]

theorem count_le (c : Call) : c.count ≤ 3 := by
  cases c with
  | submitCmd command => simp [count]
  | queueIntr packet => simp [count]
  | queueControl control => by_cases hlen : control.len = 0#16 <;> simp [count, Control.trbs, hlen]

end Call

/-! ### The controller -/

/-- The controller at a ring: the descriptor its dequeue pointer is at, and its cycle state. -/
structure Consumer where
  slot : Nat
  cycle : Bool
  deriving DecidableEq

/-- The controller behind a descriptor. -/
def Consumer.after (base : BitVec 64) (c : Consumer) (t : Trb) : Consumer :=
  if t.isLink then ⟨(t.pointer - base).toNat / 16, c.cycle ^^ t.toggles⟩ else ⟨c.slot + 1, c.cycle⟩

/-- The descriptor the controller takes next. -/
def Consumer.next (c : Consumer) (dma : Nat → Trb) : Option Trb :=
  if (dma c.slot).cycle = c.cycle then some (dma c.slot) else none

/-- The driver with the calls ahead of it and the rest of the call it is in, and the controller with
all it has taken. -/
structure System where
  host : Host
  ahead : List Call
  todo : List Act
  consumer : Ring → Consumer
  taken : Ring → List Trb

namespace System

def start (calls : List Call) : System where
  host := .zeroed
  ahead := calls
  todo := []
  consumer _ := ⟨0, true⟩
  taken _ := []

/-- The descriptors of the driver's transfers. -/
def pushed (s : System) (ring : Ring) : List Trb := (s.host.written ring).filter (!·.isLink)

def consumed (s : System) (ring : Ring) : List Trb := (s.taken ring).filter (!·.isLink)

def next (s : System) (ring : Ring) : Option Trb := (s.consumer ring).next (s.host.dma ring)

def take (d : Driver) (s : System) (ring : Ring) (t : Trb) : System :=
  { s with
    consumer := Function.update s.consumer ring ((s.consumer ring).after (d.ringPhys ring) t)
    taken := Function.update s.taken ring (s.taken ring ++ [t]) }

/-- A call begins when the ring's last transfer is complete. -/
inductive Step (d : Driver) (s : System) : System → Prop
  | call {c : Call} {rest : List Call} : s.todo = [] → s.ahead = c :: rest →
      s.consumed c.ring = s.pushed c.ring →
      Step d s { s with ahead := rest, todo := c.acts d }
  | act {a : Act} {rest : List Act} : s.todo = a :: rest →
      Step d s { s with host := a.run d s.host, todo := rest }
  | take {ring : Ring} {t : Trb} : s.next ring = some t → Step d s (s.take d ring t)

/-- The states of the runs in which the driver makes the calls in order. -/
def Reach (d : Driver) (calls : List Call) : System → Prop := Relation.ReflTransGen (Step d) (start calls)

/-- The controller takes what was pushed and nothing else, in order and without a link in a
transfer, and finds no descriptor when it has taken all. -/
structure Exact (s : System) (ring : Ring) : Prop where
  order : s.consumed ring <+: s.pushed ring
  complete : s.next ring = none → s.consumed ring = s.pushed ring
  unsplit : (s.host.written ring).IsChain (fun t next => t.chained → next.isLink = false)
  idle : s.taken ring = s.host.written ring → s.next ring = none

end System

end Lerux.Xhci
