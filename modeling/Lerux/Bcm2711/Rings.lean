import Lerux.Base.Bytes
import Lerux.Base.Steps

/-!
# The descriptor rings of the GENET driver

`genet.rs` gives the controller of the Raspberry Pi 4 sixteen transmit and sixteen receive
descriptors of three words each. The first word has the length in its upper half and the flags in
its lower half, OWN among them while the descriptor is the controller's. The controller sends the
armed transmit descriptors in order and fills the armed receive descriptors in order.

The calls of the driver are the actions of a run, and so are the steps of the controller. `receive`
lends the slice that it found to its caller, who copies it before the next call; the controller may
act in between. `State` also keeps what has happened: the frames accepted, sent, received and
delivered, and how often `receive` has found nothing while a received frame was waiting.
-/

namespace Lerux.Bcm2711

open Lerux.Base

abbrev Word := BitVec 32
abbrev Half := BitVec 16

def numDesc : Nat := 16
def bufSize : Nat := 2048
def descRing : Nat := 16

def tdmaRegOff : Nat := 0x4000 + 256 * 12
def rdmaRegOff : Nat := 0x2000 + 256 * 12
def dmaRingSize : Nat := 0x40
def tdmaGlobalOff : Nat := tdmaRegOff + dmaRingSize * 17
def rdmaGlobalOff : Nat := rdmaRegOff + dmaRingSize * 17

def prodIndex : Nat := 0x0c
def consIndex : Nat := 0x08
def ringBufSize : Nat := 0x10
def startAddr : Nat := 0x14
def endAddr : Nat := 0x1c
def dmaCtrl : Nat := 0x04

def dmaOwn : Half := 0x8000
def dmaEop : Half := 0x4000
def dmaSop : Half := 0x2000
def dmaTxAppendCrc : Half := 0x0040
def dmaBuflengthMask : Half := 0x0fff

structure Desc where
  status : Word
  addr : Word
  high : Word
deriving DecidableEq

/-- The registers by their offset, the descriptors, and the bytes of memory by their physical address. -/
structure Mem where
  regs : Nat → Word
  txRing : Nat → Desc
  rxRing : Nat → Desc
  bytes : Nat → UInt8

structure Genet where
  dmaPaddr : Nat
  txProd : Half
  rxCons : Half

def txBufOff (index : Nat) : Nat := index * bufSize

def rxBufOff (index : Nat) : Nat := numDesc * bufSize + index * bufSize

/-- A status word: the length above, the flags below. -/
def statusWord (len : Nat) (flags : Half) : Word := BitVec.ofNat 32 len <<< 16 ||| flags.setWidth 32

def txDesc (bufPhys len : Nat) (arm : Bool) : Desc where
  status := statusWord len (if arm then dmaSop ||| dmaEop ||| (dmaOwn ||| dmaTxAppendCrc)
    else dmaSop ||| dmaEop)
  addr := BitVec.ofNat 32 bufPhys
  high := 0

def rxDesc (bufPhys : Nat) : Desc where
  status := statusWord bufSize dmaOwn
  addr := BitVec.ofNat 32 bufPhys
  high := 0

def writeTxDesc (m : Mem) (index bufPhys len : Nat) (arm : Bool) : Mem :=
  { m with txRing := Function.update m.txRing index (txDesc bufPhys len arm) }

def writeRxDesc (m : Mem) (index bufPhys : Nat) : Mem :=
  { m with rxRing := Function.update m.rxRing index (rxDesc bufPhys) }

def readDescStatus (desc : Desc) : Half := (desc.status &&& 0xffff).setWidth 16

def write32 (m : Mem) (off : Nat) (value : Word) : Mem :=
  { m with regs := Function.update m.regs off value }

def tdmaRingWrite (m : Mem) (ring reg : Nat) (value : Word) : Mem :=
  write32 m (tdmaRegOff + ring * dmaRingSize + reg) value

def rdmaRingWrite (m : Mem) (ring reg : Nat) (value : Word) : Mem :=
  write32 m (rdmaRegOff + ring * dmaRingSize + reg) value

def ringSize : Word := BitVec.ofNat 32 numDesc <<< 16 ||| BitVec.ofNat 32 bufSize

def setupRing (write : Mem → Nat → Nat → Word → Mem) (m : Mem) : Mem :=
  let m := write m descRing prodIndex 0
  let m := write m descRing consIndex 0
  let m := write m descRing ringBufSize ringSize
  let m := write m descRing startAddr 0
  write m descRing endAddr (BitVec.ofNat 32 (numDesc * 12) - 1)

def setupDesc (dmaPaddr : Nat) (m : Mem) (i : Nat) : Mem :=
  writeRxDesc (writeTxDesc m i 0 0 false) i (dmaPaddr + rxBufOff i)

def setupRings (g : Genet) (m : Mem) : Genet × Mem :=
  let m := setupRing rdmaRingWrite (setupRing tdmaRingWrite m)
  let m := (List.range numDesc).foldl (setupDesc g.dmaPaddr) m
  let m := write32 m (rdmaGlobalOff + dmaCtrl) 1
  ({ g with txProd := 0, rxCons := 0 }, write32 m (tdmaGlobalOff + dmaCtrl) 1)

def transmit (g : Genet) (m : Mem) (buf : List UInt8) : Bool × Genet × Mem :=
  let index := g.txProd.toNat % numDesc
  if readDescStatus (m.txRing index) &&& dmaOwn ≠ 0 then (false, g, m)
  else
    let copyLen := min buf.length bufSize
    let m := { m with bytes := writeAt m.bytes (g.dmaPaddr + txBufOff index) (buf.take copyLen) }
    let m := writeTxDesc m index (g.dmaPaddr + txBufOff index) copyLen true
    let g := { g with txProd := g.txProd + 1 }
    (true, g, tdmaRingWrite m descRing prodIndex (g.txProd.setWidth 32))

def reclaim (acc : Nat × Mem) (i : Nat) : Nat × Mem :=
  let stat := readDescStatus (acc.2.txRing i)
  if stat ≠ 0 ∧ stat &&& dmaOwn = 0 then
    (acc.1 + 1, { acc.2 with txRing := Function.update acc.2.txRing i ⟨0, 0, 0⟩ })
  else acc

def checkTxCompletions (m : Mem) : Nat × Mem := (List.range numDesc).foldl reclaim (0, m)

/-- The slice that `receive` finds, by its address and length. -/
def receive (g : Genet) (m : Mem) : Option (Nat × Nat) × Genet × Mem :=
  let index := g.rxCons.toNat % numDesc
  let stat := readDescStatus (m.rxRing index)
  if stat &&& dmaOwn ≠ 0 ∨ stat = 0 then (none, g, m)
  else
    let len := min (stat &&& dmaBuflengthMask).toNat bufSize
    if len = 0 then (none, g, m)
    else
      let m := writeRxDesc m index (g.dmaPaddr + rxBufOff index)
      let g := { g with rxCons := g.rxCons + 1 }
      (some (g.dmaPaddr + rxBufOff index, len), g,
        rdmaRingWrite m descRing consIndex (g.rxCons.setWidth 32))

/-! ### The system -/

structure State where
  genet : Genet
  mem : Mem
  slice : Option (Nat × Nat) := none
  accepted : List (List UInt8) := []
  sent : List (List UInt8) := []
  received : List (List UInt8) := []
  delivered : List (List UInt8) := []
  missed : Nat := 0

inductive Action
  | transmit (buf : List UInt8)
  | checkTxCompletions
  | receive
  | copy
  | send
  | store (frame : List UInt8)

/-- The controller has the descriptor. -/
def Desc.owned (desc : Desc) : Bool := decide (desc.status &&& dmaOwn.setWidth 32 ≠ 0)

/-- The length that the controller reads from a status word. -/
def Desc.len (desc : Desc) : Nat := (desc.status >>> 16).toNat

/-- The controller hands a descriptor back with the length and the flags of a whole frame. -/
def Desc.finish (desc : Desc) (len : Nat) : Desc :=
  { desc with status := statusWord len (dmaSop ||| dmaEop) }

/-- The driver calls while it has lent no slice, and the controller takes the descriptors of each
ring in order. -/
def step (s : State) : Action → Option State
  | .transmit buf =>
    if s.slice = none then
      let (ok, genet, mem) := transmit s.genet s.mem buf
      some { s with genet, mem, accepted := if ok then s.accepted ++ [buf] else s.accepted }
    else none
  | .checkTxCompletions =>
    if s.slice = none then some { s with mem := (checkTxCompletions s.mem).2 } else none
  | .receive =>
    if s.slice = none then
      let (slice, genet, mem) := receive s.genet s.mem
      let missed := if slice = none ∧ s.delivered.length < s.received.length then s.missed + 1 else s.missed
      some { s with genet, mem, slice, missed }
    else none
  | .copy =>
    match s.slice with
    | some (addr, len) => some { s with slice := none, delivered := s.delivered ++
      [readAt s.mem.bytes addr len] }
    | none => none
  | .send =>
    let index := s.sent.length % numDesc
    let desc := s.mem.txRing index
    if desc.owned then
      some { s with
        mem := { s.mem with txRing := Function.update s.mem.txRing index (desc.finish desc.len) }
        sent := s.sent ++ [readAt s.mem.bytes desc.addr.toNat desc.len] }
    else none
  | .store frame =>
    let index := s.received.length % numDesc
    let desc := s.mem.rxRing index
    if desc.owned ∧ frame.length ≤ 1536 then
      some { s with
        mem := { s.mem with
          rxRing := Function.update s.mem.rxRing index (desc.finish frame.length)
          bytes := writeAt s.mem.bytes desc.addr.toNat frame }
        received := s.received ++ [frame] }
    else none

/-- The rings are set up over any memory. -/
def start (dmaPaddr : Nat) (m : Mem) : State :=
  let (genet, mem) := setupRings ⟨dmaPaddr, 0, 0⟩ m
  { genet, mem }

end Lerux.Bcm2711
