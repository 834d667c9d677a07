import Lerux.Base.Bytes
import Lerux.Base.Conc

/-!
# The descriptor rings of the 82574 driver

`engine.rs` shares two rings of descriptors and their buffers with the network card. The driver runs
its calls of `submit_tx` and `copy_rx` in any order; the card sends what the transmit descriptors
from its head up to TDT name, and fills the receive descriptors from its head up to RDT. The driver,
the sending side of the card and its receiving side are threads over the memory they share, and
every access of one of them is a step.

The window of the driver is its two rings and the bytes of its buffers, by their offset. `Mem` also
keeps what has happened: the frames that `submit_tx` has accepted and the card has sent, those that
the card has received and `copy_rx` has copied and returned, and how often TDT, a transmit DD and
RDT were written.
-/

namespace Lerux.E1000e

open Lerux.Base

def bufSize : Nat := 2048
def ringLen : Nat := 32
def ringMask : Nat := ringLen - 1

def txCmdEop : UInt8 := 0x01
def txCmdIfcs : UInt8 := 0x02
def txCmdRs : UInt8 := 0x08
def txDd : UInt8 := 0x01
def rxDd : UInt8 := 0x01
def rxEop : UInt8 := 0x02

/-- The offsets of the buffers in the window. -/
def txBufs : Nat := 0x2000
def rxBufs : Nat := 0x12000

structure TxDesc where
  addr : Nat
  length : Nat
  cso : UInt8
  cmd : UInt8
  status : UInt8
  css : UInt8
  special : Nat

structure RxDesc where
  addr : Nat
  length : Nat
  csum : Nat
  status : UInt8
  errors : UInt8
  special : Nat

/-- A frame as the card stores it, with the checksum behind it if the card leaves it in. -/
structure RxFrame where
  raw : List UInt8
  csum : Nat
  errors : UInt8
  special : Nat

structure Engine where
  dmaPaddr : Nat
  txTail : Nat
  txClean : Nat
  rxNext : Nat
  crcInLength : Bool

/-! ### The memory -/

structure Mem where
  txRing : Nat → TxDesc
  rxRing : Nat → RxDesc
  bytes : Nat → UInt8
  tdh : Nat
  tdt : Nat
  rdh : Nat
  rdt : Nat
  accepted : List (List UInt8)
  sent : List (List UInt8)
  received : List RxFrame
  copied : List (List UInt8)
  returned : List (List UInt8)
  rung : Nat
  done : Nat
  handed : Nat

def nextIndex (index : Nat) : Nat := (index + 1) &&& ringMask

def bufPhys (dmaPaddr baseOff index : Nat) : Nat := dmaPaddr + baseOff + index * bufSize

/-- The offset of a buffer. -/
def bufPtr (baseOff index : Nat) : Nat := baseOff + index * bufSize

def zeroTx : TxDesc := ⟨0, 0, 0, 0, 0, 0, 0⟩

def filledTx (dmaPaddr index : Nat) (frame : List UInt8) : TxDesc :=
  { addr := bufPhys dmaPaddr txBufs index, length := frame.length, cso := 0,
    cmd := txCmdEop ||| txCmdIfcs ||| txCmdRs
    status := 0, css := 0, special := 0 }

def emptyRx (dmaPaddr index : Nat) : RxDesc :=
  { addr := bufPhys dmaPaddr rxBufs index, length := 0, csum := 0, status := 0, errors := 0, special := 0 }

def fillRxRing (dmaPaddr : Nat) (m : Mem) : Mem :=
  (List.range ringLen).foldl
    (fun m slot => { m with rxRing := Function.update m.rxRing slot (emptyRx dmaPaddr slot) }) m

def armRings (m : Mem) : Mem := { m with rdh := 0, tdh := 0, tdt := 0, rdt := ringMask }

def publishRings (dmaPaddr : Nat) (m : Mem) : Mem :=
  armRings (fillRxRing dmaPaddr
    { m with txRing := fun _ => zeroTx, rxRing := fun _ => ⟨0, 0, 0, 0, 0, 0⟩, bytes := fun _ => 0 })

/-! ### The driver -/

/-- What the driver is called for. -/
inductive Request
  | submit (frame : List UInt8)
  | receive

inductive Op
  | next
  | readTx (index : Nat)
  | accept (frame : List UInt8)
  | copyIn (index : Nat) (frame : List UInt8)
  | writeTx (index : Nat) (desc : TxDesc)
  | writeTdt (value : Nat)
  | readRx (index : Nat)
  | copyOut (index len : Nat)
  | writeRx (index : Nat) (desc : RxDesc)
  | writeRdt (value : Nat)
  | reply (got : Option (List UInt8))
  | send
  | setDone
  | land
  | finish (frame : RxFrame)

def Op.Res : Op → Type
  | next => Request
  | readTx _ => TxDesc
  | readRx _ => RxDesc
  | copyOut _ _ => List UInt8
  | land => RxFrame
  | _ => Unit

def sig : Sig := ⟨Op, Op.Res⟩

abbrev Code := Prog sig

def op (o : Op) : Code o.Res := Prog.op (S := sig) o

def reclaimTx (e : Engine) : Code Engine :=
  Prog.iterate e fun e =>
    if e.txClean ≠ e.txTail then do
      let header : TxDesc ← op (.readTx e.txClean)
      if header.status &&& txDd = 0 then return .inr e
      else return .inl { e with txClean := nextIndex e.txClean }
    else return .inr e

/-- `submit_tx`. The frame counts as accepted when it passes the checks. -/
def submitTx (e : Engine) (frame : List UInt8) : Code Engine := do
  let e ← reclaimTx e
  if 65535 < frame.length then return e
  else if frame.length = 0 ∨ bufSize < frame.length then return e
  else if nextIndex e.txTail = e.txClean then return e
  else
    let index := e.txTail
    let _ : Unit ← op (.accept frame)
    let _ : Unit ← op (.copyIn index frame)
    let _ : Unit ← op (.writeTx index (filledTx e.dmaPaddr index frame))
    let e := { e with txTail := nextIndex index }
    let _ : Unit ← op (.writeTdt e.txTail)
    return e

def frameLen (e : Engine) (raw : Nat) : Option Nat :=
  if e.crcInLength then
    if raw < 4 then none else if raw - 4 = 0 then none else some (raw - 4)
  else if raw = 0 then none
  else some raw

def publishable (e : Engine) (header : RxDesc) (dstLen : Nat) : Option Nat :=
  if header.status &&& rxEop = 0 ∨ header.errors ≠ 0 then none
  else do
    let len ← frameLen e header.length
    if dstLen < len ∨ bufSize < len then none else some len

def retireRx (e : Engine) (index : Nat) : Code Engine := do
  let _ : Unit ← op (.writeRx index (emptyRx e.dmaPaddr index))
  let _ : Unit ← op (.writeRdt index)
  return { e with rxNext := nextIndex index }

/-- `copy_rx`, into a buffer of `dstLen` bytes. -/
def copyRx (e : Engine) (dstLen : Nat) : Code (Option (List UInt8) × Engine) :=
  Prog.iterate e fun e => do
    let index := e.rxNext
    let header : RxDesc ← op (.readRx index)
    if header.status &&& rxDd = 0 then return .inr (none, e)
    else
      match publishable e header dstLen with
      | some len =>
        let got : List UInt8 ← op (.copyOut index len)
        let e ← retireRx e index
        return .inr (some got, e)
      | none =>
        let e ← retireRx e index
        return .inl e

/-- The driver takes one call after the other. The buffers of `receive` have `NET_BUFFER_SIZE`
bytes, which is `BUF_SIZE`. -/
def driverLoop (e : Engine) : Code Empty :=
  Prog.iterate e fun e => do
    let request : Request ← op .next
    match request with
    | .submit frame =>
      let e ← submitTx e frame
      return .inl e
    | .receive =>
      let (got, e) ← copyRx e bufSize
      let _ : Unit ← op (.reply got)
      return .inl e

/-! ### The card -/

def senderLoop : Code Empty :=
  Prog.forever do
    let _ : Unit ← op .send
    op .setDone

def receiverLoop : Code Empty :=
  Prog.forever do
    let frame : RxFrame ← op .land
    op (.finish frame)

inductive Party
  | driver
  | sender
  | receiver
  deriving DecidableEq

/-- What a filled receive descriptor says. -/
def filledRx (addr : Nat) (frame : RxFrame) : RxDesc :=
  { addr, length := frame.raw.length, csum := frame.csum, status := rxDd ||| rxEop, errors := frame.errors
    special := frame.special }

/-- One access. The card resolves an address in the window to its offset. -/
inductive Does (dmaPaddr : Nat) : Party → Mem → (o : Op) → o.Res → Mem → Prop
  | next (m : Mem) (r : Request) : Does dmaPaddr .driver m .next r m
  | readTx (m : Mem) (index : Nat) : Does dmaPaddr .driver m (.readTx index) (m.txRing index) m
  | accept (m : Mem) (frame : List UInt8) :
    Does dmaPaddr .driver m (.accept frame) () { m with accepted := m.accepted ++ [frame] }
  | copyIn (m : Mem) (index : Nat) (frame : List UInt8) :
    Does dmaPaddr .driver m (.copyIn index frame) ()
      { m with bytes := writeAt m.bytes (bufPtr txBufs index) frame }
  | writeTx (m : Mem) (index : Nat) (desc : TxDesc) :
    Does dmaPaddr .driver m (.writeTx index desc) ()
      { m with txRing := Function.update m.txRing index desc }
  | writeTdt (m : Mem) (value : Nat) :
    Does dmaPaddr .driver m (.writeTdt value) () { m with tdt := value, rung := m.rung + 1 }
  | readRx (m : Mem) (index : Nat) : Does dmaPaddr .driver m (.readRx index) (m.rxRing index) m
  | copyOut (m : Mem) (index len : Nat) :
    Does dmaPaddr .driver m (.copyOut index len) (readAt m.bytes (bufPtr rxBufs index) len)
      { m with copied := m.copied ++ [readAt m.bytes (bufPtr rxBufs index) len] }
  | writeRx (m : Mem) (index : Nat) (desc : RxDesc) :
    Does dmaPaddr .driver m (.writeRx index desc) ()
      { m with rxRing := Function.update m.rxRing index desc }
  | writeRdt (m : Mem) (value : Nat) :
    Does dmaPaddr .driver m (.writeRdt value) () { m with rdt := value, handed := m.handed + 1 }
  | reply (m : Mem) (got : Option (List UInt8)) :
    Does dmaPaddr .driver m (.reply got) () { m with returned := m.returned ++ got.toList }
  | send (m : Mem) (hne : m.tdh ≠ m.tdt) :
    Does dmaPaddr .sender m .send ()
      { m with sent := m.sent ++ [readAt m.bytes ((m.txRing m.tdh).addr - dmaPaddr)
        (m.txRing m.tdh).length] }
  | setDone (m : Mem) :
    Does dmaPaddr .sender m .setDone ()
      { m with
        txRing := Function.update m.txRing m.tdh { m.txRing m.tdh with status :=
          (m.txRing m.tdh).status ||| txDd }
        tdh := (m.tdh + 1) % ringLen
        done := m.done + 1 }
  | land (m : Mem) (frame : RxFrame) (hne : m.rdh ≠ m.rdt) (hlen : frame.raw.length ≤ bufSize) :
    Does dmaPaddr .receiver m .land frame
      { m with bytes := writeAt m.bytes ((m.rxRing m.rdh).addr - dmaPaddr) frame.raw }
  | finish (m : Mem) (frame : RxFrame) :
    Does dmaPaddr .receiver m (.finish frame) ()
      { m with
        rxRing := Function.update m.rxRing m.rdh (filledRx (m.rxRing m.rdh).addr frame)
        rdh := (m.rdh + 1) % ringLen
        received := m.received ++ [frame] }

abbrev System := State Party sig Mem

/-- The engine behind `publish_rings`. The card keeps the checksum of a frame if `crc`. -/
def openEngine (dmaPaddr : Nat) (crc : Bool) : Engine := ⟨dmaPaddr, 0, 0, 0, crc⟩

/-- The rings are published over any memory, and nothing has happened yet. -/
def start (dmaPaddr : Nat) (crc : Bool) (m : Mem) : System where
  prog
    | .driver => driverLoop (openEngine dmaPaddr crc)
    | .sender => senderLoop
    | .receiver => receiverLoop
  mem := { publishRings dmaPaddr m with
    accepted := [], sent := [], received := [], copied := [], returned := [], rung := 0, done :=
      0, handed := 0 }

/-- The states of a run from there, in any order of steps. -/
def Reachable (dmaPaddr : Nat) (crc : Bool) (m : Mem) (s : System) : Prop :=
  Reach (Does dmaPaddr) (fun _ _ => True) (start dmaPaddr crc m) s

end Lerux.E1000e
