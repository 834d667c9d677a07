import Lerux.Base.Bytes
import Lerux.Base.Conc

/-!
# The receive rings of the MT7921 driver

`device.rs` gives the radio three receive rings of eight descriptors, each with seven buffers. The
radio fills the descriptors of a ring from its own index up to the CPU index; `poll_rx` looks at the
descriptor at the tail, copies its frame, posts the buffer again in the descriptor at the head and
moves both on. One descriptor of a ring is always left out: it keeps the `DMA_DONE` of an earlier
lap, or the one that `program` wrote.

The driver and the radio at each ring are threads over the memory they share, and every access of
one of them is a step. The window is the descriptors and the bytes by their offset. `RingMem` also
keeps what has happened at its ring: the frames that were received, copied and returned, and how
often `poll_rx` has misjudged whether a frame was waiting.
-/

namespace Lerux.Mt7921

open Lerux.Base

abbrev Word := BitVec 32

def dmaPhys : Word := 0x01f60000
def ringN : Nat := 8
def buf : Nat := 2048

def dmaDone : Word := 1 <<< 31
def lastSec0 : Word := 1 <<< 30

inductive Which
  | evt
  | data
  | wa
  deriving DecidableEq

/-- The offset of a ring's descriptors. -/
def Which.desc : Which → Nat
  | evt => 0x3000
  | data => 0x4000
  | wa => 0x5000

/-- The offset of a ring's buffers. -/
def Which.bufs : Which → Nat
  | evt => 0x7000
  | data => 0xb000
  | wa => 0xf000

structure Desc where
  buf0 : Word
  ctrl : Word
  buf1 : Word
  info : Word

def descCtrl (len : Nat) (last : Bool) : Word :=
  let ctrl := (BitVec.ofNat 32 len &&& 0x3fff) <<< 16
  if last then ctrl ||| lastSec0 else ctrl

def descLen (ctrl : Word) : Nat := ((ctrl >>> 16) &&& 0x3fff).toNat

/-- A frame with the control and the information word that the radio writes for it. -/
structure Frame where
  raw : List UInt8
  ctrl : Word
  info : Word

/-- The radio says how long the frame is, and that it is done. -/
structure Frame.Ok (frame : Frame) : Prop where
  length : frame.raw.length ≤ buf
  done : frame.ctrl &&& dmaDone ≠ 0
  len : descLen frame.ctrl = frame.raw.length

/-- The registers of a ring, its descriptors, and the driver's head and tail. -/
structure RingMem where
  base : Word
  size : Nat
  cpu : Nat
  dma : Nat
  descs : Nat → Desc
  head : Nat
  tail : Nat
  received : List Frame
  copied : List (List UInt8)
  returned : List (List UInt8)
  misjudged : Nat

structure Mem where
  ring : Which → RingMem
  bytes : Nat → UInt8

/-! ### Setting up -/

def descWrite (r : RingMem) (idx : Nat) (buf0 ctrl buf1 info : Word) : RingMem :=
  { r with descs := Function.update r.descs idx ⟨buf0, ctrl, buf1, info⟩ }

def program (desc count : Nat) (r : RingMem) : RingMem :=
  let r := (List.range count).foldl (fun r i => descWrite r i 0 dmaDone 0 0) r
  { r with cpu := 0, dma := 0, base := dmaPhys + BitVec.ofNat 32 desc, size := count }

/-- The address of a buffer of a ring. -/
def bufPhys (bufs i : Nat) : Word := dmaPhys + BitVec.ofNat 32 bufs +
    BitVec.ofNat 32 i * BitVec.ofNat 32 buf

def fillRx (bufs : Nat) (r : RingMem) : RingMem :=
  let r := (List.range (ringN - 1)).foldl (fun r i => descWrite r i (bufPhys bufs i)
    (descCtrl buf false) 0 0) r
  { r with cpu := ringN - 1 }

def bind (desc head count : Nat) (r : RingMem) : RingMem :=
  { r with base := dmaPhys + BitVec.ofNat 32 desc, size := count, cpu := head }

/-- A ring as `start` leaves it. -/
def startRing (w : Which) (r : RingMem) : RingMem :=
  let r := fillRx w.bufs (program w.desc ringN r)
  bind w.desc (ringN - 1) ringN { r with head := ringN - 1 }

/-! ### The driver -/

inductive Op
  | next
  | fields (w : Which)
  | readCtrl (w : Which) (idx : Nat)
  | readBuf0 (w : Which) (idx : Nat)
  | copyOut (w : Which) (off n : Nat)
  | writeBuf0 (w : Which) (idx : Nat) (value : Word)
  | writeBuf1 (w : Which) (idx : Nat) (value : Word)
  | writeInfo (w : Which) (idx : Nat) (value : Word)
  | writeCtrl (w : Which) (idx : Nat) (value : Word)
  | advance (w : Which) (head tail : Nat)
  | kick (w : Which) (head : Nat)
  | reply (w : Which) (got : Option (List UInt8))
  | land
  | finish (frame : Frame)

def Op.Res : Op → Type
  | next => Which
  | fields _ => Nat × Nat
  | readCtrl _ _ => Word
  | readBuf0 _ _ => Word
  | copyOut _ _ _ => List UInt8
  | land => Frame
  | _ => Unit

def sig : Sig := ⟨Op, Op.Res⟩

abbrev Code := Prog sig

def op (o : Op) : Code o.Res := Prog.op (S := sig) o

/-- `poll_rx`, with the bytes that it leaves in the scratch buffer. -/
def pollRx (w : Which) : Code (Option (List UInt8)) := do
  let (head, tail) : Nat × Nat ← op (.fields w)
  let ctrl : Word ← op (.readCtrl w tail)
  if ctrl &&& dmaDone = 0 then return none
  else
    let len := descLen ctrl
    let phys : Word ← op (.readBuf0 w tail)
    let off := (phys - dmaPhys).toNat
    let n := min len buf
    let got : List UInt8 ← op (.copyOut w off n)
    let _ : Unit ← op (.writeBuf0 w head phys)
    let _ : Unit ← op (.writeBuf1 w head 0)
    let _ : Unit ← op (.writeInfo w head 0)
    let _ : Unit ← op (.writeCtrl w head (descCtrl buf false))
    let _ : Unit ← op (.advance w ((head + 1) % ringN) ((tail + 1) % ringN))
    let _ : Unit ← op (.kick w ((head + 1) % ringN))
    return some got

/-- The driver polls one ring after the other, in any order. -/
def driverLoop : Code Empty :=
  Prog.forever do
    let w : Which ← op .next
    let got ← pollRx w
    op (.reply w got)

/-! ### The radio -/

def radioLoop : Code Empty :=
  Prog.forever do
    let frame : Frame ← op .land
    op (.finish frame)

inductive Party
  | driver
  | radio (w : Which)
  deriving DecidableEq

def Mem.set (m : Mem) (w : Which) (r : RingMem) : Mem := { m with ring := Function.update m.ring w r }

/-- What an access of the driver does to its ring. -/
inductive RingDoes (bytes : Nat → UInt8) : Which → RingMem → (o : Op) → o.Res → RingMem → Prop
  | fields (w : Which) (r : RingMem) : RingDoes bytes w r (.fields w) (r.head, r.tail) r
  | readCtrl (w : Which) (r : RingMem) (idx : Nat) :
    RingDoes bytes w r (.readCtrl w idx) (r.descs idx).ctrl
      { r with misjudged := r.misjudged +
        if ((r.descs idx).ctrl &&& dmaDone ≠ 0 ↔ r.copied.length < r.received.length) then 0 else 1 }
  | readBuf0 (w : Which) (r : RingMem) (idx : Nat) : RingDoes bytes w r (.readBuf0 w idx)
      (r.descs idx).buf0 r
  | copyOut (w : Which) (r : RingMem) (off n : Nat) :
    RingDoes bytes w r (.copyOut w off n) (readAt bytes off n)
      { r with copied := r.copied ++ [readAt bytes off n] }
  | writeBuf0 (w : Which) (r : RingMem) (idx : Nat) (value : Word) :
    RingDoes bytes w r (.writeBuf0 w idx value) ()
      { r with descs := Function.update r.descs idx { r.descs idx with buf0 := value } }
  | writeBuf1 (w : Which) (r : RingMem) (idx : Nat) (value : Word) :
    RingDoes bytes w r (.writeBuf1 w idx value) ()
      { r with descs := Function.update r.descs idx { r.descs idx with buf1 := value } }
  | writeInfo (w : Which) (r : RingMem) (idx : Nat) (value : Word) :
    RingDoes bytes w r (.writeInfo w idx value) ()
      { r with descs := Function.update r.descs idx { r.descs idx with info := value } }
  | writeCtrl (w : Which) (r : RingMem) (idx : Nat) (value : Word) :
    RingDoes bytes w r (.writeCtrl w idx value) ()
      { r with descs := Function.update r.descs idx { r.descs idx with ctrl := value } }
  | advance (w : Which) (r : RingMem) (head tail : Nat) :
    RingDoes bytes w r (.advance w head tail) () { r with head, tail }
  | kick (w : Which) (r : RingMem) (head : Nat) : RingDoes bytes w r (.kick w head) ()
      { r with cpu := head }
  | reply (w : Which) (r : RingMem) (got : Option (List UInt8)) :
    RingDoes bytes w r (.reply w got) () { r with returned := r.returned ++ got.toList }

/-- One access. The radio resolves an address in the window to its offset. -/
inductive Does : Party → Mem → (o : Op) → o.Res → Mem → Prop
  | next (m : Mem) (w : Which) : Does .driver m .next w m
  | ring (m : Mem) (w : Which) {o : Op} {res : o.Res} {r : RingMem}
      (h : RingDoes m.bytes w (m.ring w) o res r) :
    Does .driver m o res (m.set w r)
  | land (m : Mem) (w : Which) (frame : Frame) (hne : (m.ring w).dma ≠ (m.ring w).cpu) (hframe : frame.Ok) :
    Does (.radio w) m .land frame
      { m with bytes := writeAt m.bytes (((m.ring w).descs (m.ring w).dma).buf0 - dmaPhys).toNat frame.raw }
  | finish (m : Mem) (w : Which) (frame : Frame) :
    Does (.radio w) m (.finish frame) ()
      (m.set w { m.ring w with
        descs := Function.update (m.ring w).descs (m.ring w).dma
          { (m.ring w).descs (m.ring w).dma with ctrl := frame.ctrl, info := frame.info }
        dma := ((m.ring w).dma + 1) % ringN
        received := (m.ring w).received ++ [frame] })

abbrev System := State Party sig Mem

/-- The rings are set up over any memory, and nothing has happened yet. -/
def start (m : Mem) : System where
  prog
    | .driver => driverLoop
    | .radio _ => radioLoop
  mem := { ring := fun w => startRing w { m.ring w with
      head := 0, tail := 0, received := [], copied := [], returned := [], misjudged := 0 }, bytes := fun _ => 0 }

/-- The states of a run from there, in any order of steps. -/
def Reachable (m : Mem) (s : System) : Prop := Reach Does (fun _ _ => True) (start m) s

end Lerux.Mt7921
