import Lerux.Mt7921.Receive

/-!
# The transmit rings of the MT7921 driver

`device.rs` posts one transmit at a time. Commands and firmware chunks are copied into one bounce
buffer, whichever of their two rings they go to; a frame has its descriptor words in one buffer and
its bytes in another. The driver writes the descriptor at the head, reads the radio's index, rings
the doorbell and waits until the index is another one, or until it has looked often enough.

The driver and the radio at each ring are threads over the memory they share. The radio reads a
descriptor and what it names at one moment (`look`), and moves its index on later. `TxMem` also
keeps what the radio would have read of each descriptor when the doorbell was rung and what it has
read, `Mem` which descriptors the current call has posted, and how often a call has returned true
while one of its descriptors was not taken.
-/

namespace Lerux.Mt7921.Transmit

open Lerux.Base

def mcuN : Nat := 256
def bounce : Nat := 4096
def mcuTxdLen : Nat := 64
def txdLen : Nat := 32
def txpLen : Nat := 32
def scanReqLen : Nat := 1186
@[irreducible] def mcuSpin : Nat := 40000000

def fwScatter : Word := 0xee
def extCid : Word := 0xed
def ce : Word := 1 <<< 18
def query : Word := 1 <<< 16

def extCmd (id : Word) : Word := extCid ||| id <<< 8

def ceCmd (id : Word) : Word := id ||| ce

/-! ### What is written -/

/-- Some bytes of a buffer are replaced. -/
def put (out : List UInt8) (at_ : Nat) (data : List UInt8) : List UInt8 :=
  out.mapIdx fun i byte => if at_ ≤ i ∧ i < at_ + data.length then data.getD (i - at_) 0 else byte

def le16 (value : Nat) : List UInt8 := [UInt8.ofNat value, UInt8.ofNat (value / 2 ^ 8)]

def le32 (value : Word) : List UInt8 :=
  [UInt8.ofNat value.toNat, UInt8.ofNat (value.toNat / 2 ^ 8), UInt8.ofNat (value.toNat / 2 ^ 16),
    UInt8.ofNat (value.toNat / 2 ^ 24)]

/-- `write_mcu_txd`, into a buffer of its own length. -/
def writeMcuTxd (cmd : Word) (seq payload : Nat) : List UInt8 :=
  let total := mcuTxdLen + payload
  let tx0 : Word := BitVec.ofNat 32 (total % 2 ^ 16) ||| (2 : Word) <<< 23 ||| (0x20 : Word) <<< 25
  let tx1 : Word := (1 : Word) <<< 31 ||| (1 : Word) <<< 16
  let body := (mcuTxdLen - txdLen + payload) % 2 ^ 16
  let out := List.replicate mcuTxdLen 0
  let out := put (put out 0 (le32 tx0)) 4 (le32 tx1)
  let out := put out 32 (le16 body)
  let out := put out 34 (le16 (1 <<< 15 ||| 0x20 <<< 10))
  let out := put out 36 [UInt8.ofNat (cmd &&& 0xff).toNat, 0xa0]
  let ext := ((cmd >>> 8) &&& 0xff).toNat
  let out :=
    if ext ≠ 0 ∨ cmd &&& ce ≠ 0 then
      put (put out 38 [if cmd &&& query = 0 then 1 else 0]) 43 [if ext ≠ 0 then 1 else 0]
    else put out 38 [3]
  put (put (put out 39 [UInt8.ofNat seq]) 41 [UInt8.ofNat ext]) 42 [0]

def scanChannels : List (UInt8 × UInt8) :=
  [(1, 1), (1, 2), (1, 3), (1, 4), (1, 5), (1, 6), (1, 7), (1, 8), (1, 9), (1, 10), (1, 11),
    (1, 12), (1, 13), (2, 36), (2, 40),
    (2, 44), (2, 48), (2, 149), (2, 153), (2, 157), (2, 161)]

def writeScan (ssid : List UInt8) (seq : Nat) : Option (List UInt8) :=
  if ssid.length = 0 ∨ 32 < ssid.length then none
  else
    let out := List.replicate scanReqLen 0
    let out := put out 0 [UInt8.ofNat (seq &&& 0x7f), 0, 1, (1 : UInt8) <<< 2, 1, 2, (1 : UInt8) <<< 5, 1]
    let out := put (put out 8 (le32 (BitVec.ofNat 32 ssid.length))) 12 ssid
    let base := 8 + 4 * 36 + 6
    let out := put out base [4, UInt8.ofNat scanChannels.length]
    let out := put out (base + 2) (scanChannels.flatMap fun (band, ch) => [band, ch])
    let afterIes := base + 2 + 32 * 2 + 2 + 600
    let out := put out (afterIes + 2) [0, 0]
    let bssidAt := afterIes + 4 + 32 * 2 + 6 * 36
    let out := put out bssidAt (List.replicate 6 0xff)
    let extFlag := bssidAt + 12 + 63
    some (if extFlag < scanReqLen then put out extFlag [1] else out)

def writeChan (channel band : UInt8) : List UInt8 :=
  put (put (List.replicate 76 0) 0 [channel, channel, 0, 1, 1]) 10 [band]

def headerLen (frame : List UInt8) : Nat := if frame.getD 0 0 &&& 0x80 ≠ 0 then 26 else 24

def writeTxd (txwi frame : List UInt8) : List UInt8 :=
  let total := frame.length + txdLen
  let tx0 : Word := BitVec.ofNat 32 (total % 2 ^ 16) ||| (2 : Word) <<< 23 ||| (0x10 : Word) <<< 25
  let fc : Word := BitVec.ofNat 32 ((frame.getD 0 0).toNat + (frame.getD 1 0).toNat * 2 ^ 8)
  let fcKind := (fc &&& 0x000c) >>> 2
  let subtype := (fc &&& 0x00f0) >>> 4
  let tx1 : Word := (1 : Word) <<< 31 ||| BitVec.ofNat 32 (headerLen frame / 2) <<< 11 ||| (2 : Word) <<< 16
  let multicast := frame.getD 4 0 &&& 1 ≠ 0
  let tx2 := fcKind <<< 4 ||| subtype
  let tx2 := if multicast then tx2 ||| (1 : Word) <<< 10 else tx2
  let tx2 := if ¬fc &&& 0x000c = 0x0008 ∨ multicast then
    tx2 ||| (1 : Word) <<< 31 ||| (1 : Word) <<< 13 else tx2
  let tx3 : Word := (15 : Word) <<< 11
  let tx3 := if multicast then tx3 ||| 1 else tx3
  let out := put (put (put txwi 0 (le32 tx0)) 4 (le32 tx1)) 8 (le32 tx2)
  let fixed := tx2 &&& (1 : Word) <<< 31 ≠ 0
  let out := if fixed then put out 24 (le32 ((1 : Word) <<< 2 ||| (0x40 : Word) <<< 16)) else out
  let tx3 := if fixed then tx3 ||| (1 : Word) <<< 28 else tx3
  put (put out 12 (le32 tx3)) 28 (le32 (fcKind <<< 20 ||| subtype <<< 16))

def writeTxwi (frame : List UInt8) (framePhys : Word) : Option (List UInt8) :=
  if frame.length < 24 ∨ 0x3fff < frame.length then none
  else
    let out := writeTxd (List.replicate (txdLen + txpLen) 0) frame
    let out := put (put out 32 (le16 0x8000)) 40 (le32 framePhys)
    some (put out 44 (le16 (frame.length ||| 0x8000)))

/-! ### The rings and the buffers -/

inductive Tx
  | data
  | fwdl
  | mcu
  deriving DecidableEq

def Tx.count : Tx → Nat
  | data => ringN
  | fwdl => ringN
  | mcu => mcuN

inductive Buffer
  | bounce
  | txwi
  | frame
  deriving DecidableEq

def Buffer.off : Buffer → Nat
  | bounce => 0x6000
  | txwi => 0x13000
  | frame => 0x14000

/-- The rings whose descriptors name the buffer. -/
def Buffer.shares : Buffer → Tx → Prop
  | bounce, .fwdl => True
  | bounce, .mcu => True
  | txwi, .data => True
  | frame, .data => True
  | _, _ => False

/-- What the radio reads for a descriptor: its words, the buffer that they name and, for a frame,
the frame buffer. -/
structure Post where
  desc : Desc
  data : List UInt8
  frame : List UInt8

structure TxMem where
  cpu : Nat
  dma : Nat
  descs : Nat → Desc
  posted : List Post
  taken : List Post
  advanced : Nat

structure Mem where
  ring : Tx → TxMem
  bytes : Nat → UInt8
  mine : List (Tx × Nat)
  early : Nat

def Mem.set (m : Mem) (t : Tx) (c : TxMem) : Mem := { m with ring := Function.update m.ring t c }

def lookAt (bytes : Nat → UInt8) (t : Tx) (desc : Desc) : Post where
  desc := desc
  data := readAt bytes (desc.buf0 - dmaPhys).toNat (descLen desc.ctrl)
  frame := if t = .data then readAt bytes Buffer.frame.off buf else []

/-! ### The driver -/

inductive Call
  | command (cmd : Word) (payload : List UInt8) (wait : Bool)
  | scatter (chunk : List UInt8)
  | startScan (ssid : List UInt8)
  | setChannel (channel band : UInt8)
  | tx80211 (frame : List UInt8)

inductive Op
  | next
  | fill (b : Buffer) (data : List UInt8)
  | descWrite (t : Tx) (idx : Nat) (desc : Desc)
  | dmaIdx (t : Tx)
  | kick (t : Tx) (next : Nat)
  | readCtrl (t : Tx) (idx : Nat)
  | waitSeq (seq : Nat)
  | reply (ok : Bool)
  | take
  | advance

def Op.Res : Op → Type
  | next => Call
  | dmaIdx _ => Nat
  | readCtrl _ _ => Word
  | waitSeq _ => Bool
  | _ => Unit

def sig : Sig := ⟨Op, Op.Res⟩

abbrev Code := Prog sig

def op (o : Op) : Code o.Res := Prog.op (S := sig) o

structure Mac where
  heads : Tx → Nat
  seq : Nat

def nextSeq (mac : Mac) : Mac :=
  let seq := (mac.seq + 1) &&& 0xf
  { mac with seq := if seq = 0 then 1 else seq }

/-- `wait_done`, with the looks that are left. -/
def waitDone (t : Tx) (idx index : Nat) : Nat → Code Bool
  | 0 => return false
  | spins + 1 => do
    let ctrl : Word ← op (.readCtrl t idx)
    if ctrl &&& dmaDone ≠ 0 then return true
    else
      let now : Nat ← op (.dmaIdx t)
      if now ≠ index then return true else waitDone t idx index spins

def postTx (mac : Mac) (t : Tx) (b : Buffer) (len : Nat) : Code (Bool × Mac) := do
  let head := mac.heads t
  let _ : Unit ← op (.descWrite t head ⟨dmaPhys + BitVec.ofNat 32 b.off, descCtrl len true, 0, 0⟩)
  let next := (head + 1) % t.count
  let mac := { mac with heads := Function.update mac.heads t next }
  let index : Nat ← op (.dmaIdx t)
  let _ : Unit ← op (.kick t next)
  let ok ← waitDone t head index mcuSpin
  return (ok, mac)

def txBounce (mac : Mac) (t : Tx) (data : List UInt8) : Code (Bool × Mac) := do
  let _ : Unit ← op (.fill .bounce data)
  postTx mac t .bounce data.length

def scatter (mac : Mac) (chunk : List UInt8) : Code (Bool × Mac) :=
  if bounce < chunk.length then return (false, mac) else txBounce mac .fwdl chunk

def postMcu (mac : Mac) (cmd : Word) (payload : List UInt8) : Code (Bool × Mac) :=
  let mac := nextSeq mac
  if bounce < mcuTxdLen + payload.length then return (false, mac)
  else txBounce mac .mcu (writeMcuTxd cmd mac.seq payload.length ++ payload)

def command (mac : Mac) (cmd : Word) (payload : List UInt8) (wait : Bool) : Code (Bool × Mac) :=
  if cmd &&& 0xff = fwScatter then scatter mac payload
  else do
    let (ok, mac) ← postMcu mac cmd payload
    if wait = false then return (ok, mac)
    else if ok = false then return (false, mac)
    else
      let answered : Bool ← op (.waitSeq mac.seq)
      return (answered, mac)

def startScan (mac : Mac) (ssid : List UInt8) : Code (Bool × Mac) :=
  let mac := nextSeq mac
  match writeScan ssid mac.seq with
  | none => return (false, mac)
  | some req => txBounce mac .mcu (writeMcuTxd (ceCmd 0x03) mac.seq scanReqLen ++ req)

@[irreducible] def setChannel (mac : Mac) (channel band : UInt8) : Code (Bool × Mac) := do
  let body := writeChan channel band
  let (ok, mac) ← command mac (extCmd 0x4e) body true
  if ok = false then return (false, mac) else command mac (extCmd 0x08) body true

def tx80211 (mac : Mac) (frame : List UInt8) : Code (Bool × Mac) :=
  if buf < frame.length + txdLen + txpLen then return (false, mac)
  else
    match writeTxwi frame (dmaPhys + BitVec.ofNat 32 Buffer.frame.off) with
    | none => return (false, mac)
    | some txwi => do
      let _ : Unit ← op (.fill .txwi txwi)
      let _ : Unit ← op (.fill .frame frame)
      postTx mac .data .txwi (txdLen + txpLen)

def Call.run (mac : Mac) : Call → Code (Bool × Mac)
  | command cmd payload wait => Transmit.command mac cmd payload wait
  | scatter chunk => Transmit.scatter mac chunk
  | startScan ssid => Transmit.startScan mac ssid
  | setChannel channel band => Transmit.setChannel mac channel band
  | tx80211 frame => Transmit.tx80211 mac frame

/-- The driver is called for one transmit after the other. -/
def driverLoop (mac : Mac) : Code Empty :=
  Prog.iterate mac fun mac => do
    let call : Call ← op .next
    let (ok, mac) ← call.run mac
    let _ : Unit ← op (.reply ok)
    return .inl mac

/-! ### The radio -/

def radioLoop : Code Empty :=
  Prog.forever do
    let _ : Unit ← op .take
    op .advance

inductive Party
  | driver
  | radio (t : Tx)
  deriving DecidableEq

/-- A descriptor of the current call that the radio has not taken. -/
def Mem.owes (m : Mem) : Bool := m.mine.any fun (t, n) => decide ((m.ring t).taken.length ≤ n)

inductive Does : Party → Mem → (o : Op) → o.Res → Mem → Prop
  | next (m : Mem) (call : Call) : Does .driver m .next call { m with mine := [] }
  | fill (m : Mem) (b : Buffer) (data : List UInt8) :
    Does .driver m (.fill b data) () { m with bytes := writeAt m.bytes b.off data }
  | descWrite (m : Mem) (t : Tx) (idx : Nat) (desc : Desc) :
    Does .driver m (.descWrite t idx desc) ()
      (m.set t { m.ring t with descs := Function.update (m.ring t).descs idx desc })
  | dmaIdx (m : Mem) (t : Tx) : Does .driver m (.dmaIdx t) ((m.ring t).dma % 2 ^ 8) m
  | kick (m : Mem) (t : Tx) (next : Nat) :
    Does .driver m (.kick t next) ()
      { m.set t { m.ring t with
          cpu := next
          posted := (m.ring t).posted ++ [lookAt m.bytes t
            ((m.ring t).descs ((m.ring t).posted.length % t.count))] } with
        mine := m.mine ++ [(t, (m.ring t).posted.length)] }
  | readCtrl (m : Mem) (t : Tx) (idx : Nat) : Does .driver m (.readCtrl t idx) ((m.ring t).descs idx).ctrl m
  | waitSeq (m : Mem) (seq : Nat) (answered : Bool) : Does .driver m (.waitSeq seq) answered m
  | reply (m : Mem) (ok : Bool) :
    Does .driver m (.reply ok) () { m with early := m.early + if ok && m.owes then 1 else 0 }
  | take (m : Mem) (t : Tx) (hne : (m.ring t).dma ≠ (m.ring t).cpu) :
    Does (.radio t) m .take ()
      (m.set t { m.ring t with
        taken := (m.ring t).taken ++ [lookAt m.bytes t ((m.ring t).descs (m.ring t).dma)] })
  | advance (m : Mem) (t : Tx) :
    Does (.radio t) m .advance ()
      (m.set t { m.ring t with dma := ((m.ring t).dma + 1) % t.count, advanced := (m.ring t).advanced + 1 })

abbrev System := State Party sig Mem

/-- The rings as `program` leaves them, and nothing is posted. -/
def start (seq : Nat) (bytes : Nat → UInt8) : System where
  prog
    | .driver => driverLoop ⟨fun _ => 0, seq⟩
    | .radio _ => radioLoop
  mem :=
    { ring := fun _ => ⟨0, 0, fun _ => ⟨0, dmaDone, 0, 0⟩, [], [], 0⟩
      bytes := bytes
      mine := []
      early := 0 }

end Lerux.Mt7921.Transmit
