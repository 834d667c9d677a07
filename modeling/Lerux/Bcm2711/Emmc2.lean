import Lerux.Base.LittleEndian
import Lerux.Base.Outcome
import Lerux.Base.Steps

/-!
# The sector transfers of the EMMC2 driver

`emmc2.rs` reads and writes the sectors of an SD card by programmed I/O: a command with the sector
in its argument, and then the 512 bytes in words over the data port of the controller.

The card is a high-capacity card, which takes the argument as the number of a sector, and the port
carries the bytes of the sector four at a time with the first in the low-order bits. What the driver
reads of the other registers is `polls`, one word a read.
-/

namespace Lerux.Bcm2711.Sdhci

open Lerux.Base

def sectorSize : Nat := 512

def blockSize : Nat := 0x04
def blockCount : Nat := 0x06
def argument : Nat := 0x08
def transferMode : Nat := 0x0c
def command : Nat := 0x0e
def bufferData : Nat := 0x20
def presentState : Nat := 0x24
def normalIntStatus : Nat := 0x30
def errorIntStatus : Nat := 0x32

def cmdInhibitCmd : UInt32 := 0x1
def cmdInhibitDat : UInt32 := 0x2

def intCmdComplete : UInt16 := 0x1
def intTransferComplete : UInt16 := 0x2
def intBufferReadReady : UInt16 := 0x20
def intBufferWriteReady : UInt16 := 0x10
def intError : UInt16 := 0x8000

def resp48 : UInt16 := 0x02
def cmdCrcEn : UInt16 := 0x08
def cmdIndexEn : UInt16 := 0x10
def cmdDataPresent : UInt16 := 0x20
def transferRead : UInt16 := 0x10
def transferSingle : UInt16 := 0x20

inductive Emmc2Error
  | timeout
  | commandFailed
  | ioError

structure Sector where
  bytes : List UInt8
  length : bytes.length = sectorSize

/-! ### The controller and the card -/

/-- `port` holds what is still to be read of a sector, or what has been written of one; `touched`
are the sectors of all transfers. -/
structure Host where
  polls : Nat → UInt32
  now : Nat
  blockSize : UInt16
  blockCount : UInt16
  transferMode : UInt16
  argument : UInt32
  sectors : UInt32 → Sector
  port : List UInt8
  target : Option UInt32
  touched : List UInt32

/-- A command for the transfer of one sector. -/
def Host.transfers (h : Host) (cmd : UInt16) : Prop :=
  cmd &&& cmdDataPresent ≠ 0 ∧ h.blockSize &&& 0x0fff = 512 ∧ h.blockCount = 1

instance decidableTransfers (h : Host) (cmd : UInt16) : Decidable (h.transfers cmd) :=
  inferInstanceAs (Decidable (_ ∧ _ ∧ _))

def Host.command (h : Host) (cmd : UInt16) : Host :=
  if cmd >>> 8 = 17 ∧ h.transfers cmd ∧ h.transferMode &&& transferRead ≠ 0 then
    { h with port := (h.sectors h.argument).bytes, target := none, touched := h.touched ++ [h.argument] }
  else if cmd >>> 8 = 24 ∧ h.transfers cmd ∧ h.transferMode &&& transferRead = 0 then
    { h with port := [], target := some h.argument, touched := h.touched ++ [h.argument] }
  else h

/-- The sector is on the card when its last word has come. -/
def Host.putWord (h : Host) (word : UInt32) : Host :=
  match h.target with
  | none => h
  | some sector =>
    let port := h.port ++ leBytes 4 word.toNat
    if hlength : port.length = sectorSize then
      { h with sectors := Function.update h.sectors sector ⟨port, hlength⟩, port := [], target := none }
    else { h with port }

def Host.write16 (h : Host) (off : Nat) (val : UInt16) : Host :=
  if off = Sdhci.blockSize then { h with blockSize := val }
  else if off = Sdhci.blockCount then { h with blockCount := val }
  else if off = Sdhci.transferMode then { h with transferMode := val }
  else if off = Sdhci.command then h.command val
  else h

def Host.write32 (h : Host) (off : Nat) (val : UInt32) : Host :=
  if off = Sdhci.argument then { h with argument := val } else if off = bufferData then h.putWord val else h

abbrev Io : Type → Type := EStateM Emmc2Error Host

def poll : Io UInt32 := fun h => .ok (h.polls h.now) { h with now := h.now + 1 }

def getWord : Io UInt32 := fun h => .ok (.ofNat (leNat (h.port.take 4))) { h with port := h.port.drop 4 }

def read16 (_off : Nat) : Io UInt16 := do return (← poll).toUInt16

def read32 (off : Nat) : Io UInt32 := if off = bufferData then getWord else poll

def write16 (off : Nat) (val : UInt16) : Io Unit := modify (·.write16 off val)

def write32 (off : Nat) (val : UInt32) : Io Unit := modify (·.write32 off val)

/-! ### The driver -/

structure Emmc2 where
  rca : UInt16
  numBlocks : UInt64
  initialized : Bool

/-- Up to so many looks at the bits of PRESENT_STATE. -/
def waitReady (mask : UInt32) : Nat → Io Unit
  | 0 => throw .timeout
  | tries + 1 => do
    let state ← read32 presentState
    if state &&& mask = 0 then return else waitReady mask tries

def waitCmdReady : Io Unit := waitReady cmdInhibitCmd 500000

def waitDatReady : Io Unit := waitReady cmdInhibitDat 500000

def waitIntUp (mask : UInt16) : Nat → Io Unit
  | 0 => throw .timeout
  | tries + 1 => do
    let status ← read16 normalIntStatus
    if status &&& intError ≠ 0 then
      let err ← read16 errorIntStatus
      write16 normalIntStatus status
      write16 errorIntStatus err
      throw .commandFailed
    else if status &&& mask ≠ 0 then write16 normalIntStatus status
    else waitIntUp mask tries

def waitInt (mask : UInt16) : Io Unit := waitIntUp mask 1000000

def sendCmd (cmdIndex : UInt8) (arg : UInt32) (flags mode : UInt16) : Io Unit := do
  waitCmdReady
  if mode ≠ 0 then waitDatReady
  write16 normalIntStatus 0xffff
  write16 errorIntStatus 0xffff
  write32 argument arg
  write16 transferMode mode
  write16 command (cmdIndex.toUInt16 <<< 8 ||| flags ||| cmdCrcEn ||| cmdIndexEn)
  waitInt intCmdComplete

/-- The bytes of so many words. -/
def readWords : Nat → Io (List UInt8)
  | 0 => return []
  | count + 1 => do
    let word ← read32 bufferData
    let rest ← readWords count
    return (word >>> 24).toUInt8 :: (word >>> 16).toUInt8 :: (word >>> 8).toUInt8 :: word.toUInt8 :: rest

def writeWords : List UInt8 → Io Unit
  | b0 :: b1 :: b2 :: b3 :: rest => do
    write32 bufferData (b0.toUInt32 <<< 24 ||| b1.toUInt32 <<< 16 ||| b2.toUInt32 <<< 8 ||| b3.toUInt32)
    writeWords rest
  | _ => return

def Emmc2.arg (e : Emmc2) (lba : UInt64) : UInt32 := e.rca.toUInt32 <<< 16 ||| lba.toUInt32

def readSector (e : Emmc2) (lba : UInt64) : Io (List UInt8) := do
  if !e.initialized then throw .ioError
  write16 blockSize (512 ||| 0x7000)
  write16 blockCount 1
  sendCmd 17 (e.arg lba) (resp48 ||| cmdDataPresent) (transferRead ||| transferSingle)
  waitInt (intBufferReadReady ||| intTransferComplete)
  readWords (sectorSize / 4)

def writeSector (e : Emmc2) (lba : UInt64) (buf : Sector) : Io Unit := do
  if !e.initialized then throw .ioError
  write16 blockSize (512 ||| 0x7000)
  write16 blockCount 1
  sendCmd 24 (e.arg lba) (resp48 ||| cmdDataPresent) transferSingle
  waitInt intBufferWriteReady
  writeWords buf.bytes
  waitInt intTransferComplete

/-! ### Runs of calls -/

/-- `disk` is what the card should hold: the original sectors, and every buffer at the sector of its
write. `asked` are the sectors of all calls, and `reads` what each read returned, with the bytes of
the disk. -/
structure State where
  dev : Emmc2
  host : Host
  disk : Nat → Sector
  asked : List Nat := []
  reads : List (List UInt8 × List UInt8) := []

/-- A call, and what the registers read during it. -/
inductive Call
  | readSector (lba : UInt64) (polls : Nat → UInt32)
  | writeSector (lba : UInt64) (buf : Sector) (polls : Nat → UInt32)

/-- The state behind a call of a block of the device that succeeds. -/
def step (s : State) : Call → Option State
  | .readSector lba polls =>
    if lba < s.dev.numBlocks then
      match readSector s.dev lba { s.host with polls, now := 0 } with
      | .ok buf host =>
        some { s with host, asked := s.asked ++ [lba.toNat], reads := s.reads ++ [(buf, (s.disk lba.toNat).bytes)] }
      | .error _ _ => none
    else none
  | .writeSector lba buf polls =>
    if lba < s.dev.numBlocks then
      match writeSector s.dev lba buf { s.host with polls, now := 0 } with
      | .ok _ host => some { s with host, asked := s.asked ++ [lba.toNat], disk := Function.update s.disk lba.toNat buf }
      | .error _ _ => none
    else none

/-- The card after the identification, which has published an address. -/
def start (rca : UInt16) (numBlocks : UInt64) (host : Host) : State where
  dev := ⟨rca, numBlocks, true⟩
  host := { host with touched := [] }
  disk n := host.sectors (.ofNat n)

end Lerux.Bcm2711.Sdhci
