import Lerux.Base.Buffer
import Lerux.Base.LittleEndian
import Lerux.Base.Outcome
import Lerux.Sddf.RecordQueues

/-!
# The AHCI driver

A block request is checked and cut into chunks of the size of the bounce buffer, and each chunk is
one command. `build_command` writes a header and a command table of bytes, and the disk executes
what it reads of them (`Window.command`, `execute`).

A conversion that fails, an underflow and a copy out of a buffer are a panic. The disk executes no
command whose parts do not agree, or that goes beyond its sectors or the bounce buffer. A fault of
the device is an arbitrary change of the state.
-/

namespace Lerux.Ahci

open Lerux.Base
open Lerux.RecordQueues (BlkReqCode)

def blkDataSize : Nat := 0x10000

def blkTransferSize : Nat := 4096

def sectorsPerBlock : Nat := 8

def dmaPaddr : Nat := 0x64000000

def cmdTblOff : Nat := 0x500

def bounceOff : Nat := 0x1000

def bounceSize : Nat := 0x10000

def fisRegH2d : UInt8 := 0x27

def ataCmdReadDmaExt : UInt8 := 0x25

def ataCmdWriteDmaExt : UInt8 := 0x35

/-- A slot of the command list. -/
def slotSize : Nat := 32

/-- A command table with one entry of its region table. -/
def tableSize : Nat := 0x80 + 16

/-- The memory that is shared with the device: a slot, a command table and the bounce buffer, at
their offsets. -/
structure Window where
  slot : List UInt8
  table : List UInt8
  bounce : List UInt8

/-- What a command tells the disk. -/
structure Command where
  write : Bool
  lba : Nat
  sectors : Nat
  /-- The bytes of its one region. -/
  bytes : Nat
  address : Nat
  deriving DecidableEq

structure State where
  disk : List UInt8
  /-- The data region of the clients. -/
  data : List UInt8
  window : Window
  /-- The commands that were executed. -/
  commands : List Command

inductive Stop
  /-- An `Err(())`. -/
  | device
  | panic
  | undescribed
  deriving DecidableEq

abbrev Io : Type → Type := EStateM Stop State

/-- A conversion to an unsigned number of fewer bits. -/
def tryFrom (bits n : Nat) : Io Nat := if n < 2 ^ bits then pure n else throw .panic

/-! ### The disk -/

/-- What the disk reads of a header and the command table that it points to. -/
def Window.command (window : Window) : Option Command :=
  let flags := leNat (window.slot.take 4)
  let tableAddress := leNat ((window.slot.drop 8).take 8)
  let table := window.table
  let sectors := leNat [table.getD 12 0, table.getD 13 0]
  -- a frame of five words, one region, and a command to the device with a linear address
  if flags % 32 = 5 ∧ flags / 65536 = 1 ∧ tableAddress = dmaPaddr + cmdTblOff ∧ table.getD 0 0 = fisRegH2d ∧
      table.getD 1 0 = 0x80 ∧ table.getD 7 0 = 0x40 then
    if table.getD 2 0 = (if flags / 64 % 2 = 1 then ataCmdWriteDmaExt else ataCmdReadDmaExt) then
      some
        { write := flags / 64 % 2 = 1
          lba := leNat [table.getD 4 0, table.getD 5 0, table.getD 6 0, table.getD 8 0,
            table.getD 9 0, table.getD 10 0]
          sectors := if sectors = 0 then 65536 else sectors
          bytes := leNat ((table.drop 0x8c).take 4) % 4194304 + 1
          address := leNat ((table.drop 0x80).take 8) }
    else none
  else none

/-- The parts of a command agree, and lie inside the disk and the bounce buffer. -/
structure Command.Fits (c : Command) (disk : List UInt8) : Prop where
  bytes : c.bytes = 512 * c.sectors
  inside : 512 * (c.lba + c.sectors) ≤ disk.length
  address : c.address = dmaPaddr + bounceOff
  bounce : c.bytes ≤ bounceSize

instance Command.instDecidableFits (c : Command) (disk : List UInt8) : Decidable (c.Fits disk) :=
  decidable_of_iff (c.bytes = 512 * c.sectors ∧ 512 * (c.lba + c.sectors) ≤ disk.length ∧
    c.address = dmaPaddr + bounceOff ∧
    c.bytes ≤ bounceSize) ⟨fun h => ⟨h.1, h.2.1, h.2.2.1, h.2.2.2⟩,
      fun h => ⟨h.bytes, h.inside, h.address, h.bounce⟩⟩

/-- A command moves its sectors between the disk and the bounce buffer. -/
def Command.run (c : Command) (s : State) : State :=
  if c.write then { s with disk := copyFrom s.disk (512 * c.lba) (s.window.bounce.take c.bytes), commands := s.commands ++ [c] }
  else
    { s with
      window := { s.window with bounce := copyFrom s.window.bounce 0 ((s.disk.drop (512 * c.lba)).take c.bytes) }
      commands := s.commands ++ [c] }

def execute : Io Unit := do
  match (← get).window.command with
  | none => throw .undescribed
  | some c => if c.Fits (← get).disk then modify c.run else throw .undescribed

/-! ### The engine -/

/-- A byte of a number. -/
def byteOf (n shift : Nat) : UInt8 := .ofNat (n >>> shift &&& 0xff)

def headerBytes (write : Bool) (ctba : Nat) : List UInt8 :=
  let slot := List.replicate slotSize 0
  let slot := copyFrom slot 0 (leBytes 4 (5 ||| (if write then 1 else 0) <<< 6 ||| 1 <<< 16))
  let slot := copyFrom slot 8 (leBytes 4 ctba)
  copyFrom slot 12 (leBytes 4 0)

/-- The command table with its frame. -/
def frameBytes (lba sectors : Nat) (command : UInt8) : List UInt8 :=
  let table := List.replicate tableSize 0
  let table := table.set 0 fisRegH2d
  let table := table.set 1 0x80
  let table := table.set 2 command
  let table := table.set 4 (byteOf lba 0)
  let table := table.set 5 (byteOf lba 8)
  let table := table.set 6 (byteOf lba 16)
  let table := table.set 7 0x40
  let table := table.set 8 (byteOf lba 24)
  let table := table.set 9 (byteOf lba 32)
  let table := table.set 10 (byteOf lba 40)
  let table := table.set 12 (byteOf sectors 0)
  table.set 13 (.ofNat (sectors >>> 8))

def tableBytes (lba sectors : Nat) (command : UInt8) (dba dbc : Nat) : List UInt8 :=
  let table := frameBytes lba sectors command
  let table := copyFrom table 0x80 (leBytes 4 dba)
  let table := copyFrom table 0x84 (leBytes 4 0)
  copyFrom table 0x8c (leBytes 4 dbc)

def buildCommand (write : Bool) (lba sectors : Nat) (command : UInt8) (byteCount : Nat) : Io Unit := do
  let ctba ← tryFrom 32 (dmaPaddr + cmdTblOff)
  let dba ← tryFrom 32 (dmaPaddr + bounceOff)
  if byteCount = 0 then throw .panic
  let dbc ← tryFrom 32 (byteCount - 1)
  modify fun s =>
    { s with window := { s.window with slot := headerBytes write ctba, table := tableBytes lba sectors command dba dbc } }

/-- What happens to a command, by the number of those before it: a fault with some change of the
state, or none. -/
abbrev Faults := Nat → Option (State → State)

def runDma (faults : Faults) (write : Bool) (lba sectors : Nat) (command : UInt8) : Io Unit := do
  buildCommand write lba sectors command (sectors * 512)
  match faults (← get).commands.length with
  | some damage => do
    modify damage
    throw .device
  | none => execute

/-- A copy from the bounce buffer to the data region. -/
def copyToGuest (place chunk : Nat) : Io Unit := do
  let s ← get
  if place + chunk ≤ s.data.length ∧ chunk ≤ bounceSize then
    set { s with data := copyFrom s.data place (s.window.bounce.take chunk) }
  else throw .panic

def copyFromGuest (place chunk : Nat) : Io Unit := do
  let s ← get
  if place + chunk ≤ s.data.length ∧ chunk ≤ bounceSize then
    set { s with window := { s.window with bounce := copyFrom s.window.bounce 0 ((s.data.drop place).take chunk) } }
  else throw .panic

def moveChunk (faults : Faults) (read : Bool) (place lba chunk : Nat) : Io Nat := do
  let sectors ← tryFrom 16 (chunk / 512)
  if read then do
    runDma faults false lba sectors ataCmdReadDmaExt
    copyToGuest place chunk
    return sectors
  else do
    copyFromGuest place chunk
    runDma faults true lba sectors ataCmdWriteDmaExt
    return sectors

/-- The loop of `Engine::transfer`. -/
def transferFrom (faults : Faults) (read : Bool) (place lba remaining : Nat) : Io Unit :=
  if h : remaining = 0 then pure ()
  else do
    let chunk := min remaining bounceSize
    have : remaining - min remaining bounceSize < remaining := by
      have : 0 < bounceSize := by decide
      omega
    let sectors ← moveChunk faults read place lba chunk
    let next ← tryFrom 64 (lba + sectors)
    transferFrom faults read (place + chunk) next (remaining - chunk)
termination_by remaining

/-! ### Requests -/

inductive Status
  | ok
  | errInvalidParam
  | errIo
  deriving DecidableEq

/-- `BLK_DATA_VADDR` is the start of the data region, so that the address of a byte is its place in
the region. -/
def transfer (faults : Faults) (capacityBlocks : Nat) (read : Bool) (offset block : UInt64)
    (count : UInt16) : Io (Status × Nat) :=
  let invalid := (Status.errInvalidParam, 0)
  let len := count.toNat * blkTransferSize
  if count = 0 then return invalid
  else if 2 ^ 64 ≤ offset.toNat + len ∨ blkDataSize < offset.toNat + len then return invalid
  else if 2 ^ 64 ≤ block.toNat + count.toNat then return invalid
  else if capacityBlocks < block.toNat + count.toNat then return invalid
  else if 2 ^ 64 ≤ block.toNat * sectorsPerBlock then return invalid
  else do
    match ← attempt (transferFrom faults read offset.toNat (block.toNat * sectorsPerBlock) len) with
    | .ok () => return (.ok, count.toNat)
    | .error .device => return (.errIo, 0)
    | .error e => throw e

def finish (faults : Faults) (capacityBlocks : Nat) (code : BlkReqCode) (offset block : UInt64)
    (count : UInt16) : Io (Status × Nat) :=
  match code with
  | .read => transfer faults capacityBlocks true offset block count
  | .write => transfer faults capacityBlocks false offset block count
  | .flush | .barrier => return (.ok, 0)

end Lerux.Ahci
