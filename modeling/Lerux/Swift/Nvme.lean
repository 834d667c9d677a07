import Lerux.Base.Check

/-!
# The named file of a disk

`nvme.rs`: one file is looked for on a disk that is read sector by sector, in a FAT root directory
or among the resident files of NTFS, on the whole disk or in the partitions of a GUID partition
table. A read returns a sector or nothing. An index out of range, an overflow of 64 bits and a shift
by 64 or more are a crash (`Check`), and the count of a run is the count of its reads. An index that
is a constant below the length of its array is checked by the compiler and can not crash.
-/

namespace Lerux.Swift

open Check (byteAt slice add64 mul64 leAt leValue crash tick ensure)

structure Sector where
  bytes : List UInt8
  size : bytes.length = 512

namespace Sector

/-- The byte at a constant index. -/
def byte (s : Sector) (i : Nat) : UInt8 := s.bytes.getD i 0

/-- The little-endian number from `i` up to `j`. -/
def field (s : Sector) (i j : Nat) : Nat := leValue ((s.bytes.take j).drop i)

end Sector

/-- `LERUX.TXT` -/
def namedFile : List UInt8 := [0x4c, 0x45, 0x52, 0x55, 0x58, 0x2e, 0x54, 0x58, 0x54]

inductive DiskReport
  | bytes (buf : List UInt8) (len : Nat)
  | missing | absent | regs | enable | admin | raw
deriving DecidableEq, Repr

/-- The report of up to 256 bytes. -/
def filled (data : List UInt8) : DiskReport :=
  .bytes (data ++ List.replicate (256 - data.length) 0) data.length

abbrev Disk := Nat → Option Sector

/-- A way to read one sector. -/
abbrev Reader := Nat → Check (Option Sector)

def readDisk (disk : Disk) : Reader := fun lba => tick (disk lba)

/-! ### FAT -/

def fatName (name : List UInt8) : List UInt8 :=
  let stem := name.takeWhile (· ≠ 0x2e)
  let ext := (name.dropWhile (· ≠ 0x2e)).drop 1
  let pad := fun (t : List UInt8) n => t.take n ++ List.replicate (n - t.length) 0x20
  (pad stem 8 ++ pad ext 3).map fun b => if 0x61 ≤ b ∧ b ≤ 0x7a then b - 0x20 else b

def readBytes (read : Reader) (lba size : Nat) : Check DiskReport :=
  if size = 0 then pure (filled [])
  else do
    let some sector ← read lba | pure .admin
    let n := min (min size 256) sector.bytes.length
    return filled (sector.bytes.take n)

/-- What a directory sector has of the file. -/
inductive SlotScan
  | ends
  | found (cluster size : Nat)
  | more
deriving DecidableEq

def scanSlots (dir want : List UInt8) : List Nat → Check SlotScan
  | [] => pure .more
  | slot :: slots => do
    let entry ← slice dir (slot * 32) (slot * 32 + 32)
    if entry.getD 0 0 = 0x00 then return .ends
    else if entry.getD 0 0 = 0xe5 ∨ entry.getD 11 0 = 0x0f then scanSlots dir want slots
    else if entry.take 11 = want then
      return .found (leValue ((entry.take 28).drop 26)) (leValue ((entry.take 32).drop 28))
    else scanSlots dir want slots

def scanRoot (read : Reader) (want : List UInt8) (rootLba rootSectors : Nat) : Nat → Nat → Check DiskReport
  | 0, _ => pure .missing
  | n + 1, sector => do
    let lba ← add64 rootLba sector
    let some dir ← read lba | pure .admin
    match ← scanSlots dir.bytes want (List.range 16) with
    | .ends => return .missing
    | .found cluster size =>
      let data ← add64 rootLba rootSectors
      let dataLba ← add64 data (cluster - 2)
      readBytes read dataLba (min size 256)
    | .more => scanRoot read want rootLba rootSectors n (sector + 1)

def loadFat (boot : Sector) (read : Reader) : Check DiskReport := do
  let reserved := boot.field 14 16
  let fats := (boot.byte 16).toNat
  let rootEntries := boot.field 17 19
  let fatSectors := boot.field 22 24
  if fats = 0 ∨ rootEntries = 0 ∨ fatSectors = 0 then return .raw
  else
    let tables ← mul64 fats fatSectors
    let rootLba ← add64 reserved tables
    let rootBytes ← mul64 rootEntries 32
    scanRoot read (fatName namedFile) rootLba (rootBytes / 512) (rootBytes / 512) 0

/-! ### NTFS -/

/-- The name in 16-bit units. -/
def utf16 (name : List UInt8) : List UInt8 := name.flatMap fun b => [b, 0]

def mftRecordBytes (encoded : UInt8) (spc : Nat) : Check Nat :=
  let signed := encoded.toBitVec.toInt
  if 0 < signed then do
    let sectors ← mul64 signed.toNat spc
    mul64 sectors 512
  else do
    ensure (signed.natAbs < 64)
    return 2 ^ signed.natAbs

def fixupSectors (signature : Nat) (usaOff : Nat) : Nat → Nat → List UInt8 → Check (Option (List UInt8))
  | 0, _, raw => pure (some raw)
  | n + 1, sector, raw =>
    let at_ := sector * 512 - 2
    if raw.length < at_ + 2 then pure none
    else do
      let found ← leAt raw at_ (at_ + 2)
      if found ≠ signature then return none
      else
        let src := usaOff + sector * 2
        let low ← byteAt raw src
        let raw := raw.set at_ low
        let high ← byteAt raw (src + 1)
        fixupSectors signature usaOff n (sector + 1) (raw.set (at_ + 1) high)

def applyFixups (raw : List UInt8) (usaOff usaCount : Nat) : Check (Option (List UInt8)) :=
  if usaCount < 2 ∨ raw.length < usaOff + usaCount * 2 then pure none
  else do
    let signature ← leAt raw usaOff (usaOff + 2)
    fixupSectors signature usaOff (usaCount - 1) 1 raw

def filenameIs (value want : List UInt8) : Check Bool :=
  if value.length < 0x42 then pure false
  else do
    let n ← byteAt value 0x40
    if n.toNat ≠ want.length / 2 ∨ value.length < 0x42 + n.toNat * 2 then return false
    else
      let units ← slice value 0x42 (0x42 + n.toNat * 2)
      return decide (units = want)

/-- What is known of a file after some attributes: whether it has the name, and where its bytes are. -/
structure Resident where
  named : Bool
  data : Option (Nat × Nat)

def residentValue (fixed want : List UInt8) (attr len kind : Nat) (r : Resident) : Check Resident := do
  let valueLen ← leAt fixed (attr + 0x10) (attr + 0x14)
  let valueOff ← leAt fixed (attr + 0x14) (attr + 0x16)
  let start := attr + valueOff
  let end_ := start + valueLen
  if end_ ≤ attr + len then
    let value ← slice fixed start end_
    let isName ← if kind = 0x30 then filenameIs value want else pure false
    return ⟨r.named || isName, if kind = 0x80 then some (start, valueLen) else r.data⟩
  else return r

def residentFrom (fixed : List UInt8) (rawLen : Nat) (want : List UInt8) : Nat → Nat → Resident →
    Check Resident
  | 0, _, r => pure r
  | fuel + 1, attr, r =>
    if attr + 8 ≤ rawLen then do
      let kind ← leAt fixed attr (attr + 4)
      let len ← leAt fixed (attr + 4) (attr + 8)
      if kind = 0xffffffff ∨ len < 8 ∨ rawLen < attr + len then return r
      else
        let nonresident ← byteAt fixed (attr + 8)
        let nameLen ← byteAt fixed (attr + 9)
        let r ← if nonresident = 0 ∧ nameLen = 0 then residentValue fixed want attr len kind r else pure r
        residentFrom fixed rawLen want fuel (attr + len) r
    else pure r

/-- Every attribute takes 8 bytes at least, so that the length of the record is turns enough. -/
def residentFile (fixed : List UInt8) (rawLen : Nat) (want : List UInt8) : Check Resident := do
  let attr ← leAt fixed 0x14 0x16
  residentFrom fixed rawLen want rawLen attr ⟨false, none⟩

/-- The record with its fixups, in the buffer of 4096 bytes, where it is a file in use. -/
def fixedRecord (raw : List UInt8) : Check (Option (List UInt8)) :=
  if raw.length < 0x40 ∨ raw.take 4 ≠ [0x46, 0x49, 0x4c, 0x45] then pure none
  else do
    let usaOff ← leAt raw 4 6
    let usaCount ← leAt raw 6 8
    if 4096 < raw.length then return none
    else
      let some fixed ← applyFixups raw usaOff usaCount | return none
      let fixed := fixed ++ List.replicate (4096 - raw.length) 0
      let flags ← leAt fixed 0x16 0x18
      if flags % 2 = 0 then return none else return some fixed

def fileInRecord (raw want : List UInt8) : Check (Option DiskReport) := do
  let some fixed ← fixedRecord raw | return none
  let r ← residentFile fixed raw.length want
  if r.named then
    match r.data with
    | none => return none
    | some (start, len) =>
      let data ← slice fixed start (start + min len 256)
      return some (filled data)
  else return none

/-- The sectors of a record, one behind the other. -/
def readRecord (read : Reader) (lba : Nat) : Nat → Nat → List UInt8 → Check (Option (List UInt8))
  | 0, _, raw => pure (some raw)
  | n + 1, s, raw => do
    let at_ ← add64 lba s
    let some sector ← read at_ | return none
    readRecord read lba n (s + 1) (raw ++ sector.bytes)

structure NtfsShape where
  mftLcn : Nat
  spc : Nat
  record : Nat

def loadRecords (read : Reader) (shape : NtfsShape) : Nat → Nat → Check DiskReport
  | 0, _ => pure .missing
  | n + 1, index => do
    let base ← mul64 shape.mftLcn shape.spc
    let offset ← mul64 index (shape.record / 512)
    let lba ← add64 base offset
    let some raw ← readRecord read lba (shape.record / 512) 0 [] | return .admin
    let padded := raw ++ List.replicate (4096 - raw.length) 0
    match ← fileInRecord (padded.take shape.record) (utf16 namedFile) with
    | some found => return found
    | none => loadRecords read shape n (index + 1)

def loadNtfs (boot : Sector) (read : Reader) : Check DiskReport :=
  if boot.field 0x0b 0x0d ≠ 512 then pure .raw
  else if boot.byte 0x0d = 0 then pure .raw
  else do
    let spc := (boot.byte 0x0d).toNat
    let record ← mftRecordBytes (boot.byte 0x40) spc
    if record = 0 ∨ 4096 < record then return .raw
    else loadRecords read ⟨boot.field 0x30 0x38, spc, record⟩ 64 0

/-! ### The disk -/

def isNtfs (boot : Sector) : Bool := (boot.bytes.take 11).drop 3 =
    [0x4e, 0x54, 0x46, 0x53, 0x20, 0x20, 0x20, 0x20]

def isFat (boot : Sector) : Bool := boot.byte 510 = 0x55 && boot.byte 511 = 0xaa && boot.field 11 13 = 512

def isProtectiveMbr (boot : Sector) : Bool :=
  boot.byte 510 = 0x55 && boot.byte 511 = 0xaa && [450, 466, 482, 498].any fun i => boot.byte i = 0xee

/-- Entry LBA and entry count. -/
def gptEntries (header : Sector) : Option (Nat × Nat) :=
  let headerSize := header.field 12 16
  let entryLba := header.field 72 80
  let count := header.field 80 84
  if header.bytes.take 8 ≠ [0x45, 0x46, 0x49, 0x20, 0x50, 0x41, 0x52, 0x54] then none
  else if ¬(92 ≤ headerSize ∧ headerSize ≤ 512) ∨ header.field 24 32 ≠ 1 ∨ entryLba = 0 ∨
      header.field 84 88 ≠ 128 ∨ count = 0 then
    none
  else some (entryLba, min count 128)

/-- A file system that begins at a sector: its reads are relative to it. -/
def partition (start : Nat) (read : Reader) : Reader := fun lba =>
  if start + lba < 2 ^ 64 then read (start + lba) else pure none

def loadVolume (start : Nat) (read : Reader) : Check DiskReport := do
  let some boot ← read start | return .admin
  if isNtfs boot then loadNtfs boot (partition start read)
  else if isFat boot then loadFat boot (partition start read)
  else return .raw

def readGptEntry (read : Reader) (entryLba index : Nat) : Check (Option (List UInt8)) :=
  if entryLba + index / 4 < 2 ^ 64 then do
    let some sector ← read (entryLba + index / 4) | return none
    let entry ← slice sector.bytes (index % 4 * 128) (index % 4 * 128 + 128)
    return some entry
  else pure none

def loadPartitions (read : Reader) (entryLba : Nat) : Nat → Nat → Bool → Check DiskReport
  | 0, _, sawFs => pure (if sawFs then .missing else .raw)
  | n + 1, index, sawFs => do
    let some entry ← readGptEntry read entryLba index | return .admin
    let start := leValue ((entry.take 40).drop 32)
    if entry.take 16 = List.replicate 16 0 ∨ start = 0 then loadPartitions read entryLba n (index + 1) sawFs
    else
      match ← loadVolume start read with
      | .bytes buf len => return .bytes buf len
      | .missing => loadPartitions read entryLba n (index + 1) true
      | .admin => return .admin
      | _ => loadPartitions read entryLba n (index + 1) sawFs

def loadGpt (read : Reader) : Check DiskReport := do
  let some header ← read 1 | return .admin
  match gptEntries header with
  | none => return .raw
  | some (entryLba, count) => loadPartitions read entryLba count 0 false

def loadNamed (read : Reader) : Check DiskReport := do
  let some boot ← read 0 | return .admin
  if isNtfs boot then loadNtfs boot read
  else if isFat boot then loadFat boot read
  else if isProtectiveMbr boot then loadGpt read
  else return .raw

end Lerux.Swift
