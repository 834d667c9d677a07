import Mathlib.Data.List.Range
import Mathlib.Logic.Function.Basic
import Mathlib.Tactic

/-!
# The FAT server

`sddf-fatfs`: a FAT16 volume behind the filesystem command ring. All device traffic goes through one
cached transfer block of eight sectors (`loadBlock`, `flushBlock`, `stageZero`, `editSector`); the
directory scans, the allocation table and the command handlers sit on top of that.

Memory is a function from offsets to bytes. The source's `u16`, `u32` and `u64` fields are natural
numbers; they are cut to their width where they are written out as little-endian bytes. A block transfer
succeeds or fails as `performs` says, one answer per transfer.
-/

namespace Lerux.FatFs

/-! ### Bytes -/

/-- A region of memory. -/
abbrev Bytes := Nat → UInt8

def slice (b : Bytes) (off len : Nat) : List UInt8 := (List.range len).map fun i => b (off + i)

/-- `copy_from_slice` at an offset. -/
def copyAt (off : Nat) (src : List UInt8) (b : Bytes) : Bytes :=
  fun i => if off ≤ i ∧ i < off + src.length then src.getD (i - off) 0 else b i

def le16 (n : Nat) : List UInt8 := [UInt8.ofNat n, UInt8.ofNat (n / 256)]

def le32 (n : Nat) : List UInt8 :=
  [UInt8.ofNat n, UInt8.ofNat (n / 256), UInt8.ofNat (n / 65536), UInt8.ofNat (n / 16777216)]

def le64 (n : Nat) : List UInt8 := le32 n ++ le32 (n / 4294967296)

def fromLe16 (a b : UInt8) : Nat := a.toNat + 256 * b.toNat

def fromLe32 (a b c d : UInt8) : Nat := fromLe16 a b + 65536 * fromLe16 c d

/-! ### Layout -/

def sectorBytes : Nat := 512
def totalSectors : Nat := 8192
def reservedSectors : Nat := 1
def fatCount : Nat := 2
def rootEntries : Nat := 512
def fatSectors : Nat := 32
def fat1Lba : Nat := 1
def fat2Lba : Nat := 33
def rootLba : Nat := 65
def dataLba : Nat := 97
def entriesPerSector : Nat := 16
def dirEntry : Nat := 32
def transfer : Nat := 4096
def sectorsPerTransfer : Nat := 8
def attrDir : UInt8 := 0x10
def attrArchive : UInt8 := 0x20
def fdFile : Nat := 0
def fdDir : Nat := 1
def clusterScan : Nat := 64
def sIfdir : Nat := 0o040000
def sIfreg : Nat := 0o100000
def modeBits : Nat := 0o777
def fsRegionSize : Nat := 0x8000
def fsQueueCapacity : Nat := 511

def openFlagsReadOnly : Nat := 0
def openFlagsWriteOnly : Nat := 1
def openFlagsCreate : Nat := 4

/-- The `FS_STATUS_*` codes the server answers with. -/
inductive Status
  | success | error | invalidBuffer | invalidFd | invalidName | tooManyOpenFiles | invalidWrite
  | invalidRead | directoryIsFull | invalidCommand | endOfDirectory | noFile | alreadyExists | notEmpty
  deriving DecidableEq, Repr

/-! ### State -/

/-- A packed 8.3 name, eleven bytes. -/
abbrev Name := List UInt8

structure OpenFile where
  cluster : Nat
  size : Nat
  dirIndex : Nat
  parent : Nat
  deriving DecidableEq, Repr

structure OpenDir where
  cluster : Nat
  index : Nat
  limit : Nat
  deriving DecidableEq, Repr

structure DirHit where
  index : Nat
  cluster : Nat
  size : Nat
  attr : UInt8
  deriving DecidableEq, Repr

inductive Completion
  | empty
  | fd (fd : Nat)
  | read (len : Nat)
  | write (len : Nat)
  | dirRead (len : Nat)
  deriving DecidableEq, Repr

structure Cmpl where
  id : Nat
  status : Status
  data : Completion
  deriving DecidableEq, Repr

/-- The server's static state with the memory it shares: the device, the cached block, the two handles,
the client share and the completion ring. -/
structure Fs where
  device : Nat → Bytes
  performs : Nat → Bool
  transfers : Nat
  block : Bytes
  blockNo : Nat
  blockValid : Bool
  blockDirty : Bool
  file : Option OpenFile
  dir : Option OpenDir
  share : Bytes
  completions : List Cmpl

abbrev M := StateM Fs

inductive Scan (α : Type)
  | hit (a : α)
  | missing
  | failed
  deriving DecidableEq

/-- `&&` of two calls: the second runs only after the first returned true. -/
def andThen (x y : M Bool) : M Bool := do
  if ← x then y else pure false

/-! ### The cached block -/

/-- `blk_transfer`: a write sends the cached block, a read fills it. A failed one moves nothing. -/
def blkTransfer (write : Bool) (number : Nat) : M Bool := fun s =>
  let next := { s with transfers := s.transfers + 1 }
  if s.performs s.transfers then
    if write then (true, { next with device := Function.update s.device number s.block })
    else (true, { next with block := fun i => if i < transfer then s.device number i else s.block i })
  else (false, next)

def flushBlock : M Bool := do
  let s ← get
  if s.blockDirty then
    if ← blkTransfer true s.blockNo then
      modify fun s => { s with blockDirty := false }
      pure true
    else pure false
  else pure true

def loadBlock (number : Nat) : M Bool := do
  let s ← get
  if s.blockValid ∧ s.blockNo = number then pure true
  else if ← andThen flushBlock (blkTransfer false number) then
    modify fun s => { s with blockNo := number, blockValid := true, blockDirty := false }
    pure true
  else pure false

def stageZero (number : Nat) : M Bool := do
  if ← flushBlock then
    modify fun s => { s with
      block := fun i => if i < transfer then 0 else s.block i
      blockNo := number
      blockValid := true
      blockDirty := true }
    pure true
  else pure false

/-- The `len` bytes from `off` on, as a region of their own. -/
def window (b : Bytes) (off len : Nat) : Bytes := fun i => if i < len then b (off + i) else 0

/-- An edit of the sector that starts at `off` of the block. -/
def editAt (off : Nat) (edit : Bytes → Bytes) (b : Bytes) : Bytes :=
  fun i => if off ≤ i ∧ i < off + sectorBytes then edit (window b off sectorBytes) (i - off) else b i

/-- Where a sector starts in its transfer block. -/
def sectorOffset (lba : Nat) : Nat := lba % sectorsPerTransfer * sectorBytes

def editSector (lba : Nat) (edit : Bytes → Bytes) : M Bool := do
  if ← loadBlock (lba / sectorsPerTransfer) then
    modify fun s => { s with block := editAt (sectorOffset lba) edit s.block, blockDirty := true }
    pure true
  else pure false

/-! ### Completions and the client share -/

/-- `complete`: false when the completion ring is full. -/
def complete (id : Nat) (status : Status) (data : Completion) : M Bool := fun s =>
  if s.completions.length = fsQueueCapacity then (false, s)
  else (true, { s with completions := s.completions ++ [⟨id, status, data⟩] })

/-- The error exit of a handler whose device failed: the worker stops. -/
def fault (id : Nat) : M Bool := do
  let _ ← complete id .error .empty
  pure false

/-- A range of the client share. -/
structure Buffer where
  offset : Nat
  size : Nat
  deriving DecidableEq, Repr

def copyShare (s : Fs) (offset size : Nat) : Option (List UInt8) :=
  if fsRegionSize < offset + size then none else some (slice s.share offset size)

def copyToShare (offset : Nat) (src : List UInt8) : M Bool := fun s =>
  if fsRegionSize < offset + src.length then (false, s)
  else (true, { s with share := copyAt offset src s.share })

def writeShare (buf : Buffer) (value : List UInt8) : M Bool :=
  if buf.size < value.length then pure false else copyToShare buf.offset value

def shareSpan (buf : Buffer) : Option (Nat × Nat) :=
  if fsRegionSize < buf.offset + buf.size then none else some (buf.offset, buf.size)

/-! ### Names -/

def space : UInt8 := 0x20
def dot : UInt8 := 0x2E
def slash : UInt8 := 0x2F

def upper (byte : UInt8) : UInt8 := if 0x61 ≤ byte ∧ byte ≤ 0x7A then byte - 0x20 else byte

/-- The bytes written over a field of `width` spaces. -/
def padded (width : Nat) (bytes : List UInt8) : List UInt8 :=
  bytes.map upper ++ List.replicate (width - bytes.length) space

def packName (raw : List UInt8) : Option Name :=
  if raw = [] ∨ 11 < raw.length then none
  else match raw.findIdx? (· == dot) with
    | none => if 8 < raw.length then none else some (padded 8 raw ++ padded 3 [])
    | some at_ =>
      let base := raw.take at_
      let ext := raw.drop (at_ + 1)
      if base = [] ∨ 8 < base.length ∨ 3 < ext.length then none else some (padded 8 base ++ padded 3 ext)

/-- `two_components`: an optional leading slash, then exactly two components. -/
def twoComponents (path : List UInt8) : Option (List UInt8 × List UInt8) :=
  let path := if path.head? = some slash then path.tail else path
  match path.findIdx? (· == slash) with
  | none => none
  | some at_ =>
    let dir := path.take at_
    let file := path.drop (at_ + 1)
    if dir = [] ∨ file = [] ∨ slash ∈ file then none else some (dir, file)

def isDot (entry : Bytes) : Bool := entry 0 == dot && (entry 1 == space || entry 1 == dot)

def dotName (dots : Nat) : Name := List.replicate dots dot ++ List.replicate (11 - dots) space

def displayName (entry : Bytes) : List UInt8 :=
  (slice entry 0 8).takeWhile (· ≠ space) ++
    if entry 8 ≠ space then dot :: (slice entry 8 3).takeWhile (· ≠ space) else []

def readPackedName (s : Fs) (path : Buffer) : Option Name :=
  if 11 < path.size then none
  else match copyShare s path.offset path.size with
    | none => none
    | some raw => packName raw

def isRootPathBuf (s : Fs) (path : Buffer) : Bool :=
  if path.size = 0 then true
  else if 11 < path.size then false
  else match copyShare s path.offset path.size with
    | none => false
    | some raw => raw = [dot] ∨ raw = [slash]

/-! ### Directory entries -/

/-- Where the entry `index` of the root directory is: its sector, and the offset in it. -/
def entryLba (index : Nat) : Nat := rootLba + index / entriesPerSector
def entryOffset (index : Nat) : Nat := index % entriesPerSector * dirEntry

/-- `read_entry`. -/
def readEntry (index : Nat) : M (Option Bytes) := do
  if ← loadBlock (entryLba index / sectorsPerTransfer) then
    let s ← get
    pure (some (window s.block (sectorOffset (entryLba index) + entryOffset index) dirEntry))
  else pure none

/-- The sector of a data cluster. A cluster is one sector; clusters below 2 are checked by the callers. -/
def clusterLba (cluster : Nat) : Nat := dataLba + (cluster - 2)

def readPlaced (cluster index : Nat) : M (Option Bytes) :=
  if cluster = 0 then readEntry index
  else do
    if ← loadBlock (clusterLba cluster / sectorsPerTransfer) then
      let s ← get
      pure (some (window s.block (sectorOffset (clusterLba cluster) + index * dirEntry) dirEntry))
    else pure none

def hitFrom (index : Nat) (entry : Bytes) : DirHit where
  index := index
  cluster := fromLe16 (entry 26) (entry 27)
  size := fromLe32 (entry 28) (entry 29) (entry 30) (entry 31)
  attr := entry 11

/-- The loop of `find_name` and `find_in_cluster`, over `left` entries from `index` on. -/
def scanName (read : Nat → M (Option Bytes)) (name : Name) : Nat → Nat → M (Scan DirHit)
  | 0, _ => pure .missing
  | left + 1, index => do
    match ← read index with
    | none => pure .failed
    | some entry =>
      if entry 0 = 0x00 then pure .missing
      else if entry 0 = 0xE5 then scanName read name left (index + 1)
      else if slice entry 0 11 = name then pure (.hit (hitFrom index entry))
      else scanName read name left (index + 1)

/-- The loop of `find_free` and `find_free_in_cluster`. -/
def scanFree (read : Nat → M (Option Bytes)) : Nat → Nat → M (Scan Nat)
  | 0, _ => pure .missing
  | left + 1, index => do
    match ← read index with
    | none => pure .failed
    | some entry =>
      if entry 0 = 0x00 ∨ entry 0 = 0xE5 then pure (.hit index) else scanFree read left (index + 1)

def findName (name : Name) : M (Scan DirHit) := scanName readEntry name rootEntries 0

def findFree : M (Scan Nat) := scanFree readEntry rootEntries 0

def findInCluster (cluster : Nat) (name : Name) : M (Scan DirHit) :=
  if cluster < 2 then pure .failed else scanName (readPlaced cluster) name entriesPerSector 0

def findFreeInCluster (cluster : Nat) : M (Scan Nat) :=
  if cluster < 2 then pure .failed else scanFree (readPlaced cluster) entriesPerSector 0

/-- `put_entry` on the entry at offset `off` of a sector. -/
def putEntry (off : Nat) (name : Name) (cluster size : Nat) (attr : UInt8) (sector : Bytes) : Bytes :=
  sector |> copyAt off (List.replicate dirEntry 0) |> copyAt off name |> copyAt (off + 11) [attr]
    |> copyAt (off + 26) (le16 cluster) |> copyAt (off + 28) (le32 size)

def writeDir (index : Nat) (name : Name) (cluster size : Nat) (attr : UInt8) : M Bool :=
  editSector (entryLba index) (putEntry (entryOffset index) name cluster size attr)

def writeInCluster (parent index : Nat) (name : Name) (cluster size : Nat) (attr : UInt8) : M Bool :=
  if parent < 2 ∨ entriesPerSector ≤ index then pure false
  else editSector (clusterLba parent) (putEntry (index * dirEntry) name cluster size attr)

def renameEntry (index : Nat) (name : Name) : M Bool :=
  editSector (entryLba index) (copyAt (entryOffset index) name)

def markDeleted (index : Nat) : M Bool :=
  editSector (entryLba index) (copyAt (entryOffset index) [0xE5])

def updateSize (parent index size : Nat) : M Bool :=
  if parent = 0 then editSector (entryLba index) (copyAt (entryOffset index + 28) (le32 size))
  else if parent < 2 ∨ entriesPerSector ≤ index then pure false
  else editSector (clusterLba parent) (copyAt (index * dirEntry + 28) (le32 size))

def formatDirectory (cluster : Nat) : M Bool :=
  editSector (clusterLba cluster) fun _ =>
    (fun _ => 0) |> putEntry 0 (dotName 1) cluster 0 attrDir |> putEntry dirEntry (dotName 2) 0 0 attrDir

/-- The loop of `directory_empty`. -/
def scanEmpty (cluster : Nat) : Nat → Nat → M (Scan Bool)
  | 0, _ => pure (.hit true)
  | left + 1, index => do
    match ← readPlaced cluster index with
    | none => pure .failed
    | some entry =>
      if entry 0 = 0x00 then pure (.hit true)
      else if entry 0 = 0xE5 ∨ isDot entry then scanEmpty cluster left (index + 1)
      else pure (.hit false)

def directoryEmpty (cluster : Nat) : M (Scan Bool) :=
  if cluster < 2 then pure .missing else scanEmpty cluster entriesPerSector 0

/-! ### The allocation tables -/

/-- The sector of a table that holds the entry of `cluster`, and the offset of the entry in it. -/
def fatSector (cluster : Nat) : Nat := cluster * 2 / sectorBytes
def fatOffset (cluster : Nat) : Nat := cluster * 2 % sectorBytes

def setFat (cluster value : Nat) : M Bool :=
  andThen (editSector (fat1Lba + fatSector cluster) (copyAt (fatOffset cluster) (le16 value)))
    (editSector (fat2Lba + fatSector cluster) (copyAt (fatOffset cluster) (le16 value)))

def readFat (cluster : Nat) : M (Scan Nat) := do
  let lba := fat1Lba + fatSector cluster
  if ← loadBlock (lba / sectorsPerTransfer) then
    let s ← get
    let offset := sectorOffset lba + fatOffset cluster
    pure (.hit (fromLe16 (s.block offset) (s.block (offset + 1))))
  else pure .failed

/-- The loop of `alloc_cluster`. -/
def scanCluster : Nat → Nat → M (Scan Nat)
  | 0, _ => pure .missing
  | left + 1, cluster => do
    match ← readFat cluster with
    | .hit value => if value = 0 then pure (.hit cluster) else scanCluster left (cluster + 1)
    | .missing => pure .missing
    | .failed => pure .failed

def allocCluster : M (Scan Nat) := scanCluster (clusterScan - 2) 2

/-! ### Formatting and the seeded file -/

def volumeOk (s : Fs) : Bool :=
  s.block 510 == 0x55 && s.block 511 == 0xAA && fromLe16 (s.block 11) (s.block 12) == sectorBytes

def writeBoot (b : Bytes) : Bytes :=
  b |> copyAt 0 (List.replicate sectorBytes 0) |> copyAt 0 [0xEB, 0x3C, 0x90]
    |> copyAt 3 [0x4C, 0x45, 0x52, 0x55, 0x58, 0x46, 0x41, 0x54] |> copyAt 11 (le16 sectorBytes)
    |> copyAt 13 [1] |> copyAt 14 (le16 reservedSectors) |> copyAt 16 [UInt8.ofNat fatCount]
    |> copyAt 17 (le16 rootEntries) |> copyAt 19 (le16 totalSectors) |> copyAt 21 [0xF8]
    |> copyAt 22 (le16 fatSectors) |> copyAt 510 [0x55, 0xAA]

/-- `write_fat_header` on the second sector of the block. -/
def writeFatHeader (b : Bytes) : Bytes :=
  b |> copyAt sectorBytes (le16 0xFFF8) |> copyAt (sectorBytes + 2) (le16 0xFFFF)

/-- A loop of `stage_zero` calls. -/
def stageZeros : List Nat → M Bool
  | [] => pure true
  | number :: rest => andThen (stageZero number) (stageZeros rest)

/-- An edit of the staged block in place. -/
def editStaged (edit : Bytes → Bytes) : M Bool := do
  modify fun s => { s with block := edit s.block }
  pure true

def formatVolume : M Bool :=
  andThen (stageZero 0) <| andThen (editStaged fun b => writeFatHeader (writeBoot b)) <|
    andThen (stageZeros [1, 2, 3]) <| andThen (stageZero 4) <| andThen (editStaged writeFatHeader) <|
    andThen (stageZeros [5, 6, 7, 8, 9, 10, 11, 12]) flushBlock

def createDirectory (name : Name) : M (Option Nat) := do
  match ← findFree with
  | .missing | .failed => pure none
  | .hit slot =>
    match ← allocCluster with
    | .missing | .failed => pure none
    | .hit cluster =>
      if ← andThen (setFat cluster 0xFFFF) <| andThen (formatDirectory cluster) <|
          andThen (writeDir slot name cluster 0 attrDir) flushBlock then
        pure (some cluster)
      else pure none

/-- The contents of the seeded file: `lerux`. -/
def hostname : List UInt8 := [0x6C, 0x65, 0x72, 0x75, 0x78]

def writeSeedFile (parent : Nat) (name : Name) : M Bool := do
  match ← findFreeInCluster parent with
  | .missing | .failed => pure false
  | .hit slot =>
    match ← allocCluster with
    | .missing | .failed => pure false
    | .hit cluster =>
      andThen (setFat cluster 0xFFFF) <|
        andThen (editSector (clusterLba cluster) fun _ => copyAt 0 hostname fun _ => 0) <|
        andThen (writeInCluster parent slot name cluster hostname.length attrArchive) flushBlock

/-- The paths `config` and `hostname`. -/
def configPath : List UInt8 := [0x63, 0x6F, 0x6E, 0x66, 0x69, 0x67]
def hostnamePath : List UInt8 := [0x68, 0x6F, 0x73, 0x74, 0x6E, 0x61, 0x6D, 0x65]

def seedInto (dirCluster : Nat) (fileName : Name) : M Bool := do
  match ← findInCluster dirCluster fileName with
  | .hit _ => pure true
  | .missing => writeSeedFile dirCluster fileName
  | .failed => pure false

def seedHostname : M Bool :=
  match packName configPath, packName hostnamePath with
  | some dirName, some fileName => do
    match ← findName dirName with
    | .hit hit =>
      if hit.attr &&& attrDir = 0 ∨ hit.cluster < 2 then pure false else seedInto hit.cluster fileName
    | .missing =>
      match ← createDirectory dirName with
      | some cluster => seedInto cluster fileName
      | none => pure false
    | .failed => pure false
  | _, _ => pure false

/-- `prepare`, on a device that says whether it is ready. -/
def prepare (ready : Bool) : M Bool :=
  if ready then
    andThen (loadBlock 0) <| andThen
      (do if volumeOk (← get) then pure true else formatVolume) seedHostname
  else pure false

/-! ### Command handlers -/

def openHit (id parent : Nat) (hit : DirHit) : M Bool := do
  if hit.attr &&& attrDir ≠ 0 ∨ hit.cluster < 2 then complete id .error .empty
  else
    modify fun s => { s with file := some ⟨hit.cluster, hit.size, hit.index, parent⟩ }
    complete id .success (.fd fdFile)

def openNestedRead (id : Nat) (dirName fileName : Name) : M Bool := do
  let s ← get
  if s.file.isSome then complete id .tooManyOpenFiles .empty
  else match ← findName dirName with
    | .missing => complete id .noFile .empty
    | .failed => fault id
    | .hit parent =>
      if parent.attr &&& attrDir ≠ 0 ∧ 2 ≤ parent.cluster then
        match ← findInCluster parent.cluster fileName with
        | .hit hit => openHit id parent.cluster hit
        | .missing => complete id .noFile .empty
        | .failed => fault id
      else complete id .error .empty

def openRead (id : Nat) (name : Name) : M Bool := do
  let s ← get
  if s.file.isSome then complete id .tooManyOpenFiles .empty
  else match ← findName name with
    | .hit hit => openHit id 0 hit
    | .missing => complete id .noFile .empty
    | .failed => fault id

/-- `reserve_file`: a slot and a cluster, or the answer the command already got. -/
def reserveFile (id : Nat) (name : Name) : M (Except Bool (Nat × Nat)) := do
  match ← findName name with
  | .hit _ => .error <$> complete id .alreadyExists .empty
  | .failed => .error <$> fault id
  | .missing =>
    match ← findFree with
    | .missing => .error <$> complete id .directoryIsFull .empty
    | .failed => .error <$> fault id
    | .hit slot =>
      match ← allocCluster with
      | .hit cluster => pure (.ok (slot, cluster))
      | .missing => .error <$> complete id .directoryIsFull .empty
      | .failed => .error <$> fault id

def createFile (id : Nat) (name : Name) : M Bool := do
  let s ← get
  if s.file.isSome then complete id .tooManyOpenFiles .empty
  else match ← reserveFile id name with
    | .error done => pure done
    | .ok (slot, cluster) =>
      if ← andThen (setFat cluster 0xFFFF) <|
        andThen (writeDir slot name cluster 0 attrArchive) flushBlock then
        modify fun s => { s with file := some ⟨cluster, 0, slot, 0⟩ }
        complete id .success (.fd fdFile)
      else fault id

def pathMax : Nat := 24

def handleOpen (id : Nat) (path : Buffer) (flags : Nat) : M Bool := do
  let s ← get
  if pathMax < path.size then complete id .invalidName .empty
  else match if path.size = 0 then some [] else copyShare s path.offset path.size with
    | none => complete id .invalidBuffer .empty
    | some raw =>
      if slash ∈ raw then
        if flags ≠ openFlagsReadOnly then complete id .error .empty
        else match twoComponents raw with
          | none => complete id .invalidName .empty
          | some (dir, file) =>
            match packName dir, packName file with
            | some dirName, some fileName => openNestedRead id dirName fileName
            | _, _ => complete id .invalidName .empty
      else if 11 < path.size then complete id .invalidName .empty
      else match packName raw with
        | none => complete id .invalidName .empty
        | some name =>
          if flags = openFlagsCreate ||| openFlagsWriteOnly then createFile id name
          else if flags = openFlagsReadOnly then openRead id name
          else complete id .error .empty

def handleClose (id fd : Nat) : M Bool := do
  let s ← get
  if fd ≠ fdFile ∨ s.file.isNone then complete id .invalidFd .empty
  else
    modify fun s => { s with file := none }
    complete id .success .empty

def handleWrite (id fd offset : Nat) (buf : Buffer) : M Bool := do
  let s ← get
  match s.file with
  | none => complete id .invalidFd .empty
  | some file =>
    if fd ≠ fdFile then complete id .invalidFd .empty
    else if file.parent ≠ 0 then complete id .invalidWrite .empty
    else if offset ≠ 0 ∨ buf.size = 0 ∨ sectorBytes < buf.size then complete id .invalidWrite .empty
    else match copyShare s buf.offset buf.size with
      | none => complete id .invalidBuffer .empty
      | some data =>
        if ← andThen (editSector (clusterLba file.cluster) (copyAt 0 data)) <|
            andThen (updateSize file.parent file.dirIndex buf.size) flushBlock then
          modify fun s => { s with file := s.file.map fun file => { file with size := buf.size } }
          complete id .success (.write buf.size)
        else fault id

/-- `stage_file_bytes`: copies from the file's sector on, however far `copied` goes. -/
def stageFileBytes (id : Nat) (file : OpenFile) (bufOff copied : Nat) : M (Except Bool Unit) :=
  if file.cluster < 2 then .error <$> complete id .error .empty
  else do
    if ← loadBlock (clusterLba file.cluster / sectorsPerTransfer) then
      modify fun s => { s with
        share := copyAt bufOff (slice s.block (sectorOffset (clusterLba file.cluster)) copied) s.share }
      pure (.ok ())
    else .error <$> fault id

def handleRead (id fd offset : Nat) (buf : Buffer) : M Bool := do
  let s ← get
  match s.file with
  | none => complete id .invalidFd .empty
  | some file =>
    if fd ≠ fdFile then complete id .invalidFd .empty
    else if offset ≠ 0 then complete id .invalidRead .empty
    else match shareSpan buf with
      | none => complete id .invalidBuffer .empty
      | some (bufOff, bufLen) =>
        let copied := min bufLen file.size
        if copied = 0 then complete id .success (.read copied)
        else match ← stageFileBytes id file bufOff copied with
          | .error done => pure done
          | .ok () => complete id .success (.read copied)

/-- `fs_stat_t`: seventeen `u64` fields, of which the server sets four. -/
def statBytes (ino mode size : Nat) : List UInt8 :=
  le64 0 ++ le64 ino ++ le64 mode ++ (List.replicate 4 (le64 0)).flatten ++ le64 size ++ le64 sectorBytes ++
    (List.replicate 8 (le64 0)).flatten

def statSize : Nat := 136

/-- The end of `handle_stat`: the record goes to the client's buffer. -/
def answerStat (id : Nat) (buf : Buffer) (ino mode size : Nat) : M Bool := do
  if ← writeShare buf (statBytes ino mode size) then complete id .success .empty
  else complete id .invalidBuffer .empty

def handleStat (id : Nat) (path buf : Buffer) : M Bool := do
  let s ← get
  if buf.size < statSize then complete id .invalidBuffer .empty
  else if isRootPathBuf s path then answerStat id buf 1 (sIfdir ||| modeBits) 0
  else match readPackedName s path with
    | none => complete id .invalidName .empty
    | some name =>
      match ← findName name with
      | .missing => complete id .noFile .empty
      | .failed => fault id
      | .hit hit =>
        let mode := if hit.attr &&& attrDir ≠ 0 then sIfdir ||| modeBits else sIfreg ||| modeBits
        answerStat id buf (hit.index + 2) mode hit.size

/-- The end of `handle_rename`: the name bytes of the entry found are replaced. -/
def renameHit (id : Nat) (hit : DirHit) (name : Name) : M Bool := do
  if ← andThen (renameEntry hit.index name) flushBlock then complete id .success .empty else fault id

def handleRename (id : Nat) (oldPath newPath : Buffer) : M Bool := do
  let s ← get
  match readPackedName s oldPath, readPackedName s newPath with
  | some old, some new =>
    match ← findName old with
    | .missing => complete id .noFile .empty
    | .failed => fault id
    | .hit hit =>
      if old = new then renameHit id hit new
      else match ← findName new with
        | .hit _ => complete id .alreadyExists .empty
        | .missing => renameHit id hit new
        | .failed => fault id
  | _, _ => complete id .invalidName .empty

/-- The end of `handle_remove`: the cluster is freed, the entry marked, and a handle on it dropped. -/
def removeHit (id : Nat) (hit : DirHit) : M Bool := do
  if ← andThen (if 2 ≤ hit.cluster then setFat hit.cluster 0 else pure true) <|
      andThen (markDeleted hit.index) flushBlock then
    modify fun s =>
      if s.file.any fun file => file.parent = 0 ∧ file.dirIndex = hit.index then
        { s with file := none } else s
    complete id .success .empty
  else fault id

def handleRemove (id : Nat) (path : Buffer) : M Bool := do
  let s ← get
  match readPackedName s path with
  | none => complete id .invalidName .empty
  | some name =>
    match ← findName name with
    | .missing => complete id .noFile .empty
    | .failed => fault id
    | .hit hit =>
      if hit.attr &&& attrDir ≠ 0 then
        match ← directoryEmpty hit.cluster with
        | .hit true => removeHit id hit
        | .hit false => complete id .notEmpty .empty
        | .missing => complete id .error .empty
        | .failed => fault id
      else removeHit id hit

/-- `handle_mkdir` reserves as `reserve_file` does. -/
def handleMkdir (id : Nat) (path : Buffer) : M Bool := do
  let s ← get
  match readPackedName s path with
  | none => complete id .invalidName .empty
  | some name =>
    match ← reserveFile id name with
    | .error done => pure done
    | .ok (slot, cluster) =>
      if ← andThen (setFat cluster 0xFFFF) <| andThen (formatDirectory cluster) <|
          andThen (writeDir slot name cluster 0 attrDir) flushBlock then
        complete id .success .empty
      else fault id

def openDir (id : Nat) (opened : OpenDir) : M Bool := do
  modify fun s => { s with dir := some opened }
  complete id .success (.fd fdDir)

def handleDirOpen (id : Nat) (path : Buffer) : M Bool := do
  let s ← get
  if s.dir.isSome then complete id .tooManyOpenFiles .empty
  else if isRootPathBuf s path then openDir id ⟨0, 0, rootEntries⟩
  else match readPackedName s path with
    | none => complete id .invalidName .empty
    | some name =>
      match ← findName name with
      | .missing => complete id .noFile .empty
      | .failed => fault id
      | .hit hit =>
        if hit.attr &&& attrDir ≠ 0 ∧ 2 ≤ hit.cluster then openDir id ⟨hit.cluster, 0, entriesPerSector⟩
        else complete id .noFile .empty

def setDirIndex (index : Nat) : M Unit :=
  modify fun s => { s with dir := s.dir.map fun dir => { dir with index } }

/-- The loop of `handle_dir_read`, over `left` entries from `index` on. -/
def dirReadFrom (id cluster : Nat) (buf : Buffer) : Nat → Nat → M Bool
  | 0, _ => complete id .endOfDirectory (.dirRead 0)
  | left + 1, index => do
    match ← readPlaced cluster index with
    | none => fault id
    | some entry =>
      if entry 0 = 0x00 then
        setDirIndex (index + 1)
        complete id .endOfDirectory (.dirRead 0)
      else if entry 0 = 0xE5 ∨ isDot entry then dirReadFrom id cluster buf left (index + 1)
      else if buf.size < (displayName entry).length then complete id .invalidBuffer .empty
      else if ← copyToShare buf.offset (displayName entry) then
        setDirIndex (index + 1)
        complete id .success (.dirRead (displayName entry).length)
      else complete id .invalidBuffer .empty

def handleDirRead (id fd : Nat) (buf : Buffer) : M Bool := do
  let s ← get
  match s.dir with
  | none => complete id .invalidFd .empty
  | some dir =>
    if fd ≠ fdDir then complete id .invalidFd .empty
    else dirReadFrom id dir.cluster buf (dir.limit - dir.index) dir.index

def handleDirClose (id fd : Nat) : M Bool := do
  let s ← get
  if fd ≠ fdDir ∨ s.dir.isNone then complete id .invalidFd .empty
  else
    modify fun s => { s with dir := none }
    complete id .success .empty

/-- The commands of the ring; `other` is any type the server does not know. -/
inductive Command
  | fileOpen (path : Buffer) (flags : Nat)
  | fileClose (fd : Nat)
  | fileWrite (fd offset : Nat) (buf : Buffer)
  | fileRead (fd offset : Nat) (buf : Buffer)
  | stat (path buf : Buffer)
  | rename (oldPath newPath : Buffer)
  | fileRemove (path : Buffer)
  | dirCreate (path : Buffer)
  | dirOpen (path : Buffer)
  | dirRead (fd : Nat) (buf : Buffer)
  | dirClose (fd : Nat)
  | other
  deriving DecidableEq, Repr

/-- `serve_one`, on the message the command ring gave. -/
def serveOne (id : Nat) : Command → M Bool
  | .fileOpen path flags => handleOpen id path flags
  | .fileClose fd => handleClose id fd
  | .fileWrite fd offset buf => handleWrite id fd offset buf
  | .fileRead fd offset buf => handleRead id fd offset buf
  | .stat path buf => handleStat id path buf
  | .rename oldPath newPath => handleRename id oldPath newPath
  | .fileRemove path => handleRemove id path
  | .dirCreate path => handleMkdir id path
  | .dirOpen path => handleDirOpen id path
  | .dirRead fd buf => handleDirRead id fd buf
  | .dirClose fd => handleDirClose id fd
  | .other => complete id .invalidCommand .empty

end Lerux.FatFs
