import Lerux.Base.Outcome
import Lerux.FatFs.Server
import Lerux.Sddf.RingWord

/-!
# The file client

`Files` of `lerux-posix`: descriptors over the filesystem's command and completion rings, with paths
and file bytes in windows of a share. A call enqueues one command at a time, wakes the peer at most
twice, and dequeues one completion after each wake (`exchange`).

The peer is a function with a state of its own that may change all the shared memory. It has a turn
before each access of the client to the share and to the command ring, and in each wake. `staged`,
`placed`, `sent`, `looks`, `exchanges` and `accesses` are a record of the run that the code does not
have.
-/

namespace Lerux.Posix

open Lerux.Base (Ring attempt)
open Lerux.FatFs (Bytes Buffer Command slice copyAt)

/-! ### The queues -/

def fsQueueCapacity : BitVec 64 := 511

/-- A command in the ring. `placed` is what the client put in the share for it, by offset. -/
structure FsCmd where
  id : BitVec 64
  params : Command
  placed : List (Nat × List UInt8)

/-- A completion. The members of its data union are one `u64` each, at one place. -/
structure FsCmpl where
  id : BitVec 64
  status : BitVec 64
  data : BitVec 64
  deriving DecidableEq

section queue

variable {α : Type}

/-- `fs_command_enqueue` and `fs_completion_enqueue`. -/
def fsEnqueue (queue : Ring 64 α) (msg : α) : Int × Ring 64 α :=
  let tail := queue.tail
  let head := queue.head
  if RingWord.isFull tail head fsQueueCapacity then (-1, queue)
  else
    (0, (queue.write (RingWord.index tail fsQueueCapacity).toNat msg).storeTail
      (RingWord.advanceTail tail head fsQueueCapacity))

/-- `fs_message_dequeue`; -1 is no message. -/
def fsMessageDequeue (queue : Ring 64 α) : Option α × Ring 64 α :=
  let head := queue.head
  let tail := queue.tail
  if RingWord.isEmpty tail head then (none, queue)
  else
    (some (queue.slot (RingWord.index head fsQueueCapacity).toNat),
      queue.storeHead (RingWord.advanceHead head tail))

end queue

/-! ### The client -/

def tableLen : Nat := 125
def shareMin : Nat := 0x8000
def pathLimit : Nat := 4095
def pathA : Nat := 0
def pathB : Nat := 4096
def statAt : Nat := 8192
def dataAt : Nat := 8336
def dataLen : Nat := shareMin - dataAt
def statSize : Nat := 136

structure Errno where
  code : Int
  deriving DecidableEq, Repr

def Errno.fileErr : Errno := ⟨1⟩
def Errno.enoent : Errno := ⟨2⟩
def Errno.ebadf : Errno := ⟨9⟩
def Errno.enomem : Errno := ⟨12⟩
def Errno.eacces : Errno := ⟨13⟩
def Errno.ebusy : Errno := ⟨16⟩
def Errno.eexist : Errno := ⟨17⟩
def Errno.enotdir : Errno := ⟨20⟩
def Errno.einval : Errno := ⟨22⟩
def Errno.emfile : Errno := ⟨24⟩
def Errno.enospc : Errno := ⟨28⟩
def Errno.enametoolong : Errno := ⟨36⟩
def Errno.enotempty : Errno := ⟨39⟩

inductive Open
  | read | write | readWrite | createRead | createWrite | createReadWrite
  deriving DecidableEq, Repr

inductive Access
  | read | write | readWrite
  deriving DecidableEq, Repr

def Access.canRead : Access → Bool
  | .read | .readWrite => true
  | .write => false

def Access.canWrite : Access → Bool
  | .write | .readWrite => true
  | .read => false

/-- A local descriptor. -/
structure Fd where
  number : Nat
  low : 3 ≤ number
  high : number < 128
  deriving DecidableEq

def Fd.index (fd : Fd) : Fin tableLen := ⟨fd.number - 3,
    by have := fd.low; have := fd.high; unfold tableLen; omega⟩

def Fd.ofIndex (index : Fin tableLen) : Fd :=
  ⟨index + 3, by omega, by have := index.isLt; unfold tableLen at this; omega⟩

inductive Slot
  | empty
  | file (server : BitVec 64) (access : Access) (cursor : BitVec 64)
  | dir (server : BitVec 64)
  deriving DecidableEq

inductive Flight
  | idle
  | waiting (id : BitVec 64)
  deriving DecidableEq

structure Stat where
  dev : BitVec 64
  ino : BitVec 64
  mode : BitVec 64
  nlink : BitVec 64
  uid : BitVec 64
  gid : BitVec 64
  rdev : BitVec 64
  size : BitVec 64
  blksize : BitVec 64
  blocks : BitVec 64
  atime : BitVec 64
  mtime : BitVec 64
  ctime : BitVec 64
  atimeNsec : BitVec 64
  mtimeNsec : BitVec 64
  ctimeNsec : BitVec 64
  used : BitVec 64
  deriving DecidableEq

/-- The memory the client shares with its peer. -/
structure Mem where
  command : Ring 64 FsCmd
  completion : Ring 64 FsCmpl
  share : Bytes

/-- A peer's turn. -/
abbrev Peer (σ : Type) := σ → Mem → σ × Mem

/-- An access of the client to the share, with the peer and the memory at that moment. -/
structure ShareAccess (σ : Type) where
  store : Bool
  offset : Nat
  bytes : List UInt8
  peer : σ
  mem : Mem

/-- One `exchange`: the id it allocated, the command ring behind its enqueue, the completion ring
after each of its wakes, and its result. -/
structure Exchange where
  id : BitVec 64
  sent : Ring 64 FsCmd
  looks : List (Ring 64 FsCmpl)
  result : Except Errno FsCmpl

/-- `Files`, with the buffer its caller lent, the shared memory and the peer. -/
structure Client (σ : Type) where
  shareLen : Nat
  nextId : BitVec 64
  flight : Flight
  slots : Fin tableLen → Slot
  lent : List UInt8
  mem : Mem
  peer : σ
  staged : List (Nat × List UInt8)
  sent : Ring 64 FsCmd
  looks : List (Ring 64 FsCmpl)
  exchanges : List Exchange
  accesses : List (ShareAccess σ)

abbrev Call (σ : Type) := EStateM Errno (Client σ)

/-- `bind`; a null pointer is no memory. -/
def bind {σ : Type} (mem : Option Mem) (shareLen : Nat) (peer : σ) : Except Errno (Client σ) :=
  match mem with
  | none => .error .einval
  | some mem =>
    if shareLen < shareMin then .error .einval
    else .ok ⟨shareLen, 1, .idle, fun _ => .empty, [], mem, peer, [], mem.command, [], [], []⟩

/-! ### Wire values -/

def mapStatus (status : BitVec 64) : Except Errno Unit :=
  match status.toNat with
  | 0 => .ok ()
  | 1 | 14 | 9 => .error .fileErr
  | 2 | 7 | 13 => .error .einval
  | 3 | 15 => .error .enoent
  | 4 => .error .ebadf
  | 5 => .error .enomem
  | 6 => .error .ebusy
  | 8 => .error .emfile
  | 10 | 11 => .error .eacces
  | 12 => .error .enospc
  | 16 => .error .enotdir
  | 17 => .error .eexist
  | 18 => .error .enotempty
  | _ => .error .fileErr

def endOfDirectory : BitVec 64 := 14

def accessOf : Open → Access
  | .read | .createRead => .read
  | .write | .createWrite => .write
  | .readWrite | .createReadWrite => .readWrite

def wireFlags : Open → Nat
  | .read => 0
  | .write => 1
  | .readWrite => 2
  | .createRead => 4
  | .createWrite => 4 ||| 1
  | .createReadWrite => 4 ||| 2

def completedLen (n : BitVec 64) (chunk : Nat) : Option Nat := if n.toNat ≤ chunk then some n.toNat
    else none

/-- The `k`-th `u64` of the bytes. -/
def word (bytes : List UInt8) (k : Nat) : BitVec 64 :=
  BitVec.ofNat 64 (((bytes.drop (8 * k)).take 8).foldr (fun byte rest => byte.toNat + 256 * rest) 0)

def statOf (bytes : List UInt8) : Stat where
  dev := word bytes 0
  ino := word bytes 1
  mode := word bytes 2
  nlink := word bytes 3
  uid := word bytes 4
  gid := word bytes 5
  rdev := word bytes 6
  size := word bytes 7
  blksize := word bytes 8
  blocks := word bytes 9
  atime := word bytes 10
  mtime := word bytes 11
  ctime := word bytes 12
  atimeNsec := word bytes 13
  mtimeNsec := word bytes 14
  ctimeNsec := word bytes 15
  used := word bytes 16

/-! ### The exchange -/

section calls

variable {σ : Type} (peer : Peer σ)

def turn : Call σ Unit := modify fun c =>
  let (p, m) := peer c.peer c.mem
  { c with peer := p, mem := m }

/-- A copy into the share. -/
def toShare (offset : Nat) (bytes : List UInt8) : Call σ Unit := do
  turn peer
  modify fun c => { c with
    mem := { c.mem with share := copyAt offset bytes c.mem.share }
    staged := c.staged ++ [(offset, bytes)]
    accesses := c.accesses ++ [⟨true, offset, bytes, c.peer, c.mem⟩] }

/-- A copy out of the share. -/
def fromShare (offset size : Nat) : Call σ (List UInt8) := do
  turn peer
  modify fun c => { c with accesses := c.accesses ++
    [⟨false, offset, slice c.mem.share offset size, c.peer, c.mem⟩] }
  let c ← get
  pure (slice c.mem.share offset size)

/-- Put a command in the ring. -/
def fsCommandEnqueue (id : BitVec 64) (params : Command) : Call σ Int := do
  turn peer
  let c ← get
  let (status, command) := fsEnqueue c.mem.command (FsCmd.mk id params c.staged)
  set { c with mem := { c.mem with command }, staged := [], sent := command }
  pure status

def orThrow {α : Type} : Except Errno α → Call σ α
  | .ok a => pure a
  | .error err => throw err

def allocId : Call σ (BitVec 64) := do
  let c ← get
  let next := c.nextId + 1
  set { c with nextId := if next = 0 then 1 else next }
  pure c.nextId

def setFlight (flight : Flight) : Call σ Unit := modify fun c => { c with flight }

def takeMatch : Call σ (Option FsCmpl) := do
  let c ← get
  match c.flight with
  | .idle => pure none
  | .waiting id =>
    let (got, completion) := fsMessageDequeue c.mem.completion
    set { c with mem := { c.mem with completion }, looks := c.looks ++ [c.mem.completion] }
    pure (got.filter fun cmpl => cmpl.id = id)

/-- The end of an exchange. -/
def finish (id : BitVec 64) (result : Except Errno FsCmpl) : Call σ FsCmpl := do
  setFlight .idle
  modify fun c => { c with exchanges := c.exchanges ++ [⟨id, c.sent, c.looks, result⟩] }
  orThrow result

/-- The wakes that are left. -/
def await (id : BitVec 64) : Nat → Call σ FsCmpl
  | 0 => finish id (.error .fileErr)
  | left + 1 => do
    turn peer
    match ← takeMatch with
    | some cmpl => finish id (.ok cmpl)
    | none => await id left

def exchange (params : Command) : Call σ FsCmpl := do
  match (← get).flight with
  | .waiting _ => throw .ebusy
  | .idle =>
    modify fun c => { c with looks := [] }
    let id ← allocId
    setFlight (.waiting id)
    let enqueued ← fsCommandEnqueue peer id params
    if enqueued ≠ 0 then finish id (.error .enomem) else await peer id 2

/-! ### The calls -/

def idle : Call σ Unit := do
  match (← get).flight with
  | .idle => pure ()
  | .waiting _ => throw .ebusy

/-- The first empty slot. -/
def freeSlot : Call σ (Fin tableLen) := do
  let c ← get
  match (List.finRange tableLen).find? (fun i => c.slots i = .empty) with
  | some index => pure index
  | none => throw .emfile

def setSlot (index : Fin tableLen) (slot : Slot) : Call σ Unit :=
  modify fun c => { c with slots := Function.update c.slots index slot }

def live (fd : Fd) : Call σ (BitVec 64 × Access × BitVec 64) := do
  match (← get).slots fd.index with
  | .file server access cursor => pure (server, access, cursor)
  | .empty | .dir _ => throw .ebadf

def dirLive (fd : Fd) : Call σ (BitVec 64) := do
  match (← get).slots fd.index with
  | .dir server => pure server
  | .empty | .file _ _ _ => throw .ebadf

def Slot.withCursor (cursor : BitVec 64) : Slot → Slot
  | .file server access _ => .file server access cursor
  | slot => slot

def setCursor (fd : Fd) (cursor : BitVec 64) : Call σ Unit :=
  modify fun c => { c with slots := Function.update c.slots fd.index ((c.slots fd.index).withCursor cursor) }

def place (path : List UInt8) (offset : Nat) : Call σ Buffer := do
  if pathLimit < path.length then throw .enametoolong
  else if (← get).shareLen < offset + path.length then throw .einval
  else do
    toShare peer offset path
    pure ⟨offset, path.length⟩

def keepOr (done : Nat) (err : Errno) : Call σ Nat := if 0 < done then pure done else throw err

/-- What a transfer does around an exchange: before it, with the bytes done and the chunk, the
command it sends, and after it, with the bytes done and those completed. -/
structure Transfer (σ : Type) where
  stage : Nat → Nat → Call σ Unit
  command : BitVec 64 → Buffer → Command
  land : Nat → Nat → Call σ Unit

/-- The loop of `read` and `write`, over a buffer of `len` bytes. A turn that is not the last one
moves a whole chunk, of a byte at least. -/
def transfer (t : Transfer σ) (fd : Fd) (len : Nat) : Nat → BitVec 64 → Nat → Call σ Nat
  | 0, _, done => pure done
  | fuel + 1, cursor, done =>
    if len ≤ done then pure done
    else do
      let chunk := min (len - done) dataLen
      t.stage done chunk
      match ← attempt (exchange peer (t.command cursor ⟨dataAt, chunk⟩)) with
      | .error err => keepOr done err
      | .ok cmpl =>
        match mapStatus cmpl.status with
        | .error err => keepOr done err
        | .ok () =>
          match completedLen cmpl.data chunk with
          | none => keepOr done .fileErr
          | some n => do
            t.land done n
            let cursor := cursor + BitVec.ofNat 64 n
            setCursor fd cursor
            if n < chunk then pure (done + n) else transfer t fd len fuel cursor (done + n)

/-- The bytes over those of the lent buffer from `done` on. -/
def copyOut (done : Nat) (bytes : List UInt8) : Call σ Unit :=
  modify fun c => { c with lent := c.lent.take done ++ bytes ++ c.lent.drop (done + bytes.length) }

def readTransfer (server : BitVec 64) : Transfer σ where
  stage _ _ := pure ()
  command cursor buf := .fileRead server.toNat cursor.toNat buf
  land done n := do copyOut done (← fromShare peer dataAt n)

def writeTransfer (server : BitVec 64) (buf : List UInt8) : Transfer σ where
  stage done chunk := toShare peer dataAt ((buf.drop done).take chunk)
  command cursor buf := .fileWrite server.toNat cursor.toNat buf
  land _ _ := pure ()

def openFile (path : List UInt8) (how : Open) : Call σ Fd := do
  idle
  let index ← freeSlot
  let path ← place peer path pathA
  let cmpl ← exchange peer (.fileOpen path (wireFlags how))
  orThrow (mapStatus cmpl.status)
  setSlot index (.file cmpl.data (accessOf how) 0)
  pure (Fd.ofIndex index)

def openDir (path : List UInt8) : Call σ Fd := do
  idle
  let index ← freeSlot
  let path ← place peer path pathA
  let cmpl ← exchange peer (.dirOpen path)
  orThrow (mapStatus cmpl.status)
  setSlot index (.dir cmpl.data)
  pure (Fd.ofIndex index)

def readDir (fd : Fd) (buf : List UInt8) : Call σ (Option Nat) := do
  idle
  let server ← dirLive fd
  if buf.isEmpty then throw .einval
  else do
    let chunk := min buf.length dataLen
    let cmpl ← exchange peer (.dirRead server.toNat ⟨dataAt, chunk⟩)
    if cmpl.status = endOfDirectory then pure none
    else do
      orThrow (mapStatus cmpl.status)
      match completedLen cmpl.data chunk with
      | none => throw .fileErr
      | some n => do
        copyOut 0 (← fromShare peer dataAt n)
        pure (some n)

def read (fd : Fd) (buf : List UInt8) : Call σ Nat := do
  idle
  let (server, access, cursor) ← live fd
  if !access.canRead then throw .eacces
  else if buf.isEmpty then pure 0
  else transfer peer (readTransfer peer server) fd buf.length buf.length cursor 0

def write (fd : Fd) (buf : List UInt8) : Call σ Nat := do
  idle
  let (server, access, cursor) ← live fd
  if !access.canWrite then throw .eacces
  else if buf.isEmpty then pure 0
  else transfer peer (writeTransfer peer server buf) fd buf.length buf.length cursor 0

def mkdir (path : List UInt8) : Call σ Unit := do
  idle
  let path ← place peer path pathA
  let cmpl ← exchange peer (.dirCreate path)
  orThrow (mapStatus cmpl.status)

def unlink (path : List UInt8) : Call σ Unit := do
  idle
  let path ← place peer path pathA
  let cmpl ← exchange peer (.fileRemove path)
  orThrow (mapStatus cmpl.status)

def rename (from_ to_ : List UInt8) : Call σ Unit := do
  idle
  let oldPath ← place peer from_ pathA
  let newPath ← place peer to_ pathB
  let cmpl ← exchange peer (.rename oldPath newPath)
  orThrow (mapStatus cmpl.status)

def stat (path : List UInt8) : Call σ Stat := do
  idle
  let path ← place peer path pathA
  let cmpl ← exchange peer (.stat path ⟨statAt, statSize⟩)
  orThrow (mapStatus cmpl.status)
  statOf <$> fromShare peer statAt statSize

def close (fd : Fd) : Call σ Unit := do
  idle
  match (← get).slots fd.index with
  | .file server _ _ => do
    let cmpl ← exchange peer (.fileClose server.toNat)
    setSlot fd.index .empty
    orThrow (mapStatus cmpl.status)
  | .empty | .dir _ => throw .ebadf

def closeDir (fd : Fd) : Call σ Unit := do
  idle
  match (← get).slots fd.index with
  | .dir server => do
    let cmpl ← exchange peer (.dirClose server.toNat)
    setSlot fd.index .empty
    orThrow (mapStatus cmpl.status)
  | .empty | .file _ _ _ => throw .ebadf

/-! ### Runs -/

inductive Request
  | openFile (path : List UInt8) (how : Open)
  | openDir (path : List UInt8)
  | readDir (fd : Fd) (buf : List UInt8)
  | read (fd : Fd) (buf : List UInt8)
  | write (fd : Fd) (buf : List UInt8)
  | mkdir (path : List UInt8)
  | unlink (path : List UInt8)
  | rename (from_ to_ : List UInt8)
  | stat (path : List UInt8)
  | close (fd : Fd)
  | closeDir (fd : Fd)

inductive Reply
  | done
  | fd (fd : Fd)
  | name (len : Option Nat)
  | count (n : Nat)
  | stat (stat : Stat)
  deriving DecidableEq

/-- The buffer that a request lends. -/
def Request.buf : Request → List UInt8
  | .readDir _ buf => buf
  | .read _ buf => buf
  | .write _ buf => buf
  | _ => []

/-- The call, on the buffer it was lent. -/
def Request.call : Request → Call σ Reply
  | .openFile path how => .fd <$> Posix.openFile peer path how
  | .openDir path => .fd <$> Posix.openDir peer path
  | .readDir fd buf => .name <$> Posix.readDir peer fd buf
  | .read fd buf => .count <$> Posix.read peer fd buf
  | .write fd buf => .count <$> Posix.write peer fd buf
  | .mkdir path => (fun _ => .done) <$> Posix.mkdir peer path
  | .unlink path => (fun _ => .done) <$> Posix.unlink peer path
  | .rename from_ to_ => (fun _ => .done) <$> Posix.rename peer from_ to_
  | .stat path => .stat <$> Posix.stat peer path
  | .close fd => (fun _ => .done) <$> Posix.close peer fd
  | .closeDir fd => (fun _ => .done) <$> Posix.closeDir peer fd

def perform (req : Request) : Call σ Reply := do
  modify fun c => { c with lent := req.buf, staged := [] }
  req.call peer

/-- The clients that a sequence of calls leads to. -/
inductive Ran : Client σ → Prop
  | bind {mem : Mem} {shareLen : Nat} {p : σ} {c : Client σ} (h : bind (some mem) shareLen p =
      .ok c) : Ran c
  | call {c : Client σ} (h : Ran c) (req : Request) : Ran (Base.final (perform peer req) c)

end calls

end Lerux.Posix
