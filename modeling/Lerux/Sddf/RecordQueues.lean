import Lerux.Sddf.SerialQueue

/-!
# The block and graphics queues

`blk_queue.rs` and `gpu_queue.rs`: rings of requests and of responses with 32-bit cursors. Their functions
make the same loads and stores as the serial queue's, on slots that hold a record in place of a byte.
-/

namespace Lerux.RecordQueues

open Lerux.Base Lerux.SerialQueue

/-! ### Records -/

inductive BlkReqCode
  | read
  | write
  | flush
  | barrier
  deriving DecidableEq

inductive BlkRespStatus
  | ok
  | errUnspec
  | errInvalidParam
  | errIo
  | errNoDevice
  deriving DecidableEq

structure BlkReq where
  code : BlkReqCode
  ioOrOffset : BitVec 64
  blockNumber : BitVec 64
  count : BitVec 16
  id : BitVec 32
  deriving DecidableEq

structure BlkResp where
  status : BlkRespStatus
  successCount : BitVec 16
  id : BitVec 32
  deriving DecidableEq

inductive GpuReqCode
  | getDisplayInfo
  | resourceCreateBlob
  | setScanoutBlob
  | resourceCreate2d
  | setScanout
  | resourceAttachBacking
  | resourceDetachBacking
  | transferTo2d
  | resourceFlush
  | resourceUnref
  deriving DecidableEq

inductive GpuRespStatus
  | ok
  | errUnspec
  | errInvalidScanoutId
  | errInvalidResourceId
  | errInvalidBounds
  | errInvalidParameter
  deriving DecidableEq

/-- The payload is a union of 48 bytes. -/
structure GpuReq where
  code : GpuReqCode
  id : BitVec 32
  payload : BitVec 384
  deriving DecidableEq

structure GpuResp where
  status : GpuRespStatus
  id : BitVec 32
  deriving DecidableEq

/-- `payload.get_display_info.mem_offset`. -/
def GpuReq.memOffset (req : GpuReq) : BitVec 64 := req.payload.setWidth 64

/-! ### Queue functions -/

section functions

variable {α : Type}

/-- `blk_queue_full_req`, `blk_queue_full_resp`, `gpu_queue_full_req` and `gpu_queue_full_resp`: the
slots do not matter. -/
def queueFull (capacity : BitVec 32) : RingProg α Bool := do
  let tail ← loadTail
  let head ← loadHead
  return RingWord.isFull tail head capacity

variable (capacity : BitVec 32)

/-- `blk_enqueue_req`. -/
def blkEnqueueReq (code : BlkReqCode) (ioOrOffset blockNumber : BitVec 64) (count : BitVec 16)
    (id : BitVec 32) :
    RingProg BlkReq Int :=
  serialEnqueue capacity ⟨code, ioOrOffset, blockNumber, count, id⟩

/-- `blk_dequeue_req`, with the request in place of status zero. -/
def blkDequeueReq : RingProg BlkReq (Option BlkReq) := serialDequeue capacity

/-- `blk_enqueue_resp`. -/
def blkEnqueueResp (status : BlkRespStatus) (successCount : BitVec 16) (id : BitVec 32) :
    RingProg BlkResp Int :=
  serialEnqueue capacity ⟨status, successCount, id⟩

/-- `blk_dequeue_resp`. -/
def blkDequeueResp : RingProg BlkResp (Option BlkResp) := serialDequeue capacity

/-- `gpu_enqueue_req`. -/
def gpuEnqueueReq (req : GpuReq) : RingProg GpuReq Int := serialEnqueue capacity req

/-- `gpu_dequeue_req`. -/
def gpuDequeueReq : RingProg GpuReq (Option GpuReq) := serialDequeue capacity

/-- `gpu_enqueue_resp`. -/
def gpuEnqueueResp (resp : GpuResp) : RingProg GpuResp Int := serialEnqueue capacity resp

/-- `gpu_dequeue_resp`. -/
def gpuDequeueResp : RingProg GpuResp (Option GpuResp) := serialDequeue capacity

end functions

/-! ### As a library of ring functions -/

/-- The functions on one ring, of requests or of responses. -/
inductive RecordFn (Req Resp : Type)
  | full
  | enqueueReq (req : Req)
  | dequeueReq
  | enqueueResp (resp : Resp)
  | dequeueResp
  deriving DecidableEq

section library

variable {Req Resp : Type}

def RecordFn.Res : RecordFn Req Resp → Type
  | .full => Bool
  | .enqueueReq _ => Int
  | .dequeueReq => Option Req
  | .enqueueResp _ => Int
  | .dequeueResp => Option Resp

/-- The record queues as a library. All slots have one type, so that the rings of a system have; a function
on requests is only called on a ring that gets nothing else. -/
def recordLib (Req Resp : Type) : RingLib 32 (Req ⊕ Resp) where
  Fn := RecordFn Req Resp
  Res := RecordFn.Res
  role
    | .dequeueReq => .consumer
    | .dequeueResp => .consumer
    | _ => .producer
  early _ := False
  body cap
    | .full => queueFull (BitVec.ofNat 32 cap)
    | .enqueueReq req => serialEnqueue (BitVec.ofNat 32 cap) (.inl req)
    | .dequeueReq => (serialDequeue (BitVec.ofNat 32 cap)).bind fun x => .ret (x.bind Sum.getLeft?)
    | .enqueueResp resp => serialEnqueue (BitVec.ofNat 32 cap) (.inr resp)
    | .dequeueResp => (serialDequeue (BitVec.ofNat 32 cap)).bind fun x => .ret (x.bind Sum.getRight?)
  spec cap
    | .full, q => (decide (q.length = cap), none)
    | .enqueueReq req, q => push cap (.inl req) q
    | .dequeueReq, q => ((pop q).1.bind Sum.getLeft?, (pop q).2)
    | .enqueueResp resp, q => push cap (.inr resp) q
    | .dequeueResp, q => ((pop q).1.bind Sum.getRight?, (pop q).2)

variable {cap : Nat} {exact early : Prop}

theorem full_lin {α : Type} (hg : Ring.Counts 32 cap) :
    RingLib.Lin (α := α) cap .producer exact early (fun q => (decide (q.length = cap), none)) none
      (queueFull (BitVec.ofNat 32 cap)) fun _ => True := by
  apply RingLib.lin_act
  intro r _ _
  refine ⟨RingLib.guar_loadTail, .inr ⟨rfl, fun r' => r'.tail = r.tail, fun _ _ h => h, rfl, ?_⟩⟩
  apply RingLib.lin_act
  intro r' _ ht
  have hfull := RingWord.isFull_iff r' (BitVec.ofNat 32 cap)
  rw [ht, capacity_toNat hg] at hfull
  refine ⟨RingLib.guar_loadHead, .inl ⟨_, r'.contents cap, none,
    by simp, rfl, rfl, fun _ => ⟨rfl, rfl⟩, ?_⟩⟩
  rw [Ring.contents_length]
  exact congrArg Prog.ret (Bool.eq_iff_iff.mpr (hfull.trans decide_eq_true_iff.symm))

/-- Every function of the record queues is one operation on a bounded list. -/
theorem recordLib_linearises (hg : Ring.Counts 32 cap) (hx : exact → Ring.Good 32 cap)
    (f : RecordFn Req Resp) :
    (recordLib Req Resp).Linearises cap exact f := by
  cases f with
  | full => exact full_lin hg
  | enqueueReq req => exact enqueue_lin hg (Sum.inl req)
  | dequeueReq => exact (dequeue_lin hg hx).map fun x => x.bind Sum.getLeft?
  | enqueueResp resp => exact enqueue_lin hg (Sum.inr resp)
  | dequeueResp => exact (dequeue_lin hg hx).map fun x => x.bind Sum.getRight?

theorem recordLib_body (f : RecordFn Req Resp) (b : f.Res) : (recordLib Req Resp).body cap f ≠ .ret b := by
  cases f <;> exact nofun

/-- The two dequeues are the consumer's calls. -/
theorem role_eq_consumer (f : RecordFn Req Resp) :
    (recordLib Req Resp).role f = .consumer ↔ f = .dequeueReq ∨ f = .dequeueResp := by
  cases f <;> simp [recordLib]

end library

end Lerux.RecordQueues
