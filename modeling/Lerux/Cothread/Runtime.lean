import Mathlib.Data.List.Range
import Mathlib.Logic.Function.Basic
import Mathlib.Tactic

/-!
# The cothread runtime

`lerux-cothread`: up to eight cothreads share one kernel thread. The control block has one table
entry per handle, a circular scheduling queue, a circular queue of free handles, and one semaphore
per Microkit channel; further semaphores are the caller's. The waiters of a semaphore are a linked
list threaded through the table entries (`nextBlocked`).

Handles are the source's `i32` values. A panic is a result of its own (`Panic`). `step` runs one
library call by the running cothread, and reports what the call did as an `Event`.
-/

namespace Lerux.Cothread

/-- Cothreads in one protection domain, including the root kernel thread. -/
def maxCothreads : Nat := 8

/-- Stacks passed to the initialisation, one per worker. -/
def stackSlots : Nat := maxCothreads - 1

/-- Smallest stack the runtime accepts. -/
def minStackSize : Nat := 0x1000

/-- Microkit channel ids are `0..62`. -/
def microkitMaxChannels : Nat := 62

/-- Spawn result when every worker slot is in use; also the end of a waiter list. -/
def nullHandle : Int := -1

/-- Handle of the kernel thread. -/
def rootHandle : Int := 0

/-- Execution state of one cothread. -/
inductive State
  | notActive
  | blocked
  | ready
  | running
  deriving DecidableEq, Repr

/-- User-land semaphore. `SemLinks` in the source has the same fields. -/
structure Semaphore where
  set : Bool
  head : Int
  tail : Int
  deriving DecidableEq, Repr

/-- Empty queue and a clear signal. -/
def Semaphore.new : Semaphore := ⟨false, nullHandle, nullHandle⟩

/-- One table entry. The entry point and its argument are opaque words; the stack and the saved
context live in the handle itself. -/
structure Tcb where
  entry : Option Nat
  privateArg : Nat
  state : State
  nextBlocked : Int

def Tcb.empty : Tcb := ⟨none, 0, .notActive, nullHandle⟩

/-- The ways the runtime panics. -/
inductive Panic
  | notInitialised
  | alreadyInitialised
  | stackSize
  | stackNullOrMisaligned
  | stackOverflow
  | stackOverlap
  | queueFull
  | invalidHandle (handle : Int)
  | channelOutside (channel : Nat)
  | destroyRoot
  | destroyInactive
  | destroyBlocked
  | destroyNotCurrent
  | rootCannotWait
  | recvNtfnFromWorker
  | noEntry
  deriving DecidableEq, Repr

/-! ### The circular queue -/

/-- `Queue`: a count, two indices below `maxCothreads`, and the memory they index. -/
structure Queue where
  items : Nat
  head : Nat
  tail : Nat
  mem : Nat → Int

namespace Queue

def new : Queue := ⟨0, 0, 0, fun _ => 0⟩

def push (q : Queue) (handle : Int) : Except Panic Queue :=
  if q.items = maxCothreads then .error .queueFull
  else .ok ⟨q.items + 1, q.head, (q.tail + 1) % maxCothreads, Function.update q.mem q.tail handle⟩

def pop (q : Queue) : Option (Int × Queue) :=
  if q.items = 0 then none
  else some (q.mem q.head, ⟨q.items - 1, (q.head + 1) % maxCothreads, q.tail, q.mem⟩)

/-- The loop of `retain`: every pop takes one of the `fuel = items` handles. -/
def retainInto (keep : Int → Bool) : Nat → Queue → Queue → Except Panic Queue
  | 0, _, fresh => .ok fresh
  | fuel + 1, q, fresh =>
    match q.pop with
    | none => .ok fresh
    | some (handle, q) =>
      if keep handle then do retainInto keep fuel q (← fresh.push handle)
      else retainInto keep fuel q fresh

def retain (q : Queue) (keep : Int → Bool) : Except Panic Queue := retainInto keep q.items q new

end Queue

/-! ### The control block -/

/-- `Control`. -/
structure Control where
  initialised : Bool
  stackSize : Nat
  running : Int
  tcbs : Fin maxCothreads → Tcb
  free : Queue
  sched : Queue
  channels : Fin microkitMaxChannels → Semaphore

def Control.empty : Control where
  initialised := false
  stackSize := 0
  running := rootHandle
  tcbs := fun _ => Tcb.empty
  free := Queue.new
  sched := Queue.new
  channels := fun _ => Semaphore.new

/-- `idx`. -/
def idx (handle : Int) : Except Panic (Fin maxCothreads) :=
  if h : 0 ≤ handle ∧ handle.toNat < maxCothreads then .ok ⟨handle.toNat, h.2⟩
  else .error (.invalidHandle handle)

/-- `channel_index`. -/
def channelIndex (channel : Nat) : Except Panic (Fin microkitMaxChannels) :=
  if h : channel < microkitMaxChannels then .ok ⟨channel, h⟩ else .error (.channelOutside channel)

/-- `with_control`: every call but the initialisation asks for an initialised runtime. -/
def withControl {α : Type} (c : Control) (body : Control → Except Panic α) : Except Panic α :=
  if c.initialised then body c else .error .notInitialised

def Control.setTcb (c : Control) (i : Fin maxCothreads) (f : Tcb → Tcb) : Control :=
  { c with tcbs := Function.update c.tcbs i (f (c.tcbs i)) }

/-- The second loop of `validate_stacks`: each range `base..base + stackSize` of `usize` addresses
against the ones after it. -/
def validateRanges (stackSize : Nat) : List Nat → Except Panic Unit
  | [] => .ok ()
  | start :: rest => do
    if 2 ^ 64 ≤ start + stackSize then .error .stackOverflow
    rest.forM fun other => do
      if 2 ^ 64 ≤ other + stackSize then .error .stackOverflow
      if start < other + stackSize ∧ other < start + stackSize then .error .stackOverlap
    validateRanges stackSize rest

/-- `validate_stacks`. -/
def validateStacks (stackSize : Nat) (bases : List Nat) : Except Panic Unit := do
  bases.forM fun base => do
    if base = 0 ∨ base % 16 ≠ 0 then .error .stackNullOrMisaligned
  validateRanges stackSize bases

/-- The loop of the initialisation that fills the free queue with the worker handles. -/
def fillFree : Nat → Queue → Except Panic Queue
  | 0, q => .ok q
  | n + 1, q => do (← fillFree n q).push (n + 1 : Nat)

/-- `microkit_cothread_init`, on a controller whose earlier content is `c`. -/
def microkitCothreadInit (c : Control) (stackSize : Nat) (bases : List Nat) : Except Panic Control := do
  if ¬(minStackSize ≤ stackSize ∧ stackSize % 16 = 0) then .error .stackSize
  validateStacks stackSize bases
  if c.initialised then .error .alreadyInitialised
  let free ← fillFree stackSlots Queue.new
  let c := { Control.empty with stackSize, free, initialised := true }
  pure (c.setTcb ⟨0, by decide⟩ fun t => { t with state := .running })

/-! ### Scheduling -/

/-- The loop of `take_next`: the first queued handle that is the root or ready. The flag is raised
when the queue runs out and the root is taken instead. -/
def scanNext (tcbs : Fin maxCothreads → Tcb) : Nat → Queue → Except Panic (Int × Bool × Queue)
  | 0, q => .ok (rootHandle, true, q)
  | fuel + 1, q =>
    match q.pop with
    | none => .ok (rootHandle, true, q)
    | some (handle, q) =>
      if handle = rootHandle then .ok (handle, false, q)
      else do
        let i ← idx handle
        if (tcbs i).state = .ready then .ok (handle, false, q) else scanNext tcbs fuel q

/-- A context switch: the handle whose context is switched to, and whether `take_next` fell back to
the root on an empty queue. -/
structure Switch where
  target : Int
  fellBack : Bool
  deriving DecidableEq, Repr

/-- `take_next`. -/
def takeNext (c : Control) : Except Panic (Control × Switch) := do
  let (next, fellBack, sched) ← scanNext c.tcbs c.sched.items c.sched
  let i ← idx next
  pure ({ c with sched }.setTcb i (fun t => { t with state := .running }) |> fun c =>
    { c with running := next },
    ⟨next, fellBack⟩)

/-- `microkit_cothread_spawn`. -/
def spawn (c : Control) (entry privateArg : Nat) : Except Panic (Int × Control) :=
  withControl c fun c =>
    match c.free.pop with
    | none => .ok (nullHandle, c)
    | some (handle, free) => do
      let i ← idx handle
      let c := { c with free }.setTcb i fun _ => ⟨some entry, privateArg, .ready, nullHandle⟩
      let sched ← c.sched.push handle
      pure (handle, { c with sched })

/-- `microkit_cothread_yield`, up to its context switch. -/
def yield (c : Control) : Except Panic (Control × Switch) :=
  withControl c fun c => do
    let sched ← c.sched.push c.running
    let i ← idx c.running
    takeNext ({ c with sched }.setTcb i fun t => { t with state := .ready })

/-- `release`: the switch is there when the running cothread is the one released. -/
def release (c : Control) (handle : Int) : Except Panic (Control × Option Switch) := do
  let i ← idx handle
  if handle = rootHandle then .error .destroyRoot
  match (c.tcbs i).state with
  | .notActive => .error .destroyInactive
  | .blocked => .error .destroyBlocked
  | .running => if handle ≠ c.running then .error .destroyNotCurrent
  | .ready => pure ()
  let sched ← c.sched.retain fun queued => queued ≠ handle
  let free ← c.free.push handle
  let c := { c with sched, free }.setTcb i fun t => { t with state := .notActive, entry := none }
  if handle = c.running then do
    let (c, switch) ← takeNext c
    pure (c, some switch)
  else pure (c, none)

/-- `microkit_cothread_destroy`, up to its context switch. -/
def destroy (c : Control) (handle : Int) : Except Panic (Control × Option Switch) :=
  withControl c fun c => release c handle

/-- `lerux_cothread_started`: the entry point a fresh context runs first. -/
def started (c : Control) : Except Panic Nat :=
  withControl c fun c => do
    let i ← idx c.running
    match (c.tcbs i).entry with
    | some entry => pure entry
    | none => .error .noEntry

/-! ### Semaphores -/

/-- `block_running`. -/
def blockRunning (c : Control) (links : Semaphore) : Except Panic (Bool × Control × Semaphore) :=
  if links.set then .ok (false, c, { links with set := false })
  else
    withControl c fun c => do
      if c.running = rootHandle then .error .rootCannotWait
      let i ← idx c.running
      let c := c.setTcb i fun t => { t with state := .blocked, nextBlocked := nullHandle }
      if links.head = nullHandle then pure (true, c, { links with head := c.running, tail := c.running })
      else do
        let tail ← idx links.tail
        let c := c.setTcb tail fun t => { t with nextBlocked := c.running }
        pure (true, c, { links with tail := c.running })

/-- `signal_one`. The handle is the waiter that is woken and switched to. -/
def signalOne (c : Control) (links : Semaphore) : Except Panic (Option Int × Control × Semaphore) :=
  if links.set then .ok (none, c, links)
  else if links.head = nullHandle then .ok (none, c, { links with set := true })
  else do
    let head := links.head
    let i ← idx head
    let next := (c.tcbs i).nextBlocked
    let c := c.setTcb i fun t => { t with nextBlocked := nullHandle }
    let sched ← c.sched.push c.running
    let j ← idx c.running
    let c := { c with sched }.setTcb j fun t => { t with state := .ready }
    let links :=
      if next = nullHandle then { links with head := next, tail := nullHandle, set := false }
      else { links with head := next }
    let c := { c with running := head }.setTcb i fun t => { t with state := .running }
    pure (some head, c, links)

/-! ### One library call -/

/-- The semaphores: the caller's own, named by `σ`, and one per channel. -/
inductive SemId (σ : Type)
  | user (s : σ)
  | channel (c : Fin microkitMaxChannels)
  deriving DecidableEq

/-- The controller and the caller's semaphores. -/
structure World (σ : Type) where
  control : Control
  sems : σ → Semaphore

/-- The library calls, with what returning from the entry point does. -/
inductive Op (σ : Type)
  | spawn (entry privateArg : Nat)
  | yield
  | semaphoreWait (s : σ)
  | semaphoreSignal (s : σ)
  | waitOnChannel (channel : Nat)
  | recvNtfn (channel : Nat)
  | destroy (handle : Int)
  | entryReturn

/-- What one call did. A wait is the call of `waiter`; a signal released a waiter, was remembered, or
found the semaphore already set. -/
inductive Event (σ : Type)
  | spawned (handle : Int)
  | yielded
  | destroyed (handle : Int)
  | waitReturned (x : SemId σ) (waiter : Int)
  | waitBlocked (x : SemId σ) (waiter : Int)
  | released (x : SemId σ) (waiter : Int)
  | remembered (x : SemId σ)
  | absorbed (x : SemId σ)
  deriving DecidableEq

/-- The world after a call, what the call did, and the context switch it ends in. -/
structure Outcome (σ : Type) where
  world : World σ
  event : Event σ
  switch : Option Switch

section step

variable {σ : Type} [DecidableEq σ]

/-- The semaphore of a name. -/
def World.sem (w : World σ) : SemId σ → Semaphore
  | .user s => w.sems s
  | .channel c => w.control.channels c

/-- `SemLinks::apply`. -/
def World.setSem (w : World σ) (x : SemId σ) (links : Semaphore) : World σ :=
  match x with
  | .user s => { w with sems := Function.update w.sems s links }
  | .channel c => { w with control := { w.control with channels := Function.update w.control.channels c links } }

/-- The body of both waits: block or consume the sticky signal, write the links back, switch. -/
def waitOn (w : World σ) (x : SemId σ) : Except Panic (Outcome σ) := do
  let waiter := w.control.running
  let (blocked, control, links) ← blockRunning w.control (w.sem x)
  let w := { w with control }.setSem x links
  if blocked then
    let (control, switch) ← withControl w.control takeNext
    pure ⟨{ w with control }, .waitBlocked x waiter, some switch⟩
  else pure ⟨w, .waitReturned x waiter, none⟩

/-- The body of both signals. -/
def signalOn (w : World σ) (x : SemId σ) : Except Panic (Outcome σ) := do
  let (wake, control, links) ← withControl w.control fun c => signalOne c (w.sem x)
  let event := match wake with
    | some handle => .released x handle
    | none => if (w.sem x).set then .absorbed x else .remembered x
  pure ⟨{ w with control }.setSem x links, event, wake.map fun handle => ⟨handle, false⟩⟩

/-- One call by the running cothread. -/
def step (w : World σ) : Op σ → Except Panic (Outcome σ)
  | .spawn entry privateArg => do
    let (handle, control) ← spawn w.control entry privateArg
    pure ⟨{ w with control }, .spawned handle, none⟩
  | .yield => do
    let (control, switch) ← yield w.control
    pure ⟨{ w with control }, .yielded, some switch⟩
  | .semaphoreWait s => waitOn w (.user s)
  | .semaphoreSignal s => signalOn w (.user s)
  | .waitOnChannel channel => do
    let channel ← channelIndex channel
    withControl w.control fun _ => waitOn w (.channel channel)
  | .recvNtfn channel => do
    let channel ← channelIndex channel
    withControl w.control fun c => do
      if c.running ≠ rootHandle then .error .recvNtfnFromWorker
      signalOn w (.channel channel)
  | .destroy handle => do
    let (control, switch) ← destroy w.control handle
    pure ⟨{ w with control }, .destroyed handle, switch⟩
  | .entryReturn => do
    let (control, switch) ← destroy w.control w.control.running
    pure ⟨{ w with control }, .destroyed w.control.running, switch⟩

/-- A run of calls: the world it ends in and the events in call order. -/
def run (w : World σ) : List (Op σ) → Except Panic (World σ × List (Outcome σ))
  | [] => .ok (w, [])
  | op :: ops => do
    let out ← step w op
    let (w, outs) ← run out.world ops
    pure (w, out :: outs)

/-- The panics a call documents, as breaks of its caller's contract. -/
def Op.documents : Op σ → Panic → Prop
  | .semaphoreWait _, .rootCannotWait => True
  | .waitOnChannel _, .rootCannotWait => True
  | .waitOnChannel channel, .channelOutside c => c = channel ∧ microkitMaxChannels ≤ channel
  | .recvNtfn channel, .channelOutside c => c = channel ∧ microkitMaxChannels ≤ channel
  | .recvNtfn _, .recvNtfnFromWorker => True
  | .destroy handle, .invalidHandle h => h = handle ∧ ¬(0 ≤ handle ∧ handle.toNat < maxCothreads)
  | .destroy _, .destroyRoot => True
  | .destroy _, .destroyInactive => True
  | .destroy _, .destroyBlocked => True
  | .entryReturn, .destroyRoot => True
  | _, _ => False

end step

end Lerux.Cothread
