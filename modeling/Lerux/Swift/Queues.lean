import Lerux.Base.Conc
import Lerux.Swift.Reads

/-!
# The driver and the controller of the disk

`swift-nvme/src/main.rs`: commands go to the controller through two pairs of queues with two places
each, and a command is done when the next place of the completion queue has the expected phase bit.
The driver looks at nothing else of a completion than its phase and its status.

The controller takes submissions in order up to the doorbell, works on what it has taken in any
order and for any time, and may go on after the driver has given up. `reads_faithful` says what then
holds of every run of the loader: a sector that is given is the one asked for, a completion that is
taken is that of the last command, and nothing is submitted after a read that failed.
-/

namespace Lerux.Swift

open Lerux.Base

/-! ### The memory they share -/

inductive Qid
  | admin
  | io
  deriving DecidableEq

/-- `Sqe`. -/
structure Sqe where
  opcode : Nat
  nsid : Nat
  prp : Nat
  cdw10 : Nat
  cdw11 : Nat
  cdw12 : Nat
  deriving DecidableEq

/-- A place of a submission queue. Which of all commands it is the driver does not write, and
neither side reads it. -/
structure Entry where
  cid : Fin (2 ^ 16)
  cmd : Sqe
  serial : Nat
  deriving DecidableEq

/-- A place of a completion queue, with the entry it completes, which the controller does not write. -/
structure Cqe where
  cid : Fin (2 ^ 16)
  phase : Fin 2
  status : Fin (2 ^ 15)
  completes : Option Entry
  deriving DecidableEq

/-- The last dword of a completion. -/
def Cqe.dw3 (c : Cqe) : Nat := c.cid + 2 ^ 16 * c.phase + 2 ^ 17 * c.status

/-- A pair of queues, its doorbells, where the controller is in it, and how many commands it has
completed. -/
structure Pair where
  sq : Nat → Entry
  cq : Nat → Cqe
  tailDoorbell : Nat
  headDoorbell : Nat
  sqHead : Nat
  cqTail : Nat
  cqPhase : Fin 2
  taken : List Entry
  finished : Nat

/-- What a run records. -/
inductive Note
  | submit (q : Qid) (e : Entry)
  | complete (q : Qid) (c : Cqe)
  | answer (lba : Nat) (r : Option Sector)

structure Memory where
  pair : Qid → Pair
  data : Sector
  serial : Nat
  log : List Note

def dmaPhys : Nat := 0x01f00000

def dataOffset : Nat := 0x4000

def zeroSector : Sector := ⟨List.replicate 512 0, List.length_replicate⟩

/-- A command that reads one sector to the place of the data. -/
def Sqe.reads (cmd : Sqe) : Prop := cmd.opcode = 2 ∧ cmd.nsid = 1 ∧ cmd.prp = dmaPhys + dataOffset ∧
    cmd.cdw12 = 0

/-- The sector it reads. -/
def Sqe.lba (cmd : Sqe) : Nat := cmd.cdw10 + 2 ^ 32 * cmd.cdw11

/-- A step of a controller over a disk. What it brings from the disk is in place when it says that
it has read it; until then it may write anything there. -/
inductive Device (disk : Nat → Sector) (m : Memory) : Memory → Prop
  | fetch (q : Qid) (h : (m.pair q).sqHead ≠ (m.pair q).tailDoorbell) :
    Device disk m { m with pair := Function.update m.pair q { m.pair q with
      sqHead := ((m.pair q).sqHead + 1) % 2
      taken := (m.pair q).taken ++ [(m.pair q).sq (m.pair q).sqHead] } }
  | transfer (e : Entry) (h : e ∈ (m.pair .io).taken)
      (data : Sector) : Device disk m { m with data := data }
  | complete (q : Qid) (before after : List Entry) (e : Entry) (status : Fin (2 ^ 15))
      (h : (m.pair q).taken = before ++ e :: after)
      (hdata : q = .io → e.cmd.reads → status = 0 → m.data = disk e.cmd.lba) :
    Device disk m { m with pair := Function.update m.pair q { m.pair q with
      cq := Function.update (m.pair q).cq (m.pair q).cqTail ⟨e.cid, (m.pair q).cqPhase, status, some e⟩
      cqTail := ((m.pair q).cqTail + 1) % 2
      cqPhase := if (m.pair q).cqTail = 1 then (m.pair q).cqPhase + 1 else (m.pair q).cqPhase
      taken := before ++ after
      finished := (m.pair q).finished + 1 } }

/-! ### The driver -/

inductive Op
  | zero
  | entry (q : Qid) (slot : Nat) (cid : Fin (2 ^ 16)) (cmd : Sqe)
  | doorbell (qid value : Nat)
  | dw3 (q : Qid) (slot : Nat)
  | copy
  | completed (q : Qid) (c : Cqe)
  | answer (lba : Nat) (r : Option Sector)
  | wait
  | panic
  | device

def nvmeSig : Sig where
  Op := Op
  Res
    | .dw3 _ _ => Cqe
    | .copy => Sector
    | .panic => Empty
    | _ => Unit

abbrev NvmeProg := Prog nvmeSig

def act (o : Op) : NvmeProg (nvmeSig.Res o) := Prog.op (S := nvmeSig) o

/-- Where the driver is in a pair of queues. -/
structure Side where
  tail : Nat
  head : Nat
  phase : Nat

/-- `Ctrl`. The registers, the memory and the stride of the doorbells are those of the operations. -/
structure Ctrl where
  admin : Side
  io : Side
  cid : Fin (2 ^ 16)

def Ctrl.side (c : Ctrl) : Qid → Side
  | .admin => c.admin
  | .io => c.io

def Ctrl.setSide (c : Ctrl) (q : Qid) (s : Side) : Ctrl :=
  match q with
  | .admin => { c with admin := s }
  | .io => { c with io := s }

/-- `submit`. -/
def submit (q : Qid) (slot : Nat) (cmd : Sqe) (c : Ctrl) : NvmeProg Ctrl := do
  act (.entry q slot c.cid cmd)
  return { c with cid := c.cid + 1 }

/-- `ring`. -/
def ring (c : Ctrl) (qid : Nat) : NvmeProg Unit :=
  let tail := if qid = 0 then c.admin.tail else if qid = 2 then c.io.tail else 0
  let head := if qid = 1 then c.admin.head else if qid = 3 then c.io.head else tail
  act (.doorbell qid (if qid % 2 = 0 then tail else head))

/-- `SPIN`. -/
def spin : Nat := 200000

/-- The turns of `poll`, and a note of the completion it takes. -/
def pollFrom (q : Qid) (slot phase : Nat) : Nat → NvmeProg (Option Nat)
  | 0 => return none
  | n + 1 => do
    let c ← act (.dw3 q slot)
    if (c.dw3 >>> 16) &&& 1 = phase then
      act (.completed q c)
      return some ((c.dw3 >>> 17) &&& 0x7fff)
    else pollFrom q slot phase n

/-- `poll`. -/
def poll (q : Qid) (head phase : Nat) : NvmeProg (Option Nat) := pollFrom q (head &&& 1) phase spin

/-- The numbers of the doorbells of a pair. -/
def sqDoorbell : Qid → Nat
  | .admin => 0
  | .io => 2

def cqDoorbell : Qid → Nat
  | .admin => 1
  | .io => 3

/-- What `admin` and `io_read` have in common. -/
def command (q : Qid) (cmd : Sqe) (c : Ctrl) : NvmeProg (Option Nat × Ctrl) := do
  let c ← submit q (c.side q).tail cmd c
  let c := c.setSide q { c.side q with tail := ((c.side q).tail + 1) % 2 ^ 16 &&& 1 }
  ring c (sqDoorbell q)
  match ← poll q (c.side q).head (c.side q).phase with
  | none => return (none, c)
  | some status =>
    let head := ((c.side q).head + 1) % 2 ^ 16
    let c := if head % 2 = 0 then c.setSide q { c.side q with head := 0, phase := (c.side q).phase ^^^ 1 }
      else c.setSide q { c.side q with head := head }
    ring c (cqDoorbell q)
    return (if status = 0 then some 0 else none, c)

/-- `io_allowed`. -/
def ioAllowed (opcode : Nat) : Bool := opcode = 2

/-- `io_read`. -/
def ioRead (lba : Nat) (c : Ctrl) : NvmeProg (Option Nat × Ctrl) :=
  if !ioAllowed 0x02 then return (none, c)
  else command .io ⟨0x02, 1, dmaPhys + dataOffset, lba &&& 0xffffffff, (lba >>> 32) % 2 ^ 32, 0⟩ c

/-- `admin`. -/
def admin (opcode nsid prp cdw10 cdw11 : Nat) (c : Ctrl) : NvmeProg (Option Nat × Ctrl) :=
  command .admin ⟨opcode, nsid, prp, cdw10, cdw11, 0⟩ c

/-- `read_lba`. -/
def readLba (lba : Nat) (c : Ctrl) : NvmeProg (Option Sector × Ctrl) := do
  act .zero
  let (status, c) ← ioRead lba c
  if status ≠ some 0 then return (none, c)
  else
    let sector ← act .copy
    return (some sector, c)

/-- `create_io_queues`: whether it succeeds. -/
def createIoQueues (c : Ctrl) : NvmeProg (Bool × Ctrl) := do
  let (status, c) ← admin 0x05 0 (dmaPhys + 0x3000) (1 ||| 1 <<< 16) 1 c
  if status ≠ some 0 then return (false, c)
  else
    let (status, c) ← admin 0x01 0 (dmaPhys + 0x2000) (1 ||| 1 <<< 16) (1 ||| 1 <<< 16) c
    if status ≠ some 0 then return (false, c)
    else return (true, c)

/-- A computation that asks for sectors, with `read_lba`, and a note of what it is given. -/
def served {α : Type} : Reading α → Ctrl → NvmeProg (α × Ctrl)
  | .ret a, c => .ret (a, c)
  | .crash, _ => (act .panic).bind Empty.elim
  | .read lba k, c => (readLba lba c).bind fun (r, c) => (act (.answer lba r)).bind fun _ => served (k r) c

/-- What `open` starts with. -/
def opened : Ctrl := ⟨⟨0, 0, 1⟩, ⟨0, 0, 1⟩, 1⟩

/-- `open` once the controller is up, and the loader. -/
def driver : NvmeProg Empty := do
  let (ok, c) ← createIoQueues opened
  let _ ← if ok then (served Reading.loadNamed c).bind fun r => .ret r.1 else .ret DiskReport.admin
  Prog.forever (act .wait)

/-! ### Runs -/

inductive Party
  | driver
  | controller
  deriving DecidableEq

/-- An operation on the memory. A doorbell is a number, and the others leave it alone or record it. -/
def perform (disk : Nat → Sector) (m : Memory) : (o : Op) → nvmeSig.Res o → Memory → Prop
  | .zero, _, m' => m' = { m with data := zeroSector }
  | .entry q slot cid cmd, _, m' => m' = { m with
      pair := Function.update m.pair q { m.pair q with
        sq := Function.update (m.pair q).sq slot ⟨cid, cmd, m.serial⟩ }
      serial := m.serial + 1
      log := m.log ++ [.submit q ⟨cid, cmd, m.serial⟩] }
  | .doorbell qid value, _, m' => ∃ q,
      (qid = sqDoorbell q ∧ m' = { m with
        pair := Function.update m.pair q { m.pair q with tailDoorbell := value } }) ∨
        (qid = cqDoorbell q ∧ m' = { m with
          pair := Function.update m.pair q { m.pair q with headDoorbell := value } })
  | .dw3 q slot, c, m' => c = (m.pair q).cq slot ∧ m' = m
  | .copy, s, m' => s = m.data ∧ m' = m
  | .completed q c, _, m' => m' = { m with log := m.log ++ [.complete q c] }
  | .answer lba r, _, m' => m' = { m with log := m.log ++ [.answer lba r] }
  | .wait, _, m' => m' = m
  | .panic, r, _ => r.elim
  | .device, _, m' => Device disk m m'

/-- A pair of queues that has been set up: all zeros, and the controller at its start. -/
def emptyPair : Pair where
  sq _ := ⟨0, ⟨0, 0, 0, 0, 0, 0⟩, 0⟩
  cq _ := ⟨0, 0, 0, none⟩
  tailDoorbell := 0
  headDoorbell := 0
  sqHead := 0
  cqTail := 0
  cqPhase := 1
  taken := []
  finished := 0

def start (data : Sector) : State Party nvmeSig Memory where
  prog
    | .driver => driver
    | .controller => Prog.forever (act .device)
  mem := ⟨fun _ => emptyPair, data, 1, []⟩

/-! ### What holds of them -/

/-- The commands of a log. -/
def submitted (q : Qid) (log : List Note) : List Entry :=
  log.filterMap fun
    | .submit q' e => if q' = q then some e else none
    | _ => none

structure Faithful (disk : Nat → Sector) (m : Memory) : Prop where
  /-- A sector that is given is the one asked for. -/
  answers : ∀ lba s, .answer lba (some s) ∈ m.log → s = disk lba
  /-- A completion that is taken is that of the last command. -/
  own : ∀ before q c after, m.log = before ++ .complete q c :: after →
    ∃ e, (submitted q before).getLast? = some e ∧ c.completes = some e ∧ c.cid = e.cid
  /-- One command at most is submitted and not completed. -/
  single : ∀ q, (submitted q m.log).length ≤ (m.pair q).finished + 1
  /-- After a read that failed nothing is submitted. -/
  silent : ∀ before lba after, m.log = before ++ .answer lba none :: after → ∀ q e, .submit q e ∉ after

/-! ### Where the driver is -/

/-- Where a command is: there is none, it is in its place, the controller may know of it, or its
completion has been seen. -/
inductive Stage
  | idle
  | written (e : Entry)
  | rung (e : Entry)
  | seen (e : Entry) (c : Cqe)

def Stage.entry : Stage → Option Entry
  | .idle => none
  | .written e => some e
  | .rung e => some e
  | .seen e _ => some e

/-- Its place in either pair, the sector whose contents are in place, and whether a read has failed. -/
structure DriverAt where
  side : Qid → Side
  stage : Qid → Stage
  got : Option Nat
  failed : Bool

/-- The phases of the places the driver does not wait for. -/
def Behind (p : Pair) (s : Side) : Prop :=
  (s.head = 0 → ((p.cq 1).phase : Nat) ≠ s.phase) ∧ (s.head = 1 → ((p.cq 0).phase : Nat) = s.phase)

/-- The next completion is still to come. -/
structure Early (p : Pair) (s : Side) : Prop where
  tail : p.cqTail = s.head
  phase : (p.cqPhase : Nat) = s.phase
  next : ((p.cq s.head).phase : Nat) ≠ s.phase
  behind : Behind p s

/-- The next completion is there. -/
structure Late (p : Pair) (s : Side) (e : Entry) (c : Cqe) : Prop where
  tail : p.cqTail = (s.head + 1) % 2
  phase : (p.cqPhase : Nat) = if s.head = 1 then 1 - s.phase else s.phase
  next : p.cq s.head = c
  own : c.completes = some e ∧ c.cid = e.cid ∧ (c.phase : Nat) = s.phase
  behind : Behind p s

/-- The controller has nothing to do. -/
structure Settled (p : Pair) (s : Side) : Prop where
  sqHead : p.sqHead = s.tail
  doorbell : p.tailDoorbell = s.tail
  taken : p.taken = []

/-- The command is done. -/
structure Done (disk : Nat → Sector) (q : Qid) (p : Pair) (data : Sector) (n : Nat) (s : Side)
    (e : Entry) (c : Cqe) : Prop where
  settled : Settled p s
  late : Late p s e c
  count : n = p.finished
  data : q = .io → e.cmd.reads → c.status = 0 → data = disk e.cmd.lba

/-- A pair of queues with `n` commands submitted, at each stage. -/
def StageOk (disk : Nat → Sector) (q : Qid) (p : Pair) (data : Sector) (n : Nat) (s : Side) : Stage → Prop
  | .idle => Settled p s ∧ Early p s ∧ n = p.finished
  | .written e => Settled p s ∧ Early p s ∧ n = p.finished + 1 ∧ p.sq s.tail = e
  | .rung e =>
    (Early p s ∧ p.tailDoorbell = s.tail ∧ n = p.finished + 1 ∧
      ((p.sqHead = (s.tail + 1) % 2 ∧ p.sq p.sqHead = e ∧ p.taken = []) ∨
        (p.sqHead = s.tail ∧ p.taken = [e]))) ∨
    ∃ c, Done disk q p data n s e c
  | .seen e c => Done disk q p data n s e c

structure Inv (disk : Nat → Sector) (g : DriverAt) (m : Memory) : Prop where
  bounds : ∀ q, (g.side q).tail < 2 ∧ (g.side q).head < 2 ∧ (g.side q).phase < 2
  queue : ∀ q, StageOk disk q (m.pair q) m.data (submitted q m.log).length (g.side q) (g.stage q)
  data : ∀ lba ∈ g.got, g.stage .io = .idle ∧ m.data = disk lba
  last : ∀ q e, (g.stage q).entry = some e → (submitted q m.log).getLast? = some e
  answers : ∀ lba s, .answer lba (some s) ∈ m.log → s = disk lba
  own : ∀ before q c after, m.log = before ++ .complete q c :: after →
    ∃ e, (submitted q before).getLast? = some e ∧ c.completes = some e ∧ c.cid = e.cid
  silent : ∀ before lba after, m.log = before ++ .answer lba none :: after → ∀ q e, .submit q e ∉ after
  clean : g.failed = false → ∀ lba, .answer lba none ∉ m.log

section invariant

variable {disk : Nat → Sector} {g : DriverAt} {m m' : Memory}

theorem StageOk.count_le {q : Qid} {p : Pair} {data : Sector} {n : Nat} {s : Side} {st : Stage}
    (h : StageOk disk q p data n s st) :
    n ≤ p.finished + 1 := by
  cases st with
  | idle => exact h.2.2.trans_le (Nat.le_succ _)
  | written e => exact h.2.2.1.le
  | rung e =>
    rcases h with h | ⟨c, h⟩
    · exact h.2.2.1.le
    · exact h.count.trans_le (Nat.le_succ _)
  | seen e c => exact h.count.trans_le (Nat.le_succ _)

theorem Inv.faithful (h : Inv disk g m) : Faithful disk m :=
  ⟨h.answers, h.own, fun q => (h.queue q).count_le, h.silent⟩

/-- A pair of queues with something taken from it has a command the controller works on. -/
theorem StageOk.of_taken {q : Qid} {p : Pair} {data : Sector} {n : Nat} {s : Side} {st : Stage}
    (h : StageOk disk q p data n s st)
    {e : Entry} (he : e ∈ p.taken) :
    st = .rung e ∧ Early p s ∧ p.tailDoorbell = s.tail ∧ n = p.finished + 1 ∧ p.sqHead = s.tail ∧
      p.taken = [e] := by
  have hnone : ∀ {s : Side}, Settled p s → False := fun hs => by
    rw [hs.taken] at he
    exact absurd he List.not_mem_nil
  cases st with
  | idle => exact (hnone h.1).elim
  | written e' => exact (hnone h.1).elim
  | seen e' c => exact (hnone h.settled).elim
  | rung e' =>
    rcases h with ⟨hearly, hbell, hn, ⟨-, -, htaken⟩ | ⟨hhead, htaken⟩⟩ | ⟨c, hdone⟩
    · rw [htaken] at he
      exact absurd he List.not_mem_nil
    · rw [htaken, List.mem_singleton] at he
      subst he
      exact ⟨rfl, hearly, hbell, hn, hhead, htaken⟩
    · exact (hnone hdone.settled).elim

/-- The data of a pair matters only once its command is done. -/
theorem StageOk.of_data {q : Qid} {p : Pair} {data data' : Sector} {n : Nat} {s : Side} {st : Stage}
    (h : StageOk disk q p data n s st) (hd : q = .io → ∀ e c,
      ¬Done disk q p data n s e c) : StageOk disk q p data' n s st := by
  have hdone : ∀ {e c}, Done disk q p data n s e c → Done disk q p data' n s e c := by
    intro e c hc
    exact ⟨hc.settled, hc.late, hc.count, fun hq => absurd hc (hd hq e c)⟩
  cases st with
  | idle => exact h
  | written e => exact h
  | seen e c => exact hdone h
  | rung e => exact h.imp id fun ⟨c, hc⟩ => ⟨c, hdone hc⟩

/-- A pair of queues changes and nothing else. -/
theorem Inv.pair {q : Qid} {p : Pair} (h : Inv disk g m)
    (hp : StageOk disk q p m.data (submitted q m.log).length (g.side q) (g.stage q)) :
    Inv disk g { m with pair := Function.update m.pair q p } := by
  refine ⟨h.bounds, fun q' => ?_, h.data, h.last, h.answers, h.own, h.silent, h.clean⟩
  by_cases hq : q' = q
  · subst hq
    simpa using hp
  · simpa [Function.update_of_ne hq] using h.queue q'

/-- The controller keeps the invariant. -/
theorem Inv.device (h : Inv disk g m) (hd : Device disk m m') : Inv disk g m' := by
  cases hd with
  | fetch q hne =>
    refine h.pair ?_
    have hq := h.queue q
    have hb := (h.bounds q).1
    cases hst : g.stage q with
    | idle =>
      rw [hst] at hq
      exact (hne (hq.1.sqHead.trans hq.1.doorbell.symm)).elim
    | written e =>
      rw [hst] at hq
      exact (hne (hq.1.sqHead.trans hq.1.doorbell.symm)).elim
    | seen e c =>
      rw [hst] at hq
      exact (hne (hq.settled.sqHead.trans hq.settled.doorbell.symm)).elim
    | rung e =>
      rw [hst] at hq
      rcases hq with ⟨hearly, hbell, hn, ⟨hhead, he, htaken⟩ | ⟨hhead, -⟩⟩ | ⟨c, hdone⟩
      · refine .inl ⟨⟨hearly.tail, hearly.phase, hearly.next, hearly.behind⟩, hbell, hn, .inr ⟨?_, ?_⟩⟩
        · change ((m.pair q).sqHead + 1) % 2 = (g.side q).tail
          omega
        · change (m.pair q).taken ++ [(m.pair q).sq (m.pair q).sqHead] = [e]
          rw [he, htaken, List.nil_append]
      · exact (hne (hhead.trans hbell.symm)).elim
      · exact (hne (hdone.settled.sqHead.trans hdone.settled.doorbell.symm)).elim
  | transfer e he data =>
    obtain ⟨hst, -, -, -, -, htaken⟩ := (h.queue .io).of_taken he
    refine ⟨h.bounds, fun q => (h.queue q).of_data ?_, fun lba hlba => ?_, h.last, h.answers, h.own,
      h.silent, h.clean⟩
    · rintro rfl e' c hdone
      rw [hdone.settled.taken] at htaken
      exact nomatch htaken
    · have hidle := (h.data lba hlba).1
      rw [hst] at hidle
      exact nomatch hidle
  | complete q before after e status htaken hdata =>
    have he : e ∈ (m.pair q).taken := by
      rw [htaken]
      simp
    obtain ⟨hst, hearly, hbell, hn, hhead, hone⟩ := (h.queue q).of_taken he
    have hb := h.bounds q
    have hrest : before ++ after = [] := by
      have hlen := congrArg List.length (htaken.symm.trans hone)
      simp only [List.length_append, List.length_cons, List.length_nil] at hlen
      exact List.length_eq_zero_iff.mp (by rw [List.length_append]; omega)
    refine h.pair ?_
    rw [hst]
    have htail := hearly.tail
    have hphase := hearly.phase
    have hbehind := hearly.behind
    refine .inr ⟨⟨e.cid, (m.pair q).cqPhase, status, some e⟩, ⟨hhead, hbell, hrest⟩,
      ⟨?_, ?_, ?_, ⟨rfl, rfl, hphase⟩, ?_⟩, hn, hdata⟩
    · change ((m.pair q).cqTail + 1) % 2 = _
      rw [htail]
    · change ((if (m.pair q).cqTail = 1 then (m.pair q).cqPhase + 1
        else (m.pair q).cqPhase : Fin 2) : Nat) = _
      rw [htail, ← hphase]
      split
      · generalize (m.pair q).cqPhase = ph
        revert ph
        decide
      · rfl
    · change Function.update (m.pair q).cq (m.pair q).cqTail _ (g.side q).head = _
      rw [htail, Function.update_self]
    · change (_ → ((Function.update (m.pair q).cq (m.pair q).cqTail _ 1).phase : Nat) ≠ _) ∧
        (_ → ((Function.update (m.pair q).cq (m.pair q).cqTail _ 0).phase : Nat) = _)
      rw [htail]
      refine ⟨fun h0 => ?_, fun h1 => ?_⟩
      · rw [Function.update_of_ne (by omega)]
        exact hbehind.1 h0
      · rw [Function.update_of_ne (by omega)]
        exact hbehind.2 h1

/-! ### What the driver does -/

theorem split_snoc {α : Type} {l before after : List α} {x n : α} (h : l ++ [n] = before ++ x :: after) :
    (before = l ∧ x = n) ∨ ∃ after', after = after' ++ [n] ∧ l = before ++ x :: after' := by
  rcases List.eq_nil_or_concat after with rfl | ⟨after', y, rfl⟩
  · obtain ⟨hl, hx⟩ := List.append_inj' h rfl
    exact .inl ⟨hl.symm, (List.singleton_inj.mp hx).symm⟩
  · rw [List.concat_eq_append, ← List.cons_append, ← List.append_assoc] at h
    obtain ⟨hl, hx⟩ := List.append_inj' h rfl
    rw [List.singleton_inj] at hx
    exact .inr ⟨after', by rw [hx, List.concat_eq_append], hl⟩

@[simp] theorem submitted_append (q : Qid) (l l' : List Note) : submitted q (l ++ l') =
    submitted q l ++ submitted q l' :=
  List.filterMap_append

@[simp] theorem submitted_complete (q q' : Qid) (c : Cqe) : submitted q [.complete q' c] = [] := rfl

@[simp] theorem submitted_answer (q : Qid) (lba : Nat) (r : Option Sector) :
    submitted q [.answer lba r] = [] := rfl

@[simp] theorem submitted_submit_self (q : Qid) (e : Entry) : submitted q [.submit q e] = [e] := by
  simp [submitted]

theorem submitted_submit_ne {q q' : Qid} (h : q' ≠ q) (e : Entry) : submitted q [.submit q' e] = [] := by
  simp [submitted, h]

/-- One more note. -/
theorem Inv.own_snoc (h : Inv disk g m) {n : Note} (hn : ∀ q c, n = .complete q c →
    ∃ e, (submitted q m.log).getLast? = some e ∧ c.completes = some e ∧ c.cid = e.cid)
      (before : List Note) (q : Qid) (c : Cqe)
    (after : List Note) (heq : m.log ++ [n] = before ++ .complete q c :: after) :
    ∃ e, (submitted q before).getLast? = some e ∧ c.completes = some e ∧ c.cid = e.cid := by
  rcases split_snoc heq with ⟨rfl, hc⟩ | ⟨after', -, hlog⟩
  · exact hn q c hc.symm
  · exact h.own before q c after' hlog

theorem Inv.silent_snoc (h : Inv disk g m) {n : Note} (hn : ∀ q e, n = .submit q e → ∀ lba,
    .answer lba none ∉ m.log)
    (before : List Note) (lba : Nat) (after : List Note)
      (heq : m.log ++ [n] = before ++ .answer lba none :: after) (q : Qid)
    (e : Entry) : .submit q e ∉ after := by
  rcases split_snoc heq with ⟨rfl, -⟩ | ⟨after', rfl, hlog⟩
  · have hafter : after = [] := by
      have hlen := congrArg List.length heq
      simp only [List.length_append, List.length_cons, List.length_nil] at hlen
      exact List.length_eq_zero_iff.mp (by omega)
    rw [hafter]
    exact List.not_mem_nil
  · intro hmem
    rw [List.mem_append, List.mem_singleton] at hmem
    rcases hmem with hmem | hmem
    · exact h.silent before lba after' hlog q e hmem
    · refine hn q e hmem.symm lba ?_
      rw [hlog]
      simp

theorem Inv.zero (h : Inv disk g m) (hidle : ∀ q, g.stage q = .idle) (data : Sector) :
    Inv disk { g with got := none } { m with data := data } := by
  refine ⟨h.bounds, fun q => ?_, fun _ hlba => (nomatch hlba), h.last, h.answers, h.own, h.silent, h.clean⟩
  have hq := h.queue q
  rw [hidle q] at hq
  change StageOk disk q (m.pair q) data _ _ (g.stage q)
  rw [hidle q]
  exact hq

/-- A command is written in its place. -/
theorem Inv.entry (h : Inv disk g m) {q : Qid} (hidle : g.stage q = .idle) (hf : g.failed = false)
    (e : Entry) :
    Inv disk { g with stage := Function.update g.stage q (.written e), got := none }
      { m with
        pair := Function.update m.pair q { m.pair q with
          sq := Function.update (m.pair q).sq (g.side q).tail e }
        serial := m.serial + 1
        log := m.log ++ [.submit q e] } := by
  refine ⟨h.bounds, fun q' => ?_, fun _ hlba => (nomatch hlba), fun q' e' he' => ?_,
    fun lba s hs => ?_, h.own_snoc ?_,
    h.silent_snoc fun _ _ _ => h.clean hf, fun hf lba hmem => ?_⟩
  · by_cases hq : q' = q
    · subst hq
      have hold := h.queue q'
      rw [hidle] at hold
      obtain ⟨hsettled, hearly, hn⟩ := hold
      simp only [Function.update_self, submitted_append, submitted_submit_self, List.length_append,
        List.length_singleton]
      exact ⟨⟨hsettled.sqHead, hsettled.doorbell, hsettled.taken⟩,
        ⟨hearly.tail, hearly.phase, hearly.next, hearly.behind⟩,
        congrArg (· + 1) hn, Function.update_self _ _ _⟩
    · simp only [Function.update_of_ne hq, submitted_append, submitted_submit_ne (Ne.symm hq),
        List.append_nil]
      exact h.queue q'
  · by_cases hq : q' = q
    · subst hq
      simp only [Function.update_self, Stage.entry, Option.some.injEq] at he'
      simp [he']
    · simp only [Function.update_of_ne hq] at he'
      simp only [submitted_append, submitted_submit_ne (Ne.symm hq), List.append_nil]
      exact h.last q' e' he'
  · simp only [List.mem_append, List.mem_singleton, reduceCtorEq, or_false] at hs
    exact h.answers lba s hs
  · rintro _ _ ⟨⟩
  · simp only [List.mem_append, List.mem_singleton, reduceCtorEq, or_false] at hmem
    exact h.clean hf lba hmem

/-- The doorbell rings. -/
theorem Inv.rung (h : Inv disk g m) {q : Qid} {e : Entry} (hst : g.stage q = .written e) {tail : Nat}
    (htail : tail = ((g.side q).tail + 1) % 2) :
    Inv disk { g with
        side := Function.update g.side q { g.side q with tail := tail }
        stage := Function.update g.stage q (.rung e) }
      { m with pair := Function.update m.pair q { m.pair q with tailDoorbell := tail } } := by
  refine ⟨fun q' => ?_, fun q' => ?_, fun lba hlba => ?_, fun q' e' he' => ?_, h.answers, h.own,
    h.silent, h.clean⟩
  · by_cases hq : q' = q
    · subst hq
      simp only [Function.update_self]
      exact ⟨htail ▸ Nat.mod_lt _ (by decide), (h.bounds q').2⟩
    · simpa only [Function.update_of_ne hq] using h.bounds q'
  · by_cases hq : q' = q
    · subst hq
      have hold := h.queue q'
      rw [hst] at hold
      obtain ⟨hsettled, hearly, hn, hentry⟩ := hold
      have hlt := (h.bounds q').1
      have hhead : (m.pair q').sqHead = (tail + 1) % 2 := hsettled.sqHead.trans (by omega)
      simp only [Function.update_self]
      refine .inl ⟨⟨hearly.tail, hearly.phase, hearly.next, hearly.behind⟩, rfl, hn,
        .inl ⟨hhead, ?_, hsettled.taken⟩⟩
      change (m.pair q').sq (m.pair q').sqHead = e
      rw [hsettled.sqHead, hentry]
    · simpa only [Function.update_of_ne hq] using h.queue q'
  · obtain ⟨hidle, hdata⟩ := h.data lba hlba
    refine ⟨?_, hdata⟩
    by_cases hq : Qid.io = q
    · subst hq
      rw [hidle] at hst
      exact nomatch hst
    · simpa only [Function.update_of_ne hq] using hidle
  · by_cases hq : q' = q
    · subst hq
      simp only [Function.update_self, Stage.entry] at he'
      exact h.last q' e' (by rw [hst]; exact he')
    · simp only [Function.update_of_ne hq] at he'
      exact h.last q' e' he'

/-- The completion that is there is the one of the last command. -/
theorem Inv.seen (h : Inv disk g m) {q : Qid} {e : Entry} (hst : g.stage q = .rung e)
    (hphase : (((m.pair q).cq (g.side q).head).phase : Nat) = (g.side q).phase) :
    Inv disk { g with
      stage := Function.update g.stage q (.seen e ((m.pair q).cq (g.side q).head)) } m := by
  have hold := h.queue q
  rw [hst] at hold
  refine ⟨h.bounds, fun q' => ?_, fun lba hlba => ?_, fun q' e' he' => ?_, h.answers, h.own,
    h.silent, h.clean⟩
  · by_cases hq : q' = q
    · subst hq
      simp only [Function.update_self]
      rcases hold with ⟨hearly, -⟩ | ⟨c, hdone⟩
      · exact (hearly.next hphase).elim
      · rw [hdone.late.next]
        exact hdone
    · simpa only [Function.update_of_ne hq] using h.queue q'
  · obtain ⟨hidle, hdata⟩ := h.data lba hlba
    refine ⟨?_, hdata⟩
    by_cases hq : Qid.io = q
    · subst hq
      rw [hidle] at hst
      exact nomatch hst
    · simpa only [Function.update_of_ne hq] using hidle
  · by_cases hq : q' = q
    · subst hq
      simp only [Function.update_self, Stage.entry] at he'
      exact h.last q' e' (by rw [hst]; exact he')
    · simp only [Function.update_of_ne hq] at he'
      exact h.last q' e' he'

/-- Where the driver is after a completion. -/
def Side.after (s : Side) : Side := ⟨s.tail, (s.head + 1) % 2, if s.head = 1 then 1 - s.phase else s.phase⟩

/-- Once its completion has been taken, the pair is ready for the next command. -/
theorem Late.early {p : Pair} {s : Side} {e : Entry} {c : Cqe} (h : Late p s e c)
    (hhead : s.head < 2) (hphase : s.phase < 2) :
    Early p s.after := by
  have hc := h.own.2.2
  rw [← h.next] at hc
  rcases (by omega : s.head = 0 ∨ s.head = 1) with h0 | h1
  · have hafter : s.after = ⟨s.tail, 1, s.phase⟩ := by
      simp [Side.after, h0]
    rw [h0] at hc
    rw [hafter]
    refine ⟨h.tail.trans (by rw [h0]), h.phase.trans (if_neg (by omega)), h.behind.1 h0, ?_, fun _ => hc⟩
    exact fun hne => nomatch hne
  · have hafter : s.after = ⟨s.tail, 0, 1 - s.phase⟩ := by
      simp [Side.after, h1]
    rw [h1] at hc
    rw [hafter]
    refine ⟨h.tail.trans (by rw [h1]), h.phase.trans (if_pos h1), ?_, fun _ => ?_, ?_⟩
    · have hbehind := h.behind.2 h1
      change ((p.cq 0).phase : Nat) ≠ 1 - s.phase
      omega
    · change ((p.cq 1).phase : Nat) ≠ 1 - s.phase
      omega
    · exact fun hne => nomatch hne

/-- The driver takes the completion. -/
theorem Inv.completed (h : Inv disk g m) {q : Qid} {e : Entry} {c : Cqe}
    (hst : g.stage q = .seen e c) {got : Option Nat}
    (hgot : ∀ lba ∈ got, q = .io ∧ e.cmd.reads ∧ c.status = 0 ∧ lba = e.cmd.lba) :
    Inv disk ⟨Function.update g.side q (g.side q).after, Function.update g.stage q .idle, got, g.failed⟩
      { m with log := m.log ++ [.complete q c] } := by
  have hold := h.queue q
  rw [hst] at hold
  have hb := h.bounds q
  refine ⟨fun q' => ?_, fun q' => ?_, fun lba hlba => ?_, fun q' e' he' => ?_, fun lba s hs => ?_,
    h.own_snoc ?_,
    h.silent_snoc ?_, fun hf lba hmem => ?_⟩
  · by_cases hq : q' = q
    · subst hq
      simp only [Function.update_self]
      refine ⟨hb.1, Nat.mod_lt _ (by decide), ?_⟩
      change (if (g.side q').head = 1 then 1 - (g.side q').phase else (g.side q').phase) < 2
      split <;> omega
    · simpa only [Function.update_of_ne hq] using h.bounds q'
  · simp only [submitted_append, submitted_complete, List.append_nil]
    by_cases hq : q' = q
    · subst hq
      simp only [Function.update_self]
      exact ⟨⟨hold.settled.sqHead, hold.settled.doorbell, hold.settled.taken⟩,
        hold.late.early hb.2.1 hb.2.2, hold.count⟩
    · simpa only [Function.update_of_ne hq] using h.queue q'
  · obtain ⟨rfl, hreads, hstatus, rfl⟩ := hgot lba hlba
    refine ⟨?_, hold.data rfl hreads hstatus⟩
    simp only [Function.update_self]
  · simp only [submitted_append, submitted_complete, List.append_nil]
    by_cases hq : q' = q
    · subst hq
      simp only [Function.update_self] at he'
      exact nomatch he'
    · simp only [Function.update_of_ne hq] at he'
      exact h.last q' e' he'
  · simp only [List.mem_append, List.mem_singleton, reduceCtorEq, or_false] at hs
    exact h.answers lba s hs
  · rintro _ _ ⟨⟩
    exact ⟨e, h.last q e (by rw [hst]; rfl), hold.late.own.1, hold.late.own.2.1⟩
  · rintro _ _ ⟨⟩
  · simp only [List.mem_append, List.mem_singleton, reduceCtorEq, or_false] at hmem
    exact h.clean hf lba hmem

theorem Inv.headDoorbell (h : Inv disk g m) {q : Qid} (hidle : g.stage q = .idle) (v : Nat) :
    Inv disk g { m with pair := Function.update m.pair q { m.pair q with headDoorbell := v } } := by
  have hold := h.queue q
  refine h.pair ?_
  rw [hidle] at hold ⊢
  obtain ⟨hsettled, hearly, hn⟩ := hold
  exact ⟨⟨hsettled.sqHead, hsettled.doorbell, hsettled.taken⟩,
    ⟨hearly.tail, hearly.phase, hearly.next, hearly.behind⟩, hn⟩

/-- A read that failed. -/
theorem Inv.refused (h : Inv disk g m) (lba : Nat) :
    Inv disk { g with failed := true } { m with log := m.log ++ [.answer lba none] } := by
  refine ⟨h.bounds, fun q => ?_, h.data, fun q e he => ?_, fun lba s hs => ?_, h.own_snoc ?_,
    h.silent_snoc ?_,
    fun hf => nomatch hf⟩
  · simpa using h.queue q
  · simpa using h.last q e he
  · simp only [List.mem_append, List.mem_singleton, Note.answer.injEq, reduceCtorEq, and_false,
      or_false] at hs
    exact h.answers lba s hs
  · rintro _ _ ⟨⟩
  · rintro _ _ ⟨⟩

/-- A sector that is given. -/
theorem Inv.given (h : Inv disk g m) {lba : Nat} {s : Sector} (hs : s = disk lba) :
    Inv disk g { m with log := m.log ++ [.answer lba (some s)] } := by
  refine ⟨h.bounds, fun q => ?_, h.data, fun q e he => ?_, fun lba' s' hs' => ?_, h.own_snoc ?_,
    h.silent_snoc ?_,
    fun hf lba' hmem => ?_⟩
  · simpa using h.queue q
  · simpa using h.last q e he
  · simp only [List.mem_append, List.mem_singleton, Note.answer.injEq, Option.some.injEq] at hs'
    rcases hs' with hs' | ⟨rfl, rfl⟩
    · exact h.answers lba' s' hs'
    · exact hs
  · rintro _ _ ⟨⟩
  · rintro _ _ ⟨⟩
  · simp only [List.mem_append, List.mem_singleton, Note.answer.injEq, reduceCtorEq, and_false,
      or_false] at hmem
    exact h.clean hf lba' hmem

end invariant

/-! ### The programs -/

section runs

variable {disk : Nat → Sector} {g : DriverAt} {c : Ctrl}

def outline (disk : Nat → Sector) : Outline Party nvmeSig Memory where
  step _ := perform disk
  Ghost
    | .driver => DriverAt
    | .controller => Unit
  ok _ _ _ := True
  calm _ _ := True
  may _ _ _ _ := True
  inv G m := Inv disk (G .driver) m

theorem performs_driver {o : Op} {Q : nvmeSig.Res o → DriverAt → Prop} {g : DriverAt}
    (h : ∀ m, Inv disk g m → ∀ r m', perform disk m o r m' → ∃ g', Inv disk g' m' ∧ Q r g') :
    (outline disk).Performs .driver o Q g := by
  refine ⟨trivial, ?_⟩
  rintro G m rfl - hi r m' hs
  obtain ⟨g', hi', hq⟩ := h m hi r m' hs
  exact ⟨g', hi', hq⟩

/-- The driver has no command in a queue, and its place in each is where it takes it to be. -/
def Ready (g : DriverAt) (c : Ctrl) : Prop := g.failed = false ∧ ∀ q, g.stage q = .idle ∧ g.side q =
    c.side q

theorem Cqe.phase_dw3 (c : Cqe) : (c.dw3 >>> 16) &&& 1 = c.phase := by
  rw [Nat.and_one_is_mod, Nat.shiftRight_eq_div_pow, Cqe.dw3]
  omega

theorem Cqe.status_dw3 (c : Cqe) : (c.dw3 >>> 17) &&& 0x7fff = c.status := by
  rw [show (0x7fff : Nat) = 2 ^ 15 - 1 from rfl, Nat.and_two_pow_sub_one_eq_mod,
    Nat.shiftRight_eq_div_pow, Cqe.dw3]
  omega

theorem ring_sqDoorbell (c : Ctrl) (q : Qid) : ring c (sqDoorbell q) =
    act (.doorbell (sqDoorbell q) (c.side q).tail) := by
  cases q <;> rfl

theorem ring_cqDoorbell (c : Ctrl) (q : Qid) : ring c (cqDoorbell q) =
    act (.doorbell (cqDoorbell q) (c.side q).head) := by
  cases q <;> rfl

@[simp] theorem Ctrl.side_setSide_self (c : Ctrl) (q : Qid) (s : Side) : (c.setSide q s).side q = s := by
  cases q <;> rfl

theorem Ctrl.side_setSide_ne (c : Ctrl) {q q' : Qid} (h : q' ≠ q) (s : Side) :
    (c.setSide q s).side q' = c.side q' := by
  cases q <;> cases q' <;> first | rfl | exact (h rfl).elim

theorem sqDoorbell_inj {q q' : Qid} (h : sqDoorbell q = sqDoorbell q') : q = q' := by
  cases q <;> cases q' <;> first | rfl | exact nomatch h

theorem cqDoorbell_inj {q q' : Qid} (h : cqDoorbell q = cqDoorbell q') : q = q' := by
  cases q <;> cases q' <;> first | rfl | exact nomatch h

theorem sqDoorbell_ne (q q' : Qid) : sqDoorbell q ≠ cqDoorbell q' := by
  cases q <;> cases q' <;> exact fun h => nomatch h

theorem perform_sqDoorbell {m m' : Memory} {q : Qid} {value : Nat} {r : Unit}
    (h : perform disk m (.doorbell (sqDoorbell q) value) r m') :
    m' = { m with pair := Function.update m.pair q { m.pair q with tailDoorbell := value } } := by
  obtain ⟨q', ⟨hq, hm⟩ | ⟨hq, -⟩⟩ := h
  · rw [sqDoorbell_inj hq, hm]
  · exact (sqDoorbell_ne q q' hq).elim

theorem perform_cqDoorbell {m m' : Memory} {q : Qid} {value : Nat} {r : Unit}
    (h : perform disk m (.doorbell (cqDoorbell q) value) r m') :
    m' = { m with pair := Function.update m.pair q { m.pair q with headDoorbell := value } } := by
  obtain ⟨q', ⟨hq, -⟩ | ⟨hq, hm⟩⟩ := h
  · exact (sqDoorbell_ne q' q hq.symm).elim
  · rw [cqDoorbell_inj hq, hm]

/-- The driver has taken the completion of a command and gone on. -/
structure Taken (g : DriverAt) (q : Qid) (e : Entry) (v : Nat) (g' : DriverAt) : Prop where
  side : g'.side = Function.update g.side q (g.side q).after
  stage : g'.stage = Function.update g.stage q .idle
  got : v = 0 → q = .io → e.cmd.reads → g'.got = some e.cmd.lba

/-- Whether a completion says that a sector has been read. -/
theorem exists_got (q : Qid) (e : Entry) (c : Cqe) : ∃ got : Option Nat,
    (∀ lba ∈ got, q = .io ∧ e.cmd.reads ∧ c.status = 0 ∧ lba = e.cmd.lba) ∧
      ((c.status : Nat) = 0 → q = .io → e.cmd.reads → got = some e.cmd.lba) := by
  by_cases h : c.status = 0 ∧ q = .io ∧ e.cmd.reads
  · refine ⟨some e.cmd.lba, fun lba hlba => ?_, fun _ _ _ => rfl⟩
    cases hlba
    exact ⟨h.2.1, h.2.2, h.1, rfl⟩
  · exact ⟨none, fun _ hlba => (nomatch hlba),
      fun hstatus hq hreads => (h ⟨Fin.ext hstatus, hq, hreads⟩).elim⟩

/-- What is taken is the completion of the command that waits, however long it takes. -/
theorem safe_pollFrom {q : Qid} {e : Entry} (hst : g.stage q = .rung e) {slot : Nat}
    (hslot : slot = (g.side q).head) (n : Nat) :
    (outline disk).Safe .driver (pollFrom q slot (g.side q).phase n)
      (fun r g' => g'.failed = g.failed ∧ ∀ v ∈ r, Taken g q e v g') g := by
  induction n with
  | zero => exact ⟨rfl, fun _ hv => nomatch hv⟩
  | succ n ih =>
    refine performs_driver fun m hi (c : Cqe) m' hs => ?_
    obtain ⟨hc, rfl⟩ := hs
    change ∃ g', _ ∧ (outline disk).Safe .driver
      (if (c.dw3 >>> 16) &&& 1 = (g.side q).phase then _ else pollFrom q slot (g.side q).phase n) _ g'
    by_cases hphase : (c.dw3 >>> 16) &&& 1 = (g.side q).phase
    · rw [if_pos hphase]
      rw [Cqe.phase_dw3, hc, hslot] at hphase
      have hseen := hi.seen hst hphase
      rw [← hslot, ← hc] at hseen
      refine ⟨_, hseen, performs_driver fun m hi r m' hs => ?_⟩
      obtain rfl := hs
      obtain ⟨got, hgot, hread⟩ := exists_got q e c
      refine ⟨_, hi.completed (Function.update_self _ _ _) hgot, rfl, fun v hv => ?_⟩
      cases hv
      refine ⟨rfl, by simp, fun hv => hread ?_⟩
      rw [← Cqe.status_dw3]
      exact hv
    · rw [if_neg hphase]
      exact ⟨g, hi, ih⟩

/-- What a command does with what `poll` gives. -/
def conclude (q : Qid) (c : Ctrl) : Option Nat → NvmeProg (Option Nat × Ctrl)
  | none => return (none, c)
  | some status => do
    let head := ((c.side q).head + 1) % 2 ^ 16
    let c := if head % 2 = 0 then c.setSide q { c.side q with head := 0, phase := (c.side q).phase ^^^ 1 }
      else c.setSide q { c.side q with head := head }
    ring c (cqDoorbell q)
    return (if status = 0 then some 0 else none, c)

/-- The driver's place once a command has been submitted. -/
def Ctrl.next (q : Qid) (c : Ctrl) : Ctrl :=
  let c := { c with cid := c.cid + 1 }
  c.setSide q { c.side q with tail := ((c.side q).tail + 1) % 2 ^ 16 &&& 1 }

theorem command_eq (q : Qid) (cmd : Sqe) (c : Ctrl) :
    command q cmd c = (act (.entry q (c.side q).tail c.cid cmd)).bind fun _ =>
    (ring (c.next q) (sqDoorbell q)).bind fun _ =>
      (poll q ((c.next q).side q).head ((c.next q).side q).phase).bind (conclude q (c.next q)) := rfl

theorem Ctrl.side_cid (c : Ctrl) (cid : Fin (2 ^ 16)) (q : Qid) :
    ({ c with cid := cid } : Ctrl).side q = c.side q := by
  cases q <;> rfl

theorem Ctrl.next_side (c : Ctrl) (q : Qid) (h : (c.side q).tail < 2) :
    (c.next q).side q = { c.side q with tail := ((c.side q).tail + 1) % 2 } := by
  rw [Ctrl.next, Ctrl.side_setSide_self, Ctrl.side_cid, Nat.mod_eq_of_lt (by omega), Nat.and_one_is_mod]

theorem Ctrl.next_side_ne (c : Ctrl) {q q' : Qid} (h : q' ≠ q) : (c.next q).side q' = c.side q' := by
  rw [Ctrl.next, Ctrl.side_setSide_ne _ h, Ctrl.side_cid]

/-- The driver moves to the next completion. -/
theorem conclude_eq {q : Qid} {c : Ctrl} (hhead : (c.side q).head < 2)
    (hphase : (c.side q).phase < 2) (v : Nat) :
    conclude q c (some v) = (ring (c.setSide q (c.side q).after) (cqDoorbell q)).bind fun _ =>
      .ret (if v = 0 then some 0 else none, c.setSide q (c.side q).after) := by
  have hmod : ((c.side q).head + 1) % 2 ^ 16 = (c.side q).head + 1 := Nat.mod_eq_of_lt (by omega)
  have hafter : (if ((c.side q).head + 1) % 2 = 0 then
      c.setSide q { c.side q with head := 0, phase := (c.side q).phase ^^^ 1 }
      else c.setSide q { c.side q with head := (c.side q).head + 1 }) = c.setSide q (c.side q).after := by
    rcases (by omega : (c.side q).head = 0 ∨ (c.side q).head = 1) with h0 | h1
    · rw [if_neg (by omega), Side.after, if_neg (by omega), h0]
    · have hxor : (c.side q).phase ^^^ 1 = 1 - (c.side q).phase := by
        generalize (c.side q).phase = phase at *
        interval_cases phase <;> rfl
      rw [if_pos (by omega), Side.after, if_pos h1, h1, hxor]
  simp only [conclude, hmod, hafter]
  rfl

/-- Where the driver is when it waits for a command, if the other pair has none. -/
structure Awaits (g : DriverAt) (q : Qid) (e : Entry) (c : Ctrl) : Prop where
  stage : g.stage q = .rung e
  idle : ∀ q', q' ≠ q → g.stage q' = .idle
  side : ∀ q', g.side q' = c.side q'
  failed : g.failed = false
  head : (c.side q).head < 2
  phase : (c.side q).phase < 2

theorem safe_awaited {q : Qid} {e : Entry} (h : Awaits g q e c) :
    (outline disk).Safe .driver ((poll q (c.side q).head (c.side q).phase).bind (conclude q c)) (fun r g' =>
      g'.failed = false ∧ (r.1 = some 0 → Ready g' r.2 ∧
        (q = .io → e.cmd.reads → g'.got = some e.cmd.lba))) g := by
  have hhead := h.head
  have hphase := h.phase
  have hslot : (c.side q).head &&& 1 = (g.side q).head := by
    rw [h.side, Nat.and_one_is_mod]
    omega
  have hpoll := @safe_pollFrom disk g q e h.stage _ hslot spin
  rw [h.side] at hpoll
  refine hpoll.seq fun r g' ⟨hfailed, htaken⟩ => ?_
  rw [h.failed] at hfailed
  cases r with
  | none => exact ⟨hfailed, fun hr => nomatch hr⟩
  | some v =>
    obtain ⟨hside, hstage, hgot⟩ := htaken v rfl
    have hidle : ∀ q', g'.stage q' = .idle := by
      intro q'
      rw [hstage]
      by_cases hq : q' = q
      · rw [hq, Function.update_self]
      · rw [Function.update_of_ne hq, h.idle q' hq]
    have hplace : ∀ q', g'.side q' = (c.setSide q (c.side q).after).side q' := by
      intro q'
      rw [hside, h.side]
      by_cases hq : q' = q
      · rw [hq, Function.update_self, Ctrl.side_setSide_self]
      · rw [Function.update_of_ne hq, Ctrl.side_setSide_ne _ hq, h.side]
    rw [conclude_eq hhead hphase, ring_cqDoorbell]
    refine performs_driver fun m hi _ m' hs => ?_
    rw [perform_cqDoorbell hs]
    refine ⟨g', hi.headDoorbell (hidle q) _, hfailed,
      fun hr => ⟨⟨hfailed, fun q' => ⟨hidle q', hplace q'⟩⟩, hgot ?_⟩⟩
    by_contra hv
    exact nomatch (if_neg hv).symm.trans hr

/-- A command that succeeds leaves the driver ready for the next one. -/
theorem safe_command {q : Qid} {cmd : Sqe} (h : Ready g c) :
    (outline disk).Safe .driver (command q cmd c) (fun r g' =>
    g'.failed = false ∧ (r.1 = some 0 → Ready g' r.2 ∧
      (q = .io → cmd.reads → g'.got = some cmd.lba))) g := by
  obtain ⟨hfailed, hready⟩ := h
  rw [command_eq]
  refine performs_driver fun m hi _ m' hs => ?_
  obtain rfl := hs
  have hentry := hi.entry (hready q).1 hfailed ⟨c.cid, cmd, m.serial⟩
  rw [(hready q).2] at hentry
  refine ⟨_, hentry, ?_⟩
  have hb := hi.bounds q
  rw [(hready q).2] at hb
  have hnext := c.next_side q hb.1
  have htail : ((c.next q).side q).tail = ((g.side q).tail + 1) % 2 := by
    rw [hnext, (hready q).2]
  rw [ring_sqDoorbell]
  refine performs_driver fun m' hi' _ m'' hs => ?_
  rw [perform_sqDoorbell hs]
  refine ⟨_, hi'.rung (Function.update_self _ _ _) htail, safe_awaited (e := ⟨c.cid, cmd, m.serial⟩) ?_⟩
  refine ⟨Function.update_self _ _ _, fun q' hq => ?_, fun q' => ?_, hfailed, ?_, ?_⟩
  · simp only [Function.update_of_ne hq]
    exact (hready q').1
  · by_cases hq : q' = q
    · subst hq
      simp only [Function.update_self, hnext, (hready q').2]
    · simp only [Function.update_of_ne hq, c.next_side_ne hq]
      exact (hready q').2
  · rw [hnext]
    exact hb.2.1
  · rw [hnext]
    exact hb.2.2

/-- Sectors have 64-bit numbers, and a command holds one in two halves. -/
theorem lba_halves {lba : Nat} (h : lba < 2 ^ 64) :
    (lba &&& 0xffffffff) + 2 ^ 32 * ((lba >>> 32) % 2 ^ 32) = lba := by
  rw [show (0xffffffff : Nat) = 2 ^ 32 - 1 from rfl, Nat.and_two_pow_sub_one_eq_mod,
    Nat.shiftRight_eq_div_pow,
    Nat.mod_eq_of_lt (Nat.div_lt_of_lt_mul (by omega))]
  exact Nat.mod_add_div lba (2 ^ 32)

/-- A sector that is given is the one asked for, and the driver is ready for the next read. -/
theorem safe_readLba (h : Ready g c) {lba : Nat} (hlba : lba < 2 ^ 64) :
    (outline disk).Safe .driver (readLba lba c)
      (fun r g' => ∀ s, r.1 = some s → s = disk lba ∧ Ready g' r.2) g := by
  refine performs_driver fun m hi _ m' hs => ?_
  obtain rfl := hs
  refine ⟨_, hi.zero (fun q => (h.2 q).1) zeroSector, ?_⟩
  have hcommand := @safe_command disk { g with got := none } c .io
    ⟨0x02, 1, dmaPhys + dataOffset, lba &&& 0xffffffff, (lba >>> 32) % 2 ^ 32, 0⟩ h
  refine hcommand.seq fun r g' ⟨hfailed, hr⟩ => ?_
  obtain ⟨status, c'⟩ := r
  change (outline disk).Safe .driver (if status ≠ some 0 then _ else _) _ g'
  by_cases hstatus : status = some 0
  · rw [if_neg (not_not_intro hstatus)]
    obtain ⟨hready, hgot⟩ := hr hstatus
    have hgot := hgot rfl ⟨rfl, rfl, rfl, rfl⟩
    refine performs_driver fun m hi s m' hs => ?_
    obtain ⟨hs, rfl⟩ := hs
    have hdata := (hi.data _ hgot).2
    rw [← hs] at hdata
    refine ⟨g', hi, fun s' hs' => ?_⟩
    cases hs'
    refine ⟨?_, hready⟩
    rw [hdata]
    exact congrArg disk (lba_halves hlba)
  · rw [if_pos hstatus]
    exact fun _ hs => nomatch hs

/-- A computation that ends at the first sector it is not given. -/
theorem safe_served {α : Type} {bad : α → Prop} {p : Reading α} (hp : p.Until bad) (h : Ready g c) :
    (outline disk).Safe .driver (served p c) (fun _ _ => True) g := by
  induction p generalizing g c with
  | ret a => trivial
  | crash => exact performs_driver fun _ _ r => r.elim
  | read lba k ih =>
    obtain ⟨hlba, hnone, hsome⟩ := hp
    refine (safe_readLba h hlba).seq fun r g' hr => performs_driver fun m hi _ m' hs => ?_
    obtain ⟨r, c'⟩ := r
    obtain rfl := hs
    cases r with
    | none =>
      refine ⟨_, hi.refused lba, ?_⟩
      change (outline disk).Safe .driver (served (k none) c') _ _
      cases hk : k none with
      | ret a => trivial
      | crash => exact performs_driver fun _ _ r => r.elim
      | read lba k' =>
        rw [hk] at hnone
        exact hnone.elim
    | some s =>
      obtain ⟨hgiven, hready⟩ := hr s rfl
      exact ⟨g', hi.given hgiven, ih (some s) (hsome s) hready⟩

theorem safe_admin (opcode nsid prp cdw10 cdw11 : Nat) (h : Ready g c) :
    (outline disk).Safe .driver (admin opcode nsid prp cdw10 cdw11 c)
    (fun r g' => r.1 = some 0 → Ready g' r.2) g :=
  (safe_command h).mono fun _ _ hr hzero => (hr.2 hzero).1

theorem safe_createIoQueues (h : Ready g c) :
    (outline disk).Safe .driver (createIoQueues c) (fun r g' => r.1 = true → Ready g' r.2) g := by
  refine (safe_admin _ _ _ _ _ h).seq fun r g' hr => ?_
  obtain ⟨status, c'⟩ := r
  refine Outline.Safe.ite (fun _ => fun hr => nomatch hr) fun hstatus => ?_
  refine (safe_admin _ _ _ _ _ (hr (not_not.mp hstatus))).seq fun r g'' hr => ?_
  obtain ⟨status', c''⟩ := r
  exact Outline.Safe.ite (fun _ => fun hr => nomatch hr) fun hstatus => fun _ => hr (not_not.mp hstatus)

theorem safe_driver (h : Ready g opened) : (outline disk).Safe .driver driver (fun _ _ => True) g := by
  refine (safe_createIoQueues h).seq fun r g' hr => ?_
  obtain ⟨ok, c'⟩ := r
  have hwait : ∀ g, (outline disk).Safe .driver (Prog.forever (act .wait)) (fun _ _ => True) g := fun g =>
    Outline.Safe.forever (fun _ => True) trivial (fun _ _ => trivial) fun g _ =>
      performs_driver fun m hi _ m' hs => ⟨g, (by rw [show m' = m from hs]; exact hi), trivial⟩
  refine Outline.Safe.ite (fun hok => ?_) fun _ => hwait g'
  have hserved : (outline disk).Safe .driver ((served Reading.loadNamed c').bind fun r => .ret r.1)
    (fun _ _ => True) g' :=
    (safe_served Reading.until_loadNamed (hr hok)).seq fun _ _ _ => trivial
  exact hserved.seq fun _ g'' _ => hwait g''

theorem safe_controller : (outline disk).Safe .controller (Prog.forever (act .device))
    (fun _ _ => True) () := by
  refine Outline.Safe.forever (fun _ => True) trivial (fun _ _ => trivial) fun _ _ => ⟨trivial, ?_⟩
  rintro G m - - hi r m' hs
  exact ⟨(), Inv.device hi hs, trivial⟩

theorem inv_start (data : Sector) :
    Inv disk ⟨fun _ => ⟨0, 0, 1⟩, fun _ => .idle, none, false⟩ (start data).mem := by
  have hnil : ∀ {before : List Note} {n after}, [] ≠ before ++ n :: after := by
    intro before n after
    simp
  refine ⟨fun _ => ⟨Nat.zero_lt_two, Nat.zero_lt_two, Nat.one_lt_two⟩,
    fun q => ⟨⟨rfl, rfl, rfl⟩, ⟨rfl, rfl, Nat.zero_ne_one, ?_⟩, rfl⟩,
    fun _ h => (nomatch h), fun _ _ h => (nomatch h), fun _ _ h => (nomatch h),
      fun _ _ _ _ h => (hnil h).elim,
    fun _ _ _ h => (hnil h).elim, fun _ _ h => (nomatch h)⟩
  exact ⟨fun _ => Nat.zero_ne_one, fun h => nomatch h⟩

theorem holds_of_reach {data : Sector} {s : State Party nvmeSig Memory}
    (h : Reach (fun _ => perform disk) (fun _ _ => True) (start data) s) : (outline disk).Holds s := by
  refine Outline.holds_of_reach ?_ (fun _ _ _ _ _ _ _ _ => trivial) h
  refine ⟨fun | .driver => ⟨fun _ => ⟨0, 0, 1⟩, fun _ => .idle, none, false⟩ | .controller => (),
    inv_start data, fun t => ?_⟩
  cases t with
  | driver =>
    refine safe_driver ⟨rfl, fun q => ⟨rfl, ?_⟩⟩
    cases q <;> rfl
  | controller => exact safe_controller

/-- In every run of the driver with a controller that keeps the rules of the queues, each sector
that is given is the one asked for, each completion that is taken is that of the last command, at
most one command of a pair is outstanding, and nothing is submitted after a read that failed. -/
theorem reads_faithful (disk : Nat → Sector) (data : Sector) {s : State Party nvmeSig Memory}
    (h : Reach (fun _ => perform disk) (fun _ _ => True) (start data) s) : Faithful disk s.mem := by
  obtain ⟨G, hinv, -⟩ := holds_of_reach h
  exact hinv.faithful

/-- The controller takes the first command and completes it, and the driver sees that it is done. -/
theorem reads_faithful_first : ∃ s, (∃ e c, s.mem.log = [.submit .admin e, .complete .admin c]) ∧
    Faithful (fun _ => zeroSector) (State.mem (T := Party) (S := nvmeSig) s) := by
  have h0 : Reach (fun _ => perform fun _ => zeroSector) (fun _ _ => True) (start zeroSector)
    (start zeroSector) := .init
  have h1 := h0.step (t := .driver) trivial (.act (r := ()) rfl (by exact rfl))
  have h2 := h1.step (t := .driver) trivial (.act (r := ()) rfl (by exact ⟨.admin, .inl ⟨rfl, rfl⟩⟩))
  have h3 := h2.step (t := .controller) trivial (.turn rfl)
  have h4 := h3.step (t := .controller) trivial
    (.act (r := ()) rfl (by exact Device.fetch .admin (by decide)))
  have h5 := h4.step (t := .controller) trivial (.turn rfl)
  have h6 := h5.step (t := .controller) trivial
    (.act (r := ()) rfl (by exact Device.complete .admin [] [] _ 0 rfl nofun))
  have h7 := h6.step (t := .driver) trivial (.act rfl (by exact ⟨rfl, rfl⟩))
  have h8 := h7.step (t := .driver) trivial (.act (r := ()) rfl (by exact rfl))
  exact ⟨_, ⟨_, _, rfl⟩, reads_faithful _ _ h8⟩

end runs

end Lerux.Swift
