import Lerux.Sddf.SerialQueue
import Mathlib.Data.List.TakeWhile

/-!
# The serial receive virtualiser

`sddf-serial-virt-rx` takes the bytes of the driver and hands each to the current client. A switch
character starts an escape: doubled it is a literal, and with up to four digits and a terminator it
selects another client. The parser state survives from one notification to the next; the unpublished
tail of the current client's queue and the `transferred` flag do not.

`refParse` reads the whole stream by looking ahead. `receive_demux` says that the virtualiser delivers
the same bytes to the same clients, however the stream is split into notifications.
-/

namespace Lerux.Serial.Receive

open Lerux.Base

abbrev Byte := BitVec 8

def isAsciiDigit (b : Byte) : Bool := 48 ≤ b.toNat && b.toNat ≤ 57

/-! ### The reference parse -/

/-- The number a list of digits spells. -/
def decimal (ds : List Byte) : Nat := ds.foldl (fun value d => value * 10 + (d.toNat - 48)) 0

/-- The digits an escape reads: as many as there are, and at most four. -/
def escapeDigits (xs : List Byte) : List Byte := (xs.takeWhile isAsciiDigit).take 4

/-- The bytes of a stream, each with the client it goes to. -/
def refParse (switchChar terminate : Byte) (n : Nat) (current : Nat) : List Byte → List (Nat × Byte)
  | [] => []
  | b :: xs =>
    if b = switchChar then
      match h : xs.drop (escapeDigits xs).length with
      | [] => []
      | c :: rest =>
        have : rest.length < xs.length + 1 := by
          have := congrArg List.length h
          simp only [List.length_drop, List.length_cons] at this
          omega
        if (escapeDigits xs).isEmpty then
          if c = switchChar then (current, c) :: refParse switchChar terminate n current rest
          else refParse switchChar terminate n current rest
        else if c = terminate ∧ decimal (escapeDigits xs) < n then
          refParse switchChar terminate n (decimal (escapeDigits xs)) rest
        else refParse switchChar terminate n current rest
    else (current, b) :: refParse switchChar terminate n current xs
termination_by xs => xs.length

/-- What a parse gives one client. -/
def own (k : Nat) (out : List (Nat × Byte)) : List Byte := (out.filter fun x => x.1 = k).map (·.2)

/-! ### The virtualiser -/

inductive Mode
  | normal
  | switched
  | number
  deriving DecidableEq

structure Config where
  numClients : Nat
  capacity : Nat → Nat
  switchChar : Byte
  terminate : Byte

/-- The parser's part of `HandlerImpl`. -/
structure Handler where
  mode : Mode
  current : Nat
  digits : Fin 4 → Byte
  digitLen : Nat

/-- A client's queue, and a record: the bytes it has taken, the bytes published to it, and how many
of those had been published when it was last notified. -/
structure Client where
  ring : Ring 32 Byte
  taken : List Byte
  published : List Byte
  told : List Byte

/-- The local variables of `rx_return`, and the bytes accepted since the tail was loaded. -/
structure Locals where
  localTail : BitVec 32
  transferred : Bool
  staged : List Byte

/-- The virtualiser, the clients, and the driver's flag and notifications. -/
structure World where
  handler : Handler
  client : Nat → Client
  locals : Option Locals
  producerSignalled : BitVec 32
  driverNotified : Bool

def parseDigits : Nat → List Byte → Option Nat
  | value, [] => some value
  | value, digit :: digits =>
    if isAsciiDigit digit = false then none
    else if value * 10 < 2 ^ 64 ∧ value * 10 + (digit.toNat - 48) < 2 ^ 64 then
      parseDigits (value * 10 + (digit.toNat - 48)) digits
    else none

/-- `parse_client_index`. -/
def parseClientIndex (digits : List Byte) : Option Nat :=
  if digits.isEmpty then none else parseDigits 0 digits

/-- `serial_enqueue_local`: the status, the new local tail and the queue. -/
def serialEnqueueLocal (capacity : BitVec 32) (ring : Ring 32 Byte) (localTail : BitVec 32)
    (character : Byte) :
    Int × BitVec 32 × Ring 32 Byte :=
  if RingWord.isFull localTail ring.head capacity then (-1, localTail, ring)
  else (0, RingWord.advanceTail localTail ring.head capacity,
    ring.write (RingWord.index localTail capacity).toNat character)

/-- `serial_dequeue` by a client. -/
def serialDequeue (capacity : BitVec 32) (ring : Ring 32 Byte) : Option (Byte × Ring 32 Byte) :=
  if RingWord.isEmpty ring.tail ring.head then none
  else some (ring.slot (RingWord.index ring.head capacity).toNat,
    ring.storeHead (RingWord.advanceHead ring.head ring.tail))

/-- With nobody else at the ring these are the functions of the serial queue. -/
theorem serialEnqueueLocal_alone (capacity : BitVec 32) (ring : Ring 32 Byte)
    (localTail : BitVec 32) (character : Byte) :
    runAlone (SerialQueue.serialEnqueueLocal capacity localTail character) ring =
      let (status, localTail, ring) := serialEnqueueLocal capacity ring localTail character
      some ((status, localTail), ring) := by
  change runAlone (if RingWord.isFull localTail ring.head capacity = true then _ else _) ring = _
  unfold serialEnqueueLocal
  split <;> rfl

theorem serialDequeue_alone (capacity : BitVec 32) (ring : Ring 32 Byte) :
    runAlone (SerialQueue.serialDequeue capacity) ring =
      some (((serialDequeue capacity ring).map Prod.fst,
        ((serialDequeue capacity ring).map Prod.snd).getD ring)) := by
  change runAlone (if RingWord.isEmpty ring.tail ring.head = true then _ else _) ring = _
  unfold serialDequeue
  split <;> rfl

/-- `reset`. -/
def reset (h : Handler) : Handler := { h with digits := fun _ => 0, digitLen := 0, mode := .normal }

/-- `push_digit`. Writing past the four digits is a panic. -/
def pushDigit (h : Handler) (byte : Byte) : Option Handler :=
  if hlt : h.digitLen < 4 then
    some { h with digits := Function.update h.digits ⟨h.digitLen, hlt⟩ byte, digitLen := h.digitLen + 1 }
  else none

section functions

variable (cfg : Config)

def cap (k : Nat) : BitVec 32 := BitVec.ofNat 32 (cfg.capacity k)

/-- `enqueue_current`. -/
def enqueueCurrent (w : World) (l : Locals) (byte : Byte) : World × Locals :=
  let current := w.handler.current
  let c := w.client current
  let (status, localTail, ring) := serialEnqueueLocal (cap cfg current) c.ring l.localTail byte
  if status = 0 then
    ({ w with client := Function.update w.client current { c with ring := ring } },
      { localTail := localTail, transferred := true, staged := l.staged ++ [byte] })
  else (w, { l with localTail := localTail })

/-- `serial_update_shared_tail` on client `k`'s queue. -/
def updateSharedTail (w : World) (k : Nat) (l : Locals) : World :=
  let c := w.client k
  let c := { c with ring := c.ring.storeTail l.localTail, published := c.published ++ l.staged }
  { w with client := Function.update w.client k c }

/-- A notification of client `k`. -/
def notifyClient (w : World) (k : Nat) : World :=
  let c := w.client k
  { w with client := Function.update w.client k { c with told := c.published } }

/-- `accept_normal`. -/
def acceptNormal (w : World) (l : Locals) (byte : Byte) : World × Locals :=
  if byte = cfg.switchChar then ({ w with handler := { w.handler with mode := .switched } }, l)
  else enqueueCurrent cfg w l byte

/-- `accept_switched`. -/
def acceptSwitched (w : World) (l : Locals) (byte : Byte) : Option (World × Locals) :=
  if isAsciiDigit byte then
    (pushDigit w.handler byte).map fun h => ({ w with handler := { h with mode := .number } }, l)
  else
    let (w, l) := if byte = cfg.switchChar then enqueueCurrent cfg w l byte else (w, l)
    some ({ w with handler := reset w.handler }, l)

/-- `commit_number`. A slice past the four digits is a panic. -/
def commitNumber (w : World) (l : Locals) : Option (World × Locals) :=
  if 4 < w.handler.digitLen then none
  else
    match parseClientIndex ((List.ofFn w.handler.digits).take w.handler.digitLen) with
    | none => some ({ w with handler := reset w.handler }, l)
    | some next =>
      if next < cfg.numClients then
        let current := w.handler.current
        let w := if l.transferred then notifyClient (updateSharedTail w current l) current else w
        some ({ w with handler := reset { w.handler with current := next } },
          { localTail := (w.client next).ring.tail, transferred := false, staged := [] })
      else some ({ w with handler := reset w.handler }, l)

/-- `accept_number`. -/
def acceptNumber (w : World) (l : Locals) (byte : Byte) : Option (World × Locals) :=
  if byte = cfg.terminate then commitNumber cfg w l
  else if w.handler.digitLen < 4 ∧ isAsciiDigit byte = true then
    (pushDigit w.handler byte).map fun h => ({ w with handler := h }, l)
  else some ({ w with handler := reset w.handler }, l)

/-- `accept_byte`. -/
def acceptByte (w : World) (l : Locals) (byte : Byte) : Option (World × Locals) :=
  match w.handler.mode with
  | .normal => some (acceptNormal cfg w l byte)
  | .switched => acceptSwitched cfg w l byte
  | .number => acceptNumber cfg w l byte

/-- The start of `rx_return`. -/
def rxStart (w : World) : World :=
  { w with locals := some ⟨(w.client w.handler.current).ring.tail, false, []⟩ }

/-- The signal to the driver at the end of `rx_return`. `full` is what `driver_queue_full` returns. -/
def signalDriver (w : World) (full : Bool) : World :=
  if !full && w.producerSignalled == 0 then { w with producerSignalled := 1, driverNotified := true } else w

/-- The end of `rx_return`, when the driver queue is found empty. -/
def rxEnd (w : World) (l : Locals) (full : Bool) : World :=
  let w := signalDriver (updateSharedTail w w.handler.current l) full
  let w := if l.transferred then notifyClient w w.handler.current else w
  { w with locals := none }

/-- What happens next: a notification, the result of the next `serial_dequeue` of `rx_return`'s loop, a
request of the driver for a signal, or a client that takes a byte. -/
inductive Input
  | notified (driver : Bool)
  | byte (b : Byte)
  | empty (full : Bool)
  | request
  | take (k : Nat)

/-- One input. Inputs the virtualiser does not wait for change nothing; `none` is a panic. -/
def step (w : World) : Input → Option World
  | .notified driver =>
    match w.locals with
    | none => some (if driver then rxStart w else w)
    | some _ => some w
  | .byte b =>
    match w.locals with
    | none => some w
    | some l => (acceptByte cfg w l b).map fun (w, l) => { w with locals := some l }
  | .empty full =>
    match w.locals with
    | none => some w
    | some l => some (rxEnd w l full)
  | .request => some { w with producerSignalled := 0 }
  | .take k =>
    match serialDequeue (cap cfg k) (w.client k).ring with
    | none => some w
    | some (b, ring) =>
      let c := { w.client k with ring := ring, taken := (w.client k).taken ++ [b] }
      some { w with client := Function.update w.client k c }

def run (w : World) : List Input → Option World
  | [] => some w
  | i :: is => (step cfg w i).bind fun w => run w is

end functions

/-- Whether a run of the handler is under way, and the bytes it and the runs before it were given. -/
def heard : Bool × List Byte → Input → Bool × List Byte
  | (false, s), .notified true => (true, s)
  | (true, s), .byte b => (true, s ++ [b])
  | (true, s), .empty _ => (false, s)
  | p, _ => p

/-- The byte stream from the driver. A run of the handler takes bytes until it finds the driver's
queue empty. -/
def stream (is : List Input) : List Byte := (is.foldl heard (false, [])).2

/-- Zeroed queues and the state `init` returns. -/
def boot : World where
  handler := ⟨.normal, 0, fun _ => 0, 0⟩
  client _ := ⟨⟨0, 0, fun _ => 0⟩, [], [], []⟩
  locals := none
  producerSignalled := 0
  driverNotified := false

/-! ### One byte of the reference parse -/

section parse

variable {sw term : Byte} {n cur : Nat} {b c : Byte} {ds ys : List Byte}

theorem refParse_plain (hb : b ≠ sw) : refParse sw term n cur (b :: ys) =
    (cur, b) :: refParse sw term n cur ys := by
  rw [refParse, if_neg hb]

theorem escapeDigits_append (hds : ∀ d ∈ ds, isAsciiDigit d = true) (hlen : ds.length ≤ 4)
    (hc : ds.length = 4 ∨ isAsciiDigit c = false) : escapeDigits (ds ++ c :: ys) = ds := by
  unfold escapeDigits
  rw [List.takeWhile_append_of_pos hds]
  rcases hc with hc | hc
  · rw [List.take_append_of_le_length (by omega), List.take_of_length_le (by omega)]
  · rw [List.takeWhile_cons_of_neg (by simp [hc]), List.append_nil, List.take_of_length_le hlen]

theorem escapeDigits_self (hds : ∀ d ∈ ds, isAsciiDigit d = true) (hlen : ds.length ≤ 4) :
    escapeDigits ds = ds := by
  unfold escapeDigits
  rw [List.takeWhile_eq_self_iff.mpr hds, List.take_of_length_le hlen]

/-- An escape of which nothing but digits has come delivers nothing. -/
theorem refParse_pending (hds : ∀ d ∈ ds, isAsciiDigit d = true) (hlen : ds.length ≤ 4) :
    refParse sw term n cur (sw :: ds) = [] := by
  rw [refParse, if_pos rfl]
  split
  · rfl
  · rename_i h
    rw [escapeDigits_self hds hlen, List.drop_length] at h
    exact nomatch h

/-- An escape and the byte that ends it. -/
theorem refParse_escape (hds : ∀ d ∈ ds, isAsciiDigit d = true) (hlen : ds.length ≤ 4)
    (hc : ds.length = 4 ∨ isAsciiDigit c = false) : refParse sw term n cur (sw :: (ds ++ c :: ys)) =
      if ds.isEmpty then
        if c = sw then (cur, c) :: refParse sw term n cur ys else refParse sw term n cur ys
      else if c = term ∧ decimal ds < n then refParse sw term n (decimal ds) ys
      else refParse sw term n cur ys := by
  have he : escapeDigits (ds ++ c :: ys) = ds := escapeDigits_append hds hlen hc
  rw [refParse, if_pos rfl]
  split
  · rename_i h
    rw [he, List.drop_left] at h
    exact nomatch h
  · rename_i h
    rw [he, List.drop_left] at h
    injection h with h1 h2
    subst h1 h2
    simp only [he]

end parse

theorem own_append (k : Nat) (xs ys : List (Nat × Byte)) : own k (xs ++ ys) = own k xs ++ own k ys := by
  simp [own]

theorem own_single (k j : Nat) (b : Byte) : own k [(j, b)] = if j = k then [b] else [] := by
  by_cases h : j = k <;> simp [own, h]

/-! ### Digits -/

theorem parseDigits_eq {digits : List Byte} (hd : ∀ d ∈ digits, isAsciiDigit d = true) {value : Nat}
    (hv : (value + 1) * 10 ^ digits.length < 2 ^ 64) :
    parseDigits value digits = some (digits.foldl (fun value d => value * 10 + (d.toNat - 48)) value) := by
  induction digits generalizing value with
  | nil => rfl
  | cons d ds ih =>
    have hdig := hd d List.mem_cons_self
    have hd9 : d.toNat - 48 ≤ 9 := by
      simp only [isAsciiDigit, Bool.and_eq_true, decide_eq_true_eq] at hdig
      omega
    have hpow : 1 ≤ 10 ^ ds.length := Nat.one_le_pow _ _ (by omega)
    have hstep : (value * 10 + (d.toNat - 48) + 1) * 10 ^ ds.length < 2 ^ 64 := by
      refine lt_of_le_of_lt ?_ hv
      rw [List.length_cons, pow_succ]
      nlinarith
    have hval : value * 10 + (d.toNat - 48) < 2 ^ 64 := by nlinarith
    rw [parseDigits, if_neg (by simp [hdig]), if_pos ⟨by omega, hval⟩]
    exact ih (fun x hx => hd x (List.mem_cons_of_mem d hx)) hstep

/-- The digits of an escape spell a number. -/
theorem parseClientIndex_eq {digits : List Byte} (hd : ∀ d ∈ digits, isAsciiDigit d = true)
    (hne : digits ≠ [])
    (hlen : digits.length ≤ 4) : parseClientIndex digits = some (decimal digits) := by
  rw [parseClientIndex, if_neg (by simpa using hne)]
  refine parseDigits_eq hd ?_
  have : 10 ^ digits.length ≤ 10 ^ 4 := Nat.pow_le_pow_right (by omega) hlen
  omega

/-- The digits read so far. -/
def Handler.entered (h : Handler) : List Byte := (List.ofFn h.digits).take h.digitLen

theorem pushDigit_entered {h : Handler} {b : Byte} (hlt : h.digitLen < 4) :
    ∃ h', pushDigit h b = some h' ∧ h'.mode = h.mode ∧ h'.current = h.current ∧
      h'.digitLen = h.digitLen + 1 ∧
      h'.entered = h.entered ++ [b] := by
  refine ⟨_, dif_pos hlt, rfl, rfl, rfl, ?_⟩
  unfold Handler.entered
  have hsame : (List.ofFn (Function.update h.digits ⟨h.digitLen, hlt⟩ b)).take h.digitLen =
      (List.ofFn h.digits).take h.digitLen := by
    apply List.ext_getElem
    · simp
    · intro i h1 h2
      have hi : i < h.digitLen := by
        simp only [List.length_take] at h1
        omega
      simp only [List.getElem_take, List.getElem_ofFn]
      exact Function.update_of_ne (by simp [Fin.ext_iff]; omega) _ _
  rw [List.take_add_one, hsame, List.getElem?_ofFn, dif_pos hlt]
  simp only [Function.update_self, Option.toList_some]

/-! ### One client's queue -/

/-- A client's queue of capacity `cap`, when the virtualiser's tail for it is `tail` and it has accepted
`staged` since it loaded that tail. -/
structure ClientOk (cap : Nat) (c : Client) (tail : BitVec 32) (staged : List Byte) : Prop where
  len : (c.ring.storeTail tail).len = c.ring.len + staged.length
  fits : (c.ring.storeTail tail).len ≤ cap
  told : c.told = c.published
  count : c.taken.length + c.ring.len = c.published.length
  contents : Ring.Good 32 cap → c.taken ++ c.ring.contents cap = c.published ∧
    c.taken ++ (c.ring.storeTail tail).contents cap = c.published ++ staged

section client

variable {cap : Nat} {c : Client} {tail : BitVec 32} {staged : List Byte}

theorem ClientOk.tail_eq (h : ClientOk cap c tail []) : tail = c.ring.tail := by
  have hlen : (tail - c.ring.head).toNat = (c.ring.tail - c.ring.head).toNat := h.len
  exact sub_left_inj.mp (BitVec.eq_of_toNat_eq hlen)

/-- A queue the virtualiser holds no bytes for. -/
theorem ClientOk.reload (h : ClientOk cap c tail []) : ClientOk cap c c.ring.tail [] := by
  rw [← h.tail_eq]
  exact h

theorem capacity_toNat (hc : Ring.Counts 32 cap) : (BitVec.ofNat 32 cap).toNat = cap := by
  rw [BitVec.toNat_ofNat, Nat.mod_eq_of_lt hc.lt]

/-- The virtualiser stores a byte behind its tail. -/
theorem ClientOk.stage (hc : Ring.Counts 32 cap) (h : ClientOk cap c tail staged)
    (hroom : (c.ring.storeTail tail).len < cap)
    (b : Byte) :
    ClientOk cap { c with ring := c.ring.write (tail.toNat % cap) b } (tail + 1) (staged ++ [b]) where
  len := by
    have hlen := Ring.len_storeTail hc (c.ring.storeTail tail) hroom
    have h' := h.len
    change ((c.ring.storeTail tail).storeTail (tail + 1)).len = c.ring.len + (staged ++ [b]).length
    simp only [Ring.storeTail_tail] at hlen
    rw [hlen, h', List.length_append, List.length_singleton, Nat.add_assoc]
  fits := by
    have hlen := Ring.len_storeTail hc (c.ring.storeTail tail) hroom
    change ((c.ring.storeTail tail).storeTail (tail + 1)).len ≤ cap
    simp only [Ring.storeTail_tail] at hlen
    omega
  told := h.told
  count := h.count
  contents hg := by
    obtain ⟨h1, h2⟩ := h.contents hg
    -- seen from the virtualiser's tail, the byte goes to a free slot and is then appended
    have hwrite := Ring.contents_write hg (c.ring.storeTail tail) hroom b
    have hpush := Ring.contents_storeTail hg.toCounts
      ((c.ring.storeTail tail).write (tail.toNat % cap) b) hroom
    have hlen := h.len
    have hle : c.ring.len ≤ (c.ring.storeTail tail).len := by omega
    have hself : (c.ring.write (tail.toNat % cap) b).contents cap = c.ring.contents cap := by
      rw [← Ring.take_contents_storeTail cap c.ring tail hle, ← hwrite]
      exact (Ring.take_contents_storeTail cap (c.ring.write (tail.toNat % cap) b) tail hle).symm
    refine ⟨by rw [← h1, ← hself], ?_⟩
    rw [← List.append_assoc, ← h2, List.append_assoc]
    congr 1
    have hslot : ((c.ring.storeTail tail).write (tail.toNat % cap) b).slot (tail.toNat % cap) = b :=
      Ring.write_slot_self _ _ _
    exact hpush.trans (congrArg₂ (· ++ ·) hwrite (congrArg (fun x => [x]) hslot))

/-- The virtualiser publishes its tail, and notifies. -/
theorem ClientOk.publish (h : ClientOk cap c tail staged) :
    ClientOk cap { c with ring := c.ring.storeTail tail, published := c.published ++ staged,
                          told := c.published ++ staged } tail [] where
  len := rfl
  fits := h.fits
  told := rfl
  count := by
    have hlen := h.len
    have hcount := h.count
    change c.taken.length + (c.ring.storeTail tail).len = (c.published ++ staged).length
    rw [List.length_append]
    omega
  contents hg := ⟨(h.contents hg).2, by rw [List.append_nil]; exact (h.contents hg).2⟩

/-- Publishing nothing changes nothing. -/
theorem ClientOk.publish_nil (h : ClientOk cap c tail []) :
    { c with ring := c.ring.storeTail tail, published := c.published ++ [] } = c := by
  rw [h.tail_eq, List.append_nil]
  rfl

/-- The client takes a byte. -/
theorem ClientOk.take (hc : Ring.Counts 32 cap) (h : ClientOk cap c tail staged) (hpos : 0 < c.ring.len) :
    ClientOk cap { c with ring := c.ring.storeHead (c.ring.head + 1),
                          taken := c.taken ++ [c.ring.slot (c.ring.head.toNat % cap)] } tail staged := by
  have hlen := h.len
  have hpos' : 0 < (c.ring.storeTail tail).len := by omega
  have h1 := Ring.len_storeHead hc c.ring hpos
  have h2 : ((c.ring.storeHead (c.ring.head + 1)).storeTail tail).len + 1 = (c.ring.storeTail tail).len :=
    Ring.len_storeHead hc (c.ring.storeTail tail) hpos'
  refine ⟨?_, ?_, h.told, ?_, fun hg => ?_⟩
  · change ((c.ring.storeHead (c.ring.head + 1)).storeTail tail).len =
      (c.ring.storeHead (c.ring.head + 1)).len + staged.length
    omega
  · have := h.fits
    change ((c.ring.storeHead (c.ring.head + 1)).storeTail tail).len ≤ cap
    omega
  · have := h.count
    change (c.taken ++ [_]).length + (c.ring.storeHead (c.ring.head + 1)).len = c.published.length
    rw [List.length_append, List.length_singleton]
    omega
  · obtain ⟨e1, e2⟩ := h.contents hg
    have g1 := Ring.contents_storeHead hg.toCounts c.ring hpos
    have g2 := Ring.contents_storeHead hg.toCounts (c.ring.storeTail tail) hpos'
    rw [g1] at e1
    rw [g2] at e2
    simp only [List.append_assoc, List.singleton_append]
    exact ⟨e1, e2⟩

end client

/-! ### The invariant -/

/-- The tail the virtualiser has for client `k`. -/
def tailOf (client : Nat → Client) (current : Nat) (locals : Option Locals) (k : Nat) : BitVec 32 :=
  match locals with
  | some l => if k = current then l.localTail else (client k).ring.tail
  | none => (client k).ring.tail

/-- What the virtualiser has accepted for client `k` and not yet published. -/
def stagedOf (current : Nat) (locals : Option Locals) (k : Nat) : List Byte :=
  match locals with
  | some l => if k = current then l.staged else []
  | none => []

/-- No client is owed more bytes of `out`, beside those it has taken, than its queue has places. -/
def KeptUp (cfg : Config) (client : Nat → Client) (out : List (Nat × Byte)) : Prop :=
  ∀ k < cfg.numClients, (own k out).length ≤ (client k).taken.length + cfg.capacity k

/-- The clients' queues, when the parser has delivered `out`, all of it to queues that had room. -/
structure QueuesOk (cfg : Config) (client : Nat → Client) (current : Nat) (locals : Option Locals)
    (room : Prop)
    (out : List (Nat × Byte)) : Prop where
  each : ∀ k < cfg.numClients, ClientOk (cfg.capacity k) (client k) (tailOf client current locals k)
    (stagedOf current locals k)
  transferred : ∀ l, locals = some l → l.transferred = false → l.staged = []
  delivered : room → ∀ k < cfg.numClients, own k out = (client k).published ++ stagedOf current locals k

structure HandlerOk (n : Nat) (h : Handler) : Prop where
  current : h.current < n
  digitLen : h.digitLen ≤ 4
  quiet : h.mode ≠ .number → h.digitLen = 0
  number : h.mode = .number → h.digitLen ≠ 0
  digits : ∀ d ∈ h.entered, isAsciiDigit d = true

/-- The bytes of the escape the parser stands in. -/
def Handler.pending (switchChar : Byte) (h : Handler) : List Byte :=
  match h.mode with
  | .normal => []
  | .switched => [switchChar]
  | .number => switchChar :: h.entered

/-- The parse of what has been seen: what is delivered, then what the parser will make of the escape it
stands in and of the rest. -/
def ParseOk (cfg : Config) (h : Handler) (seen : List Byte) (out : List (Nat × Byte)) : Prop :=
  ∀ ys, refParse cfg.switchChar cfg.terminate cfg.numClients 0 (seen ++ ys) =
    out ++ refParse cfg.switchChar cfg.terminate cfg.numClients h.current (h.pending cfg.switchChar ++ ys)

structure Inv (cfg : Config) (room : Prop) (w : World) (heard : Bool × List Byte)
    (out : List (Nat × Byte)) : Prop where
  handler : HandlerOk cfg.numClients w.handler
  queues : QueuesOk cfg w.client w.handler.current w.locals room out
  parse : ParseOk cfg w.handler heard.2 out
  busy : heard.1 = w.locals.isSome

section steps

variable {cfg : Config} {room : Prop} {w w' : World} {l l' : Locals} {out : List (Nat × Byte)} {b : Byte}

theorem QueuesOk.mono {client : Nat → Client} {current : Nat} {locals : Option Locals} {room' : Prop}
    (h : QueuesOk cfg client current locals room out)
      (himp : room' → room) : QueuesOk cfg client current locals room' out :=
  ⟨h.each, h.transferred, fun hr => h.delivered (himp hr)⟩

/-- A client that is not owed more than its queue holds has room for the byte that comes next. -/
theorem KeptUp.len_lt {client : Nat → Client} {current : Nat} {tail : BitVec 32} {staged : List Byte}
    (h : KeptUp cfg client (out ++ [(current, b)])) (hcur : current < cfg.numClients)
    (hok : ClientOk (cfg.capacity current) (client current) tail staged)
    (howed : own current out = (client current).published ++ staged) :
    ((client current).ring.storeTail tail).len < cfg.capacity current := by
  have hlen := hok.len
  have hcount := hok.count
  have hle := h current hcur
  rw [own_append, own_single, if_pos rfl, howed, List.length_append, List.length_append,
    List.length_singleton] at hle
  omega

theorem stagedOf_other {current k : Nat} {locals : Option Locals} (hk : k ≠ current) :
    stagedOf current locals k = [] := by
  unfold stagedOf
  split
  · rw [if_neg hk]
  · rfl

theorem tailOf_other {client : Nat → Client} {current k : Nat} {locals : Option Locals} (hk : k ≠ current) :
    tailOf client current locals k = (client k).ring.tail := by
  unfold tailOf
  split
  · rw [if_neg hk]
  · rfl

/-- A byte for the current client is accepted, unless the queue is full. -/
theorem QueuesOk.enqueue (hcap : ∀ k < cfg.numClients, Ring.Counts 32 (cfg.capacity k))
    (h : QueuesOk cfg w.client w.handler.current (some l) room out)
      (hcur : w.handler.current < cfg.numClients)
    (he : enqueueCurrent cfg w l b = (w', l')) :
    w'.handler = w.handler ∧ QueuesOk cfg w'.client w.handler.current (some l')
      (room ∧ KeptUp cfg w'.client (out ++ [(w.handler.current, b)]))
        (out ++ [(w.handler.current, b)]) := by
  have hc := hcap _ hcur
  have hcl := h.each _ hcur
  simp only [tailOf, stagedOf, if_pos] at hcl
  unfold enqueueCurrent serialEnqueueLocal at he
  by_cases hfull : RingWord.isFull l.localTail (w.client w.handler.current).ring.head
    (cap cfg w.handler.current) = true
  · simp only [hfull, if_true] at he
    obtain ⟨rfl, rfl⟩ := Prod.mk.inj he
    refine ⟨rfl, h.each, h.transferred, fun hr => ?_⟩
    have howed := h.delivered hr.1 _ hcur
    simp only [stagedOf, if_pos] at howed
    have hlt := hr.2.len_lt hcur hcl howed
    have hlen := (RingWord.isFull_iff ((w.client w.handler.current).ring.storeTail l.localTail) _).mp hfull
    rw [cap, capacity_toNat hc] at hlen
    exact absurd hlen hlt.ne
  · simp only [hfull, Bool.false_eq_true, if_false, if_true] at he
    obtain ⟨rfl, rfl⟩ := Prod.mk.inj he
    have hroom : ((w.client w.handler.current).ring.storeTail l.localTail).len <
      cfg.capacity w.handler.current := by
      refine lt_of_le_of_ne hcl.fits fun heq => hfull ?_
      refine (RingWord.isFull_iff ((w.client w.handler.current).ring.storeTail l.localTail) _).mpr ?_
      rw [heq, cap, capacity_toNat hc]
    refine ⟨rfl, fun k hk => ?_, ?_, fun hr k hk => ?_⟩
    · by_cases hkc : k = w.handler.current
      · subst hkc
        simp only [tailOf, stagedOf, if_pos, Function.update_self]
        have := hcl.stage hc hroom b
        rwa [RingWord.index_toNat, cap, capacity_toNat hc]
      · rw [tailOf_other hkc, stagedOf_other hkc]
        simp only [Function.update_of_ne hkc]
        have := h.each k hk
        rwa [tailOf_other hkc, stagedOf_other hkc] at this
    · rintro l'' hl ht
      injection hl with hl
      subst hl
      exact nomatch ht
    · have hd := h.delivered hr.1 k hk
      rw [own_append, hd, own_single]
      by_cases hkc : k = w.handler.current
      · subst hkc
        simp [stagedOf]
      · simp only [if_neg (Ne.symm hkc), stagedOf_other hkc, Function.update_of_ne hkc, List.append_nil]

/-- The virtualiser publishes the current client's bytes and notifies it, if there are any, and turns to
another client. -/
theorem QueuesOk.turn (h : QueuesOk cfg w.client w.handler.current (some l) room out)
    (hcur : w.handler.current < cfg.numClients) (next : Nat)
    (hw : w' = if l.transferred then notifyClient
      (updateSharedTail w w.handler.current l) w.handler.current else w) :
    QueuesOk cfg w'.client next none room out := by
  have hcl := h.each _ hcur
  simp only [tailOf, stagedOf, if_pos] at hcl
  cases ht : l.transferred with
  | true =>
    simp only [ht, if_true, notifyClient, updateSharedTail] at hw
    subst hw
    refine ⟨fun k hk => ?_, nofun, fun hr k hk => ?_⟩
    · by_cases hkc : k = w.handler.current
      · subst hkc
        simp only [tailOf, stagedOf, Function.update_self]
        exact hcl.publish
      · have := h.each k hk
        rw [tailOf_other hkc, stagedOf_other hkc] at this
        simpa only [tailOf, stagedOf, Function.update_of_ne hkc] using this
    · rw [h.delivered hr k hk]
      by_cases hkc : k = w.handler.current
      · subst hkc
        simp [stagedOf]
      · simp only [stagedOf_other hkc, Function.update_of_ne hkc]
        rfl
  | false =>
    simp only [ht, Bool.false_eq_true, if_false] at hw
    subst hw
    have hnil := h.transferred l rfl ht
    rw [hnil] at hcl
    refine ⟨fun k hk => ?_, nofun, fun hr k hk => ?_⟩
    · by_cases hkc : k = w'.handler.current
      · subst hkc
        exact hcl.reload
      · have := h.each k hk
        rwa [tailOf_other hkc, stagedOf_other hkc] at this
    · rw [h.delivered hr k hk]
      by_cases hkc : k = w'.handler.current
      · subst hkc
        simp [stagedOf, hnil]
      · rw [stagedOf_other hkc]
        rfl

/-- The virtualiser loads a client's tail. -/
theorem QueuesOk.load {client : Nat → Client} {current : Nat}
    (h : QueuesOk cfg client current none room out) :
    QueuesOk cfg client current (some ⟨(client current).ring.tail, false, []⟩) room out := by
  refine ⟨fun k hk => ?_, ?_, fun hr k hk => ?_⟩
  · have := h.each k hk
    by_cases hkc : k = current
    · subst hkc
      simpa only [tailOf, stagedOf, if_pos] using this
    · rw [tailOf_other hkc, stagedOf_other hkc]
      exact this
  · rintro l hl _
    injection hl with hl
    subst hl
    rfl
  · rw [h.delivered hr k hk]
    by_cases hkc : k = current
    · subst hkc
      simp [stagedOf]
    · rw [stagedOf_other hkc, stagedOf_other hkc]

theorem entered_reset (h : Handler) : (reset h).entered = [] := by
  simp [Handler.entered, reset]

theorem HandlerOk.reset {n : Nat} {h : Handler} (hc : h.current < n) : HandlerOk n (reset h) where
  current := hc
  digitLen := Nat.zero_le _
  quiet _ := rfl
  number := nofun
  digits := by
    rw [entered_reset]
    exact nofun

theorem HandlerOk.entered_length {n : Nat} {h : Handler} (hh : HandlerOk n h) :
    h.entered.length = h.digitLen := by
  have := hh.digitLen
  simp only [Handler.entered, List.length_take, List.length_ofFn]
  omega

theorem HandlerOk.push {n : Nat} {h h' : Handler} (hh : HandlerOk n h) (hb : isAsciiDigit b = true)
    (hc : h'.current = h.current) (hm : h'.mode = .number) (hlt : h.digitLen < 4)
      (hl : h'.digitLen = h.digitLen + 1)
    (he : h'.entered = h.entered ++ [b]) : HandlerOk n h' where
  current := by
    rw [hc]
    exact hh.current
  digitLen := by omega
  quiet hn := (hn hm).elim
  number _ := by omega
  digits := by
    rw [he]
    intro d hd
    rcases List.mem_append.mp hd with hd | hd
    · exact hh.digits d hd
    · obtain rfl := List.mem_singleton.mp hd
      exact hb

/-- One byte of the parse: `out'` is what it delivers. -/
theorem ParseOk.byte {h h' : Handler} {seen : List Byte} {out' : List (Nat × Byte)}
    (hp : ParseOk cfg h seen out)
    (hs : ∀ ys, refParse cfg.switchChar cfg.terminate cfg.numClients h.current
      (h.pending cfg.switchChar ++ b :: ys) =
      out' ++ refParse cfg.switchChar cfg.terminate cfg.numClients h'.current
        (h'.pending cfg.switchChar ++ ys)) :
    ParseOk cfg h' (seen ++ [b]) (out ++ out') := by
  intro ys
  rw [List.append_assoc, List.singleton_append, hp (b :: ys), hs ys, List.append_assoc]

theorem Handler.pending_normal {h : Handler} (hm : h.mode = .normal) (sw : Byte) : h.pending sw = [] := by
  simp [Handler.pending, hm]

theorem Handler.pending_switched {h : Handler} (hm : h.mode = .switched) (sw : Byte) :
    h.pending sw = [sw] := by
  simp [Handler.pending, hm]

theorem Handler.pending_number {h : Handler} (hm : h.mode = .number) (sw : Byte) :
    h.pending sw = sw :: h.entered := by
  simp [Handler.pending, hm]

/-- A byte that is not delivered. -/
theorem QueuesOk.quiet {client : Nat → Client} {current : Nat} {locals : Option Locals}
    (h : QueuesOk cfg client current locals room out) :
    QueuesOk cfg client current locals (room ∧ KeptUp cfg client (out ++ [])) (out ++ []) := by
  rw [List.append_nil]
  exact h.mono And.left

/-- What `accept_byte` has to keep. -/
def Accepts (cfg : Config) (room : Prop) (w : World) (out : List (Nat × Byte)) (b : Byte)
    (x : Option (World × Locals)) : Prop :=
  ∃ w' l' out', x = some (w', l') ∧ HandlerOk cfg.numClients w'.handler ∧
    QueuesOk cfg w'.client w'.handler.current (some l') (room ∧ KeptUp cfg w'.client (out ++ out'))
      (out ++ out') ∧
    ∀ ys, refParse cfg.switchChar cfg.terminate cfg.numClients w.handler.current
        (w.handler.pending cfg.switchChar ++ b :: ys) =
      out' ++ refParse cfg.switchChar cfg.terminate cfg.numClients w'.handler.current
        (w'.handler.pending cfg.switchChar ++ ys)

theorem accepts_normal (hcap : ∀ k < cfg.numClients, Ring.Counts 32 (cfg.capacity k))
    (hh : HandlerOk cfg.numClients w.handler)
    (hq : QueuesOk cfg w.client w.handler.current (some l) room out) (hm : w.handler.mode = .normal) :
    Accepts cfg room w out b (some (acceptNormal cfg w l b)) := by
  have hz := hh.quiet (by rw [hm]; exact nofun)
  unfold acceptNormal
  split
  · rename_i hb
    subst hb
    refine ⟨_, _, [], rfl, ⟨hh.current, hh.digitLen, fun _ => hz, nofun, hh.digits⟩, hq.quiet, fun ys => ?_⟩
    rw [Handler.pending_normal hm, Handler.pending_switched rfl]
    rfl
  · rename_i hb
    obtain ⟨w', l', he⟩ : ∃ w' l', enqueueCurrent cfg w l b = (w', l') := ⟨_, _, rfl⟩
    obtain ⟨e1, hq'⟩ := hq.enqueue hcap hh.current he
    rw [he]
    refine ⟨_, _, _, rfl, by rw [e1]; exact hh, by rw [e1]; exact hq', fun ys => ?_⟩
    rw [e1, Handler.pending_normal hm]
    exact refParse_plain hb

theorem accepts_switched (hcap : ∀ k < cfg.numClients, Ring.Counts 32 (cfg.capacity k))
    (hh : HandlerOk cfg.numClients w.handler)
    (hq : QueuesOk cfg w.client w.handler.current (some l) room out) (hm : w.handler.mode = .switched) :
    Accepts cfg room w out b (acceptSwitched cfg w l b) := by
  have hz := hh.quiet (by rw [hm]; exact nofun)
  have hnil : w.handler.entered = [] := List.length_eq_zero_iff.mp (by rw [hh.entered_length, hz])
  unfold acceptSwitched
  split
  · rename_i hb
    obtain ⟨h', he, -, hc, hl, hent⟩ := pushDigit_entered (h := w.handler) (b := b) (by omega)
    rw [he]
    have hok : HandlerOk cfg.numClients { h' with mode := .number } := hh.push hb hc rfl (by omega) hl hent
    refine ⟨_, _, [], rfl, hok, ?_, fun ys => ?_⟩
    · rw [hc]
      exact hq.quiet
    · have hent' : Handler.entered { h' with mode := .number } = [b] := hent.trans (by rw [hnil]; rfl)
      rw [Handler.pending_switched hm, Handler.pending_number rfl, hent', hc]
      rfl
  · rename_i hb
    have hb : isAsciiDigit b = false := by simpa using hb
    have hesc : ∀ ys, refParse cfg.switchChar cfg.terminate cfg.numClients w.handler.current
        (cfg.switchChar :: b :: ys) = if b = cfg.switchChar then
          (w.handler.current, b) :: refParse cfg.switchChar cfg.terminate cfg.numClients
            w.handler.current ys
          else refParse cfg.switchChar cfg.terminate cfg.numClients w.handler.current ys := by
      intro ys
      exact @refParse_escape _ _ _ _ _ [] _ nofun (by simp) (.inr hb)
    by_cases hbs : b = cfg.switchChar
    · rw [if_pos hbs]
      obtain ⟨w', l', he⟩ : ∃ w' l', enqueueCurrent cfg w l b = (w', l') := ⟨_, _, rfl⟩
      obtain ⟨e1, hq'⟩ := hq.enqueue hcap hh.current he
      rw [he]
      refine ⟨_, _, [(w.handler.current, b)], rfl, ?_, ?_, fun ys => ?_⟩
      · rw [e1]
        exact .reset hh.current
      · rw [e1]
        exact hq'
      · rw [Handler.pending_switched hm, Handler.pending_normal rfl, e1]
        exact (hesc ys).trans (if_pos hbs)
    · rw [if_neg hbs]
      refine ⟨_, _, [], rfl, .reset hh.current, hq.quiet, fun ys => ?_⟩
      rw [Handler.pending_switched hm, Handler.pending_normal rfl]
      exact (hesc ys).trans (if_neg hbs)

theorem accepts_number (hterm : isAsciiDigit cfg.terminate = false)
    (hh : HandlerOk cfg.numClients w.handler)
    (hq : QueuesOk cfg w.client w.handler.current (some l) room out) (hm : w.handler.mode = .number) :
    Accepts cfg room w out b (acceptNumber cfg w l b) := by
  have hpos := hh.number hm
  have hlen := hh.entered_length
  have h4 := hh.digitLen
  have hne : w.handler.entered ≠ [] := by
    intro hnil
    rw [hnil] at hlen
    exact hpos hlen.symm
  -- a byte that ends the escape
  have hesc : (w.handler.digitLen = 4 ∨ isAsciiDigit b = false) → ∀ ys,
      refParse cfg.switchChar cfg.terminate cfg.numClients w.handler.current
        (w.handler.pending cfg.switchChar ++ b :: ys) =
        if b = cfg.terminate ∧ decimal w.handler.entered < cfg.numClients then
          refParse cfg.switchChar cfg.terminate cfg.numClients (decimal w.handler.entered) ys
        else refParse cfg.switchChar cfg.terminate cfg.numClients w.handler.current ys := by
    intro hb ys
    rw [Handler.pending_number hm, List.cons_append, refParse_escape hh.digits (by omega) (by rwa [hlen]),
      if_neg (by simpa using hne)]
  have hcancel : ∀ (hb : w.handler.digitLen = 4 ∨ isAsciiDigit b = false)
      (_ : ¬(b = cfg.terminate ∧ decimal w.handler.entered < cfg.numClients)),
      Accepts cfg room w out b (some ({ w with handler := reset w.handler }, l)) := by
    intro hb hnot
    refine ⟨_, _, [], rfl, .reset hh.current, hq.quiet, fun ys => ?_⟩
    rw [hesc hb, if_neg hnot, Handler.pending_normal rfl]
    rfl
  unfold acceptNumber
  split
  · rename_i hb
    subst hb
    unfold commitNumber
    rw [if_neg (by omega)]
    have hp : parseClientIndex w.handler.entered = some (decimal w.handler.entered) :=
      parseClientIndex_eq hh.digits hne (by omega)
    change Accepts cfg room w out _ (match parseClientIndex w.handler.entered with
      | none => _
      | some next => _)
    rw [hp]
    simp only
    split
    · rename_i hlt
      have hturn := hq.turn hh.current (decimal w.handler.entered) rfl
      refine ⟨_, _, [], rfl, .reset hlt, hturn.load.quiet, fun ys => ?_⟩
      · rw [hesc (.inr hterm), if_pos ⟨rfl, hlt⟩, Handler.pending_normal rfl]
        rfl
    · rename_i hge
      exact hcancel (.inr hterm) fun h => hge h.2
  · rename_i hb
    split
    · rename_i hdig
      obtain ⟨h', he, hm', hc, hl, hent⟩ := pushDigit_entered (h := w.handler) (b := b) hdig.1
      rw [he]
      have hok : HandlerOk cfg.numClients h' := hh.push hdig.2 hc (hm'.trans hm) hdig.1 hl hent
      refine ⟨_, _, [], rfl, hok, ?_, fun ys => ?_⟩
      · rw [hc]
        exact hq.quiet
      · rw [Handler.pending_number hm, Handler.pending_number (hm'.trans hm), hent, hc]
        simp
    · rename_i hdig
      refine hcancel ?_ fun h => hb h.1
      by_cases h : w.handler.digitLen = 4
      · exact .inl h
      · exact .inr (by simpa using fun hd => hdig ⟨by omega, hd⟩)

theorem accepts_byte (hcap : ∀ k < cfg.numClients, Ring.Counts 32 (cfg.capacity k))
    (hterm : isAsciiDigit cfg.terminate = false)
    (hh : HandlerOk cfg.numClients w.handler)
    (hq : QueuesOk cfg w.client w.handler.current (some l) room out) :
    Accepts cfg room w out b (acceptByte cfg w l b) := by
  unfold acceptByte
  split
  · rename_i hm
    exact accepts_normal hcap hh hq hm
  · rename_i hm
    exact accepts_switched hcap hh hq hm
  · rename_i hm
    exact accepts_number hterm hh hq hm

theorem signalDriver_eq (w : World) (full : Bool) : ∃ p d,
    signalDriver w full = { w with producerSignalled := p, driverNotified := d } := by
  unfold signalDriver
  split
  · exact ⟨_, _, rfl⟩
  · exact ⟨_, _, rfl⟩

/-- The end of `rx_return` publishes what is left, and notifies. -/
theorem Inv.finish {seen : List Byte} (h : Inv cfg room w (true, seen) out) (hl : w.locals = some l)
    (full : Bool) :
    Inv cfg room (rxEnd w l full) (false, seen) out := by
  have hq := h.queues
  rw [hl] at hq
  have hcl := hq.each _ h.handler.current
  simp only [tailOf, stagedOf, if_pos] at hcl
  have hturn := hq.turn h.handler.current w.handler.current rfl
  obtain ⟨p, d, hs⟩ := signalDriver_eq (updateSharedTail w w.handler.current l) full
  unfold rxEnd
  rw [hs]
  cases ht : l.transferred with
  | true =>
    rw [ht] at hturn
    exact ⟨h.handler, hturn, h.parse, rfl⟩
  | false =>
    rw [ht] at hturn
    have hnil := hq.transferred l rfl ht
    rw [hnil] at hcl
    have hsame : (updateSharedTail w w.handler.current l).client = w.client := by
      simp only [updateSharedTail, hnil]
      rw [hcl.publish_nil, Function.update_eq_self]
    refine ⟨h.handler, ?_, h.parse, rfl⟩
    change QueuesOk cfg (updateSharedTail w w.handler.current l).client w.handler.current none room out
    rw [hsame]
    exact hturn

/-- A client's queue changes, but not its tail. -/
theorem QueuesOk.update {client : Nat → Client} {current : Nat} {locals : Option Locals}
    (h : QueuesOk cfg client current locals room out) {k : Nat} {c : Client}
      (ht : c.ring.tail = (client k).ring.tail)
    (hp : c.published = (client k).published)
    (hok : k < cfg.numClients → ∀ tail staged, ClientOk (cfg.capacity k) (client k) tail staged →
      ClientOk (cfg.capacity k) c tail staged) :
    QueuesOk cfg (Function.update client k c) current locals room out := by
  have htail : ∀ j,
    tailOf (Function.update client k c) current locals j = tailOf client current locals j := by
    intro j
    unfold tailOf
    by_cases hjk : j = k
    · subst hjk
      simp only [Function.update_self, ht]
    · simp only [Function.update_of_ne hjk]
  refine ⟨fun j hj => ?_, h.transferred, fun hr j hj => ?_⟩
  · rw [htail]
    by_cases hjk : j = k
    · subst hjk
      rw [Function.update_self]
      exact hok hj _ _ (h.each j hj)
    · rw [Function.update_of_ne hjk]
      exact h.each j hj
  · rw [h.delivered hr j hj]
    by_cases hjk : j = k
    · subst hjk
      rw [Function.update_self, hp]
    · rw [Function.update_of_ne hjk]

/-- A client takes a byte. -/
theorem QueuesOk.take (hcap : ∀ k < cfg.numClients, Ring.Counts 32 (cfg.capacity k)) {client : Nat → Client}
    {current : Nat} {locals : Option Locals} (h : QueuesOk cfg client current locals room out)
    {k : Nat} {ring : Ring 32 Byte} (hd : serialDequeue (cap cfg k) (client k).ring = some (b, ring)) :
    QueuesOk cfg (Function.update client k { client k with ring := ring, taken := (client k).taken ++ [b] })
      current locals room out := by
  unfold serialDequeue at hd
  split at hd
  · exact nomatch hd
  rename_i hne
  obtain ⟨rfl, rfl⟩ := Prod.mk.inj (Option.some.inj hd)
  have hpos : 0 < (client k).ring.len := by
    rw [RingWord.isEmpty_iff] at hne
    omega
  refine h.update rfl rfl fun hk tail staged hok => ?_
  rw [RingWord.index_toNat, cap, capacity_toNat (hcap k hk)]
  exact hok.take (hcap k hk) hpos

theorem Inv.mono {heard : Bool × List Byte} {room' : Prop} (h : Inv cfg room w heard out)
    (himp : room' → room) :
    Inv cfg room' w heard out :=
  ⟨h.handler, h.queues.mono himp, h.parse, h.busy⟩

theorem inv_step (hcap : ∀ k < cfg.numClients, Ring.Counts 32 (cfg.capacity k))
    (hterm : isAsciiDigit cfg.terminate = false) {p : Bool × List Byte} (h : Inv cfg room w p out)
      (i : Input) :
    ∃ w' out', step cfg w i = some w' ∧ Inv cfg (room ∧ KeptUp cfg w'.client out') w' (heard p i) out' := by
  obtain ⟨busy, seen⟩ := p
  obtain rfl : busy = w.locals.isSome := h.busy
  have hsame : Inv cfg (room ∧ KeptUp cfg w.client out) w (w.locals.isSome, seen) out := h.mono And.left
  cases i with
  | notified driver =>
    unfold step
    cases hl : w.locals with
    | some l =>
      rw [hl] at hsame
      exact ⟨w, out, rfl, hsame⟩
    | none =>
      rw [hl] at hsame
      cases driver with
      | false => exact ⟨w, out, rfl, hsame⟩
      | true =>
        have hq := hsame.queues
        rw [hl] at hq
        exact ⟨_, out, rfl, h.handler, hq.load, h.parse, rfl⟩
  | byte b =>
    cases hl : w.locals with
    | none =>
      rw [hl] at hsame
      exact ⟨w, out, by simp only [step, hl], hsame⟩
    | some l =>
      have hq := h.queues
      rw [hl] at hq
      obtain ⟨w', l', out', he, hh', hq', hparse⟩ := accepts_byte (b := b) hcap hterm h.handler hq
      have hstep : step cfg w (.byte b) = some { w' with locals := some l' } := by
        simp only [step]
        split
        · rename_i hnone
          rw [hl] at hnone
          cases hnone
        · rename_i l1 hsome
          obtain rfl : l = l1 := Option.some.inj (hl.symm.trans hsome)
          rw [he]
          rfl
      exact ⟨_, out ++ out', hstep, hh', hq', h.parse.byte hparse, rfl⟩
  | empty full =>
    unfold step
    cases hl : w.locals with
    | none =>
      rw [hl] at hsame
      exact ⟨w, out, rfl, hsame⟩
    | some l =>
      rw [hl] at h
      exact ⟨_, out, rfl, (h.finish hl full).mono And.left⟩
  | request =>
    refine ⟨_, out, rfl, h.handler, hsame.queues, ?_, ?_⟩
    · cases w.locals <;> exact h.parse
    · cases w.locals <;> rfl
  | take k =>
    have hheard : heard (w.locals.isSome, seen) (.take k) = (w.locals.isSome, seen) := by
      cases w.locals <;> rfl
    rw [hheard]
    cases hd : serialDequeue (cap cfg k) (w.client k).ring with
    | none => exact ⟨w, out, by simp only [step, hd], hsame⟩
    | some x =>
      obtain ⟨b, ring⟩ := x
      refine ⟨{ w with client :=
        Function.update w.client k { w.client k with ring := ring, taken := (w.client k).taken ++
          [b] } }, out, ?_, ?_⟩
      · simp only [step, hd]
      · exact ⟨h.handler, (h.queues.take hcap hd).mono And.left, h.parse, rfl⟩

theorem run_append (is js : List Input) (w : World) : run cfg w (is ++ js) =
    (run cfg w is).bind fun w => run cfg w js := by
  induction is generalizing w with
  | nil => rfl
  | cons i is ih =>
    rw [List.cons_append, run, run, Option.bind_assoc]
    exact congrArg _ (funext ih)

theorem inv_boot (hn : 1 ≤ cfg.numClients) : Inv cfg room boot (false, []) [] where
  handler := ⟨hn, Nat.zero_le _, fun _ => rfl, nofun, by simp [Handler.entered, boot]⟩
  queues := by
    refine ⟨fun k _ => ⟨?_, ?_, rfl, ?_, fun _ => ⟨?_, ?_⟩⟩, nofun, fun _ _ _ => rfl⟩
    · simp [boot, tailOf, stagedOf, Ring.len]
    · simp [boot, tailOf, Ring.len]
    · simp [boot, Ring.len]
    · simp [boot, Ring.contents, Ring.len]
    · simp [boot, tailOf, stagedOf, Ring.contents, Ring.len]
  parse ys := by
    change refParse _ _ _ 0 ys = [] ++ refParse _ _ _ 0 ys
    rw [List.nil_append]
  busy := rfl

theorem Inv.parse_seen {p : Bool × List Byte} (h : Inv cfg room w p out) :
    refParse cfg.switchChar cfg.terminate cfg.numClients 0 p.2 = out := by
  have := h.parse []
  rw [List.append_nil, List.append_nil] at this
  have h4 := h.handler.digitLen
  have hnil : refParse cfg.switchChar cfg.terminate cfg.numClients w.handler.current
      (w.handler.pending cfg.switchChar) = [] := by
    cases hm : w.handler.mode with
    | normal =>
      rw [Handler.pending_normal hm, refParse]
    | switched =>
      rw [Handler.pending_switched hm]
      exact @refParse_pending _ _ _ _ [] nofun (by simp)
    | number =>
      rw [Handler.pending_number hm]
      exact refParse_pending h.handler.digits (by rw [h.handler.entered_length]; exact h4)
  rw [this, hnil, List.append_nil]

/-- The clients keep up with the stream: at no point is one owed more bytes of its parse than its
queue holds. -/
def KeepUp (cfg : Config) (is : List Input) : Prop :=
  ∀ pre w, pre <+: is → run cfg boot pre = some w →
    KeptUp cfg w.client (refParse cfg.switchChar cfg.terminate cfg.numClients 0 (stream pre))

theorem inv_run (hn : 1 ≤ cfg.numClients) (hcap : ∀ k < cfg.numClients, Ring.Counts 32 (cfg.capacity k))
    (hterm : isAsciiDigit cfg.terminate = false) (is : List Input) :
    ∃ w out, run cfg boot is = some w ∧ Inv cfg (KeepUp cfg is) w (is.foldl heard (false, [])) out := by
  induction is using List.reverseRecOn with
  | nil => exact ⟨boot, [], rfl, inv_boot hn⟩
  | append_singleton is i ih =>
    obtain ⟨w, out, hrun, h⟩ := ih
    obtain ⟨w', out', hstep, h'⟩ := inv_step hcap hterm h i
    have hrun' : run cfg boot (is ++ [i]) = some w' := by
      rw [run_append, hrun, Option.bind_some, run, hstep]
      rfl
    have hheard : (is ++ [i]).foldl heard (false, []) = heard (is.foldl heard (false, [])) i :=
      List.foldl_concat ..
    rw [← hheard] at h'
    refine ⟨w', out', hrun', h'.mono fun hkeep =>
      ⟨fun pre w hpre => hkeep pre w (hpre.trans (List.prefix_append is [i])), ?_⟩⟩
    have hkept := hkeep _ w' (List.prefix_refl _) hrun'
    rwa [stream, h'.parse_seen] at hkept

end steps

/-- Whatever comes in, in whatever portions, the virtualiser does not panic, its digits stay in
bounds and its current client is one it has. As long as the clients keep up with the stream, what it
has accepted for each client is what the parse of the whole stream gives that client, and after each
run of its handler all of it is published, was notified, and is in the client's queue or taken from
it, in order. -/
theorem receive_demux {cfg : Config} (hn : 1 ≤ cfg.numClients)
    (hcap : ∀ k < cfg.numClients, 0 < cfg.capacity k ∧ cfg.capacity k < 2 ^ 32)
    (hterm : isAsciiDigit cfg.terminate = false) (is : List Input) :
    ∃ w, run cfg boot is = some w ∧
      w.handler.digitLen ≤ 4 ∧ (w.handler.mode ≠ .number → w.handler.digitLen = 0) ∧
      w.handler.current < cfg.numClients ∧
      (KeepUp cfg is → ∀ k < cfg.numClients,
        (w.client k).published ++ stagedOf w.handler.current w.locals k =
          own k (refParse cfg.switchChar cfg.terminate cfg.numClients 0 (stream is)) ∧
        (w.locals = none →
          (w.client k).published = own k (refParse cfg.switchChar cfg.terminate cfg.numClients 0
            (stream is)) ∧
          (w.client k).told = (w.client k).published)) ∧
      ∀ k < cfg.numClients, cfg.capacity k ∣ 2 ^ 32 →
        (w.client k).taken ++ (w.client k).ring.contents (cfg.capacity k) = (w.client k).published := by
  obtain ⟨w, out, hrun, h⟩ := inv_run hn (fun k hk => ⟨(hcap k hk).1, (hcap k hk).2⟩) hterm is
  refine ⟨w, hrun, h.handler.digitLen, h.handler.quiet, h.handler.current, fun hkeep k hk => ?_,
    fun k hk hdvd => ?_⟩
  · have hd := h.queues.delivered hkeep k hk
    rw [stream, h.parse_seen]
    refine ⟨hd.symm, fun hl => ⟨?_, (h.queues.each k hk).told⟩⟩
    rw [hd, hl]
    exact (List.append_nil _).symm
  · exact ((h.queues.each k hk).contents ⟨⟨(hcap k hk).1, (hcap k hk).2⟩, hdvd⟩).1

/-- Two clients with two places each; `@` switches and `.` ends a number. -/
def twoClients : Config := ⟨2, fun _ => 2, 64, 46⟩

/-- `ab`, of which the client takes one byte, and `@1.` split over two notifications, then `c`; the
client of `ab` is not served again. -/
def split : List Input :=
  [.notified true, .byte 97, .byte 98, .byte 64, .empty false, .take 0, .notified true, .byte 49,
    .empty false,
    .notified true, .byte 46, .byte 99, .empty false]

/-- The prefixes of a list. -/
theorem keepUp_of_inits {cfg : Config} {is : List Input}
    (h : ∀ pre ∈ is.inits, (run cfg boot pre).all fun w => (List.range cfg.numClients).all fun k =>
      (own k (refParse cfg.switchChar cfg.terminate cfg.numClients 0 (stream pre))).length ≤
        (w.client k).taken.length + cfg.capacity k) : KeepUp cfg is := by
  intro pre w hpre hrun k hk
  have hall := h pre ((List.mem_inits pre is).mpr hpre)
  rw [hrun, Option.all_some] at hall
  exact of_decide_eq_true (List.all_eq_true.mp hall k (List.mem_range.mpr hk))

theorem receive_demux_split : ∃ w, run twoClients boot split = some w ∧ KeepUp twoClients split ∧
    w.locals = none ∧
    stream split = [97, 98, 64, 49, 46, 99] ∧ (w.client 0).published = [97, 98] ∧
      (w.client 0).taken = [97] ∧
    (w.client 1).published = [99] ∧ (w.client 1).ring.contents 2 = [99] := by
  have hcap : ∀ k < twoClients.numClients, 0 < twoClients.capacity k ∧ twoClients.capacity k < 2 ^ 32 :=
    fun _ _ => ⟨by simp [twoClients], by simp [twoClients]⟩
  obtain ⟨w, hw, -, -, -, h, hcontents⟩ := @receive_demux twoClients (by decide) hcap rfl split
  have hkeep : KeepUp twoClients split := keepUp_of_inits (by decide +kernel)
  have hrun : (run twoClients boot split).map
    (fun w => (w.locals.isNone, (w.client 0).taken, (w.client 1).taken)) =
      some (true, [97], []) := by
    decide +kernel
  have hown : own 0 (refParse 64 46 2 0 (stream split)) = [97, 98] ∧
    own 1 (refParse 64 46 2 0 (stream split)) = [99] := by
    decide +kernel
  rw [hw] at hrun
  simp only [Option.map_some, Option.some.injEq, Prod.mk.injEq, Option.isNone_iff_eq_none] at hrun
  obtain ⟨hl, ht0, ht1⟩ := hrun
  have h0 := ((h hkeep 0 (by decide)).2 hl).1
  have h1 := ((h hkeep 1 (by decide)).2 hl).1
  have hc := hcontents 1 (by decide) (by simp [twoClients])
  rw [ht1, List.nil_append, h1] at hc
  exact ⟨w, hw, hkeep, hl, rfl, h0.trans hown.1, ht0, h1.trans hown.2, hc.trans hown.2⟩

end Lerux.Serial.Receive
