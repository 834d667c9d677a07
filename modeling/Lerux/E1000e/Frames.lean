import Lerux.E1000e.Rings

/-!
# Every frame once, in order

The transmit descriptors between the oldest one that the driver has not seen done and the next one
that it will write are those of the frames accepted last; those from the card's head on name the
frames that the card has still to send (`TxInv`). The receive descriptors from the next one that the
driver will read up to the card's head hold the frames received last, and all others are empty
(`RxInv`). The counts behind the indices differ by 31 at most, so that two of them with one index
are equal.

`Outline` has where the driver stands in a call (`Stage`), whether the card has sent the frame at
its head and not said so yet, and the frame that it has stored and not announced yet.
-/

namespace Lerux.E1000e

open Lerux.Base

/-- What a received frame is for the client: nothing if it has an error, or no byte but a checksum. -/
def payload (crc : Bool) (frame : RxFrame) : Option (List UInt8) :=
  if frame.errors ≠ 0 then none
  else
    let len := if crc then frame.raw.length - 4 else frame.raw.length
    if len = 0 then none else some (frame.raw.take len)

/-! ### Buffers -/

/-- The buffer of a ring holds the data. -/
def Holds (bytes : Nat → UInt8) (baseOff k : Nat) (data : List UInt8) : Prop :=
  data.length ≤ bufSize ∧ readAt bytes (bufPtr baseOff (k % ringLen)) data.length = data

theorem nextIndex_mod (k : Nat) : nextIndex (k % ringLen) = (k + 1) % ringLen := by
  have hmask : nextIndex (k % ringLen) = (k % ringLen + 1) % 2 ^ 5 := Nat.and_two_pow_sub_one_eq_mod _ 5
  rw [hmask]
  unfold ringLen
  omega

section buffers

variable {bytes : Nat → UInt8} {data data' : List UInt8} {k k' : Nat}

theorem bufPhys_sub (dmaPaddr baseOff index : Nat) : bufPhys dmaPaddr baseOff index - dmaPaddr =
    bufPtr baseOff index := by
  unfold bufPhys bufPtr
  omega

/-- What is written into a buffer is in it. -/
theorem holds_writeAt (baseOff : Nat) (h : data.length ≤ bufSize) :
    Holds (writeAt bytes (bufPtr baseOff (k % ringLen)) data) baseOff k data :=
  ⟨h, readAt_writeAt⟩

/-- The other buffers of the ring keep theirs. -/
theorem Holds.other {baseOff : Nat} (h : Holds bytes baseOff k data) (hne : k % ringLen ≠ k' % ringLen)
    (hlen : data'.length ≤ bufSize) : Holds
      (writeAt bytes (bufPtr baseOff (k' % ringLen)) data') baseOff k data := by
  refine ⟨h.1, ?_⟩
  rw [readAt_writeAt_of_disjoint, h.2]
  have hdata := h.1
  unfold bufPtr bufSize at *
  rcases Nat.lt_or_gt_of_ne hne with hlt | hlt
  · left
    omega
  · right
    omega

/-- And so do the buffers of the other ring. -/
theorem Holds.tx (h : Holds bytes txBufs k data) :
    Holds (writeAt bytes (bufPtr rxBufs (k' % ringLen)) data') txBufs k data := by
  refine ⟨h.1, ?_⟩
  rw [readAt_writeAt_of_disjoint, h.2]
  have hdata := h.1
  have hk : k % ringLen < ringLen := Nat.mod_lt k (by decide)
  unfold bufPtr bufSize txBufs rxBufs ringLen at *
  left
  omega

theorem Holds.rx (h : Holds bytes rxBufs k data) (hlen : data'.length ≤ bufSize) :
    Holds (writeAt bytes (bufPtr txBufs (k' % ringLen)) data') rxBufs k data := by
  refine ⟨h.1, ?_⟩
  rw [readAt_writeAt_of_disjoint, h.2]
  have hk : k' % ringLen < ringLen := Nat.mod_lt k' (by decide)
  unfold bufPtr bufSize txBufs rxBufs ringLen at *
  right
  omega

end buffers

/-! ### The invariant -/

/-- Where the driver stands in `submit_tx`, from where the frame is accepted on. -/
inductive TxStage
  | idle
  | accepted (frame : List UInt8)
  | filled (frame : List UInt8)
  | described (frame : List UInt8)

/-- The frame that is accepted and not handed to the card. -/
def TxStage.frame? : TxStage → Option (List UInt8)
  | idle => none
  | accepted frame => some frame
  | filled frame => some frame
  | described frame => some frame

/-- Where the driver stands in `copy_rx`, from where it has found a frame on. -/
inductive RxStage
  | idle
  | found (frame : RxFrame)
  | settled
  | cleared

/-- The frames that are copied or skipped and whose buffers are not handed back. -/
def RxStage.settles : RxStage → Nat
  | settled => 1
  | cleared => 1
  | _ => 0

/-- The descriptors that are emptied and not handed back. -/
def RxStage.clears : RxStage → Nat
  | cleared => 1
  | _ => 0

/-- The counts behind the transmit indices of the engine. -/
structure TxAt where
  stage : TxStage
  rung : Nat
  cleaned : Nat

/-- The count behind the receive index, and the frame that `copy_rx` is about to return. -/
structure RxAt where
  stage : RxStage
  handed : Nat
  hand : Option (List UInt8)

structure TxInv (dmaPaddr : Nat) (g : TxAt) (sending : Bool) (m : Mem) : Prop where
  rung : m.rung = g.rung
  tdt : m.tdt = g.rung % ringLen
  tdh : m.tdh = m.done % ringLen
  cleaned : g.cleaned ≤ m.done
  done : m.done + sending.toNat ≤ g.rung
  room : g.rung ≤ g.cleaned + ringMask
  length : m.accepted.length = g.rung + g.stage.frame?.toList.length
  hand : ∀ frame, g.stage.frame? = some frame →
    m.accepted[g.rung]? = some frame ∧ g.rung < g.cleaned + ringMask ∧ frame.length ≤ bufSize
  filled : ∀ frame, g.stage = .filled frame ∨ g.stage = .described frame → Holds m.bytes txBufs g.rung frame
  described : ∀ frame, g.stage = .described frame →
    m.txRing (g.rung % ringLen) = filledTx dmaPaddr (g.rung % ringLen) frame
  flight : ∀ k, m.done ≤ k → k < g.rung → ∃ frame, m.accepted[k]? = some frame ∧
    m.txRing (k % ringLen) = filledTx dmaPaddr (k % ringLen) frame ∧ Holds m.bytes txBufs k frame
  sent : m.sent = m.accepted.take (m.done + sending.toNat)

structure RxInv (dmaPaddr : Nat) (crc : Bool) (g : RxAt) (landed : Option RxFrame) (m : Mem) : Prop where
  handed : m.handed = g.handed
  rdt : m.rdt = (g.handed + ringMask) % ringLen
  rdh : m.rdh = m.received.length % ringLen
  le : g.handed + g.stage.settles ≤ m.received.length
  room : m.received.length + landed.toList.length ≤ g.handed + ringMask
  found : ∀ frame, g.stage = .found frame → m.received[g.handed]? = some frame
  full : ∀ k frame, g.handed + g.stage.clears ≤ k → m.received[k]? = some frame →
    m.rxRing (k % ringLen) = filledRx (bufPhys dmaPaddr rxBufs (k % ringLen)) frame ∧
      Holds m.bytes rxBufs k frame.raw
  free : ∀ k, g.handed ≤ k → k < g.handed + ringLen → k < g.handed + g.stage.clears ∨
    m.received.length ≤ k →
    m.rxRing (k % ringLen) = emptyRx dmaPaddr (k % ringLen)
  landed : ∀ frame, landed = some frame → Holds m.bytes rxBufs m.received.length frame.raw
  copied : m.copied = (m.received.take (g.handed + g.stage.settles)).filterMap (payload crc)
  returned : m.copied = m.returned ++ g.hand.toList

/-! ### Transmission -/

section transmission

variable {dmaPaddr rung cleaned : Nat} {sending : Bool} {m : Mem} {frame : List UInt8} {stage : TxStage}

/-- A descriptor that is seen done is one that the card has done. -/
theorem TxInv.done_of_dd (h : TxInv dmaPaddr ⟨stage, rung, cleaned⟩ sending m)
    (hne : cleaned % ringLen ≠ rung % ringLen)
    (hdd : (m.txRing (cleaned % ringLen)).status &&& txDd ≠ 0) : cleaned < m.done := by
  have hroom := h.room
  have hcleaned := h.cleaned
  have hdone := h.done
  dsimp only at hroom hcleaned hdone
  by_contra hnot
  have heq : m.done = cleaned := by omega
  have hlt : cleaned < rung := by
    rcases Nat.lt_or_ge cleaned rung with hlt | hge
    · exact hlt
    · exact absurd (by rw [show cleaned = rung by omega]) hne
  obtain ⟨frame, -, hdesc, -⟩ := h.flight cleaned (by omega) hlt
  rw [hdesc] at hdd
  exact hdd (by decide : (0 : UInt8) &&& txDd = 0)

theorem TxInv.clean (h : TxInv dmaPaddr ⟨.idle, rung, cleaned⟩ sending m) (hlt : cleaned < m.done) :
    TxInv dmaPaddr ⟨.idle, rung, cleaned + 1⟩ sending m :=
  { h with
    cleaned := hlt
    room := Nat.le_trans h.room (Nat.add_le_add_right (Nat.le_succ cleaned) _)
    hand := fun _ hframe => absurd hframe (by simp [TxStage.frame?]) }

theorem TxInv.accept (h : TxInv dmaPaddr ⟨.idle, rung, cleaned⟩ sending m)
    (hfull : (rung + 1) % ringLen ≠ cleaned % ringLen)
    (hlen : frame.length ≤ bufSize) :
    TxInv dmaPaddr ⟨.accepted frame, rung, cleaned⟩ sending { m with accepted := m.accepted ++
      [frame] } := by
  have hlength : m.accepted.length = rung := h.length
  have hdone := h.done
  have hroom := h.room
  dsimp only at hdone hroom
  refine { h with length := ?_, hand := ?_, filled := ?_, described := ?_, flight := ?_, sent := ?_ }
  · simp [hlength, TxStage.frame?]
  · rintro f hf
    cases hf
    have hlt : rung < cleaned + ringMask := by
      unfold ringMask ringLen at *
      omega
    exact ⟨by simp [← hlength], hlt, hlen⟩
  · simp
  · simp
  · intro k hk hlt
    obtain ⟨f, hf, hdesc, hholds⟩ := h.flight k hk hlt
    have hk : k < m.accepted.length := by
      rw [hlength]
      exact hlt
    exact ⟨f, by rw [List.getElem?_append_left hk]; exact hf, hdesc, hholds⟩
  · have hle : m.done + sending.toNat ≤ m.accepted.length := by
      rw [hlength]
      exact hdone
    exact h.sent.trans (List.take_append_of_le_length hle).symm

theorem TxInv.fill (h : TxInv dmaPaddr ⟨.accepted frame, rung, cleaned⟩ sending m) :
    TxInv dmaPaddr ⟨.filled frame, rung, cleaned⟩ sending
      { m with bytes := writeAt m.bytes (bufPtr txBufs (rung % ringLen)) frame } := by
  obtain ⟨-, hroom, hlen⟩ := h.hand frame rfl
  have hcleaned := h.cleaned
  dsimp only at hroom hcleaned
  refine { h with hand := h.hand, filled := ?_, described := ?_, flight := ?_ }
  · rintro f (hf | hf)
    · cases hf
      exact holds_writeAt txBufs hlen
    · cases hf
  · rintro f hf
    cases hf
  · intro k hk hlt
    obtain ⟨f, hf, hdesc, hholds⟩ := h.flight k hk hlt
    have hne : k % ringLen ≠ rung % ringLen := by
      dsimp only at hlt hk
      unfold ringMask ringLen at *
      omega
    exact ⟨f, hf, hdesc, hholds.other hne hlen⟩

theorem TxInv.describe (h : TxInv dmaPaddr ⟨.filled frame, rung, cleaned⟩ sending m) :
    TxInv dmaPaddr ⟨.described frame, rung, cleaned⟩ sending
      { m with txRing := Function.update m.txRing (rung % ringLen) (filledTx dmaPaddr (rung % ringLen) frame) } := by
  obtain ⟨-, hroom, hlen⟩ := h.hand frame rfl
  have hcleaned := h.cleaned
  dsimp only at hroom hcleaned
  refine { h with hand := h.hand, filled := ?_, described := ?_, flight := ?_ }
  · rintro f (hf | hf)
    · cases hf
    · cases hf
      exact h.filled frame (Or.inl rfl)
  · rintro f hf
    cases hf
    exact Function.update_self _ _ _
  · intro k hk hlt
    obtain ⟨f, hf, hdesc, hholds⟩ := h.flight k hk hlt
    have hne : k % ringLen ≠ rung % ringLen := by
      dsimp only at hlt hk
      unfold ringMask ringLen at *
      omega
    exact ⟨f, hf, (Function.update_of_ne hne _ _).trans hdesc, hholds⟩

theorem TxInv.ring (h : TxInv dmaPaddr ⟨.described frame, rung, cleaned⟩ sending m) :
    TxInv dmaPaddr ⟨.idle, rung + 1, cleaned⟩ sending
      { m with tdt := (rung + 1) % ringLen, rung := m.rung + 1 } := by
  obtain ⟨haccepted, hroom, hlen⟩ := h.hand frame rfl
  refine { h with rung := ?_, tdt := rfl, done := ?_, room := ?_, length := ?_, hand := ?_, filled := ?_, described := ?_, flight := ?_ }
  · exact congrArg (· + 1) h.rung
  · exact Nat.le_succ_of_le h.done
  · exact Nat.succ_le_of_lt (Nat.lt_of_lt_of_le hroom (Nat.le_refl _))
  · exact h.length
  · rintro f hf
    cases hf
  · rintro f (hf | hf)
    · cases hf
    · cases hf
  · rintro f hf
    cases hf
  · intro k hk hlt
    rcases Nat.lt_succ_iff_lt_or_eq.mp hlt with hlt | rfl
    · exact h.flight k hk hlt
    · exact ⟨frame, haccepted, h.described frame rfl, h.filled frame (Or.inr rfl)⟩

theorem TxInv.send (h : TxInv dmaPaddr ⟨stage, rung, cleaned⟩ false m) (hne : m.tdh ≠ m.tdt) :
    TxInv dmaPaddr ⟨stage, rung, cleaned⟩ true
      { m with sent := m.sent ++ [readAt m.bytes ((m.txRing m.tdh).addr - dmaPaddr)
        (m.txRing m.tdh).length] } := by
  have hdone : m.done ≤ rung := h.done
  have hlt : m.done < rung := by
    rcases Nat.lt_or_ge m.done rung with hlt | hge
    · exact hlt
    · exact absurd (by rw [h.tdh, h.tdt, Nat.le_antisymm hdone hge]) hne
  obtain ⟨f, hf, hdesc, hholds⟩ := h.flight m.done (Nat.le_refl _) hlt
  refine { h with done := hlt, sent := ?_ }
  have hsent : m.sent = m.accepted.take m.done := h.sent
  rw [h.tdh, hdesc]
  change m.sent ++ [readAt m.bytes (bufPhys dmaPaddr txBufs (m.done % ringLen) - dmaPaddr) f.length] = _
  rw [bufPhys_sub, hholds.2, hsent]
  change _ = m.accepted.take (m.done + 1)
  rw [List.take_add_one, hf]
  rfl

theorem TxInv.setDone (h : TxInv dmaPaddr ⟨stage, rung, cleaned⟩ true m) :
    TxInv dmaPaddr ⟨stage, rung, cleaned⟩ false
      { m with
        txRing := Function.update m.txRing m.tdh { m.txRing m.tdh with status :=
          (m.txRing m.tdh).status ||| txDd }
        tdh := (m.tdh + 1) % ringLen
        done := m.done + 1 } := by
  have hlt : m.done < rung := h.done
  have hcleaned := h.cleaned
  have hroom := h.room
  dsimp only at hcleaned hroom
  refine { h with tdh := ?_, cleaned := ?_, done := hlt, described := ?_, flight := ?_ }
  · rw [h.tdh, Nat.mod_add_mod]
  · exact Nat.le_succ_of_le hcleaned
  · intro f hf
    have hhand := (h.hand f (by change stage.frame? = _; rw [show stage = .described f from hf]; rfl)).2.1
    have hne : rung % ringLen ≠ m.tdh := by
      rw [h.tdh]
      dsimp only at hhand
      unfold ringMask ringLen at *
      omega
    exact (Function.update_of_ne hne _ _).trans (h.described f hf)
  · intro k hk hk'
    obtain ⟨f, hf, hdesc, hholds⟩ := h.flight k (Nat.le_of_succ_le hk) hk'
    have hne : k % ringLen ≠ m.tdh := by
      rw [h.tdh]
      dsimp only at hk hk'
      unfold ringMask ringLen at *
      omega
    exact ⟨f, hf, (Function.update_of_ne hne _ _).trans hdesc, hholds⟩

/-- The card writes into a receive buffer. -/
theorem TxInv.land (h : TxInv dmaPaddr ⟨stage, rung, cleaned⟩ sending m) (k : Nat) (data : List UInt8) :
    TxInv dmaPaddr ⟨stage, rung, cleaned⟩ sending
      { m with bytes := writeAt m.bytes (bufPtr rxBufs (k % ringLen)) data } := by
  refine { h with filled := fun f hf => (h.filled f hf).tx, flight := ?_ }
  intro k' hk hlt
  obtain ⟨f, hf, hdesc, hholds⟩ := h.flight k' hk hlt
  exact ⟨f, hf, hdesc, hholds.tx⟩

end transmission

/-! ### Reception -/

section reception

variable {dmaPaddr handed : Nat} {crc : Bool} {m : Mem} {landed : Option RxFrame} {frame : RxFrame}
  {stage : RxStage}
  {hand : Option (List UInt8)} {e : Engine}

theorem frameLen_eq (raw : Nat) (he : e.crcInLength = crc) :
    frameLen e raw = if (if crc then raw - 4 else raw) = 0 then none
      else some (if crc then raw - 4 else raw) := by
  unfold frameLen
  subst he
  cases e.crcInLength with
  | false => rfl
  | true =>
    simp only [if_true]
    split
    · rw [if_pos (by omega)]
    · rfl

/-- The source's checks of a filled descriptor, for a buffer of the card's size. -/
theorem publishable_filledRx (addr : Nat) (he : e.crcInLength = crc) (hlen : frame.raw.length ≤ bufSize) :
    (publishable e (filledRx addr frame) bufSize = none ∧ payload crc frame = none) ∨
      ∃ len, publishable e (filledRx addr frame) bufSize = some len ∧
        payload crc frame = some (frame.raw.take len) ∧
        len ≤ frame.raw.length := by
  have heop : ¬(rxDd ||| rxEop) &&& rxEop = 0 := by decide
  have hle : (if crc then frame.raw.length - 4 else frame.raw.length) ≤ frame.raw.length := by
    split
    · exact Nat.sub_le _ _
    · exact Nat.le_refl _
  unfold publishable payload filledRx
  dsimp only
  rw [frameLen_eq _ he]
  generalize (if crc then frame.raw.length - 4 else frame.raw.length) = len at hle
  by_cases herr : frame.errors = 0
  · have hchecked : ¬((rxDd ||| rxEop) &&& rxEop = 0 ∨ frame.errors ≠ 0) := by
      rintro (h | h)
      · exact heop h
      · exact h herr
    rw [if_neg hchecked, if_neg (not_not.mpr herr)]
    by_cases hnil : len = 0
    · rw [if_pos hnil, if_pos hnil]
      exact Or.inl ⟨rfl, rfl⟩
    · rw [if_neg hnil, if_neg hnil, Option.bind_eq_bind, Option.bind_some, if_neg (by omega)]
      exact Or.inr ⟨len, rfl, rfl, hle⟩
  · rw [if_pos (Or.inr herr), if_pos herr]
    exact Or.inl ⟨rfl, rfl⟩

/-- A descriptor that is seen filled is that of the next frame, and one that is not comes behind all
frames. -/
theorem RxInv.read (h : RxInv dmaPaddr crc ⟨.idle, handed, hand⟩ landed m) :
    (m.rxRing (handed % ringLen)).status &&& rxDd = 0 ∧ m.received.length = handed ∨
      (m.rxRing (handed % ringLen)).status &&& rxDd ≠ 0 ∧ ∃ frame, m.received[handed]? = some frame ∧
        m.rxRing (handed % ringLen) = filledRx (bufPhys dmaPaddr rxBufs (handed % ringLen)) frame ∧
        Holds m.bytes rxBufs handed frame.raw := by
  have hle : handed ≤ m.received.length := h.le
  rcases Nat.lt_or_eq_of_le hle with hlt | heq
  · right
    obtain ⟨hdesc, hholds⟩ := h.full handed m.received[handed] (Nat.le_refl _)
      (List.getElem?_eq_getElem hlt)
    refine ⟨?_, m.received[handed], List.getElem?_eq_getElem hlt, hdesc, hholds⟩
    rw [hdesc]
    exact (by decide : (rxDd ||| rxEop) &&& rxDd ≠ 0)
  · left
    have hempty := h.free handed (Nat.le_refl _) (Nat.lt_add_of_pos_right (by decide))
      (Or.inr (Nat.le_of_eq heq.symm))
    refine ⟨?_, heq.symm⟩
    rw [hempty]
    exact (by decide : (0 : UInt8) &&& rxDd = 0)

theorem RxInv.find (h : RxInv dmaPaddr crc ⟨.idle, handed, hand⟩ landed m)
    (hframe : m.received[handed]? = some frame) :
    RxInv dmaPaddr crc ⟨.found frame, handed, hand⟩ landed m := by
  refine { h with found := ?_ }
  rintro f hf
  cases hf
  exact hframe

theorem filterMap_take_succ {frames : List RxFrame} {k : Nat} (h : frames[k]? = some frame) :
    (frames.take (k + 1)).filterMap (payload crc) =
      (frames.take k).filterMap (payload crc) ++ (payload crc frame).toList := by
  rw [List.take_add_one, h, List.filterMap_append]
  cases hp : payload crc frame with
  | none => simp [hp]
  | some data => simp [hp]

theorem lt_of_getElem?_eq_some {frames : List RxFrame} {k : Nat} (h : frames[k]? = some frame) :
    k < frames.length :=
  (List.getElem?_eq_some_iff.mp h).1

/-- A frame that is no frame for the client is skipped. -/
theorem RxInv.skip (h : RxInv dmaPaddr crc ⟨.idle, handed, hand⟩ landed m)
    (hframe : m.received[handed]? = some frame)
    (hnone : payload crc frame = none) : RxInv dmaPaddr crc ⟨.settled, handed, hand⟩ landed m := by
  refine { h with le := lt_of_getElem?_eq_some hframe, found := ?_, copied := ?_ }
  · rintro f hf
    cases hf
  · have hcopied : m.copied = (m.received.take handed).filterMap (payload crc) := h.copied
    change _ = (m.received.take (handed + 1)).filterMap (payload crc)
    rw [filterMap_take_succ hframe, hnone, hcopied]
    simp

theorem RxInv.copy (h : RxInv dmaPaddr crc ⟨.found frame, handed, none⟩ landed m) {len : Nat}
    (hpayload : payload crc frame = some (frame.raw.take len)) (hlen : len ≤ frame.raw.length) :
    readAt m.bytes (bufPtr rxBufs (handed % ringLen)) len = frame.raw.take len ∧
    RxInv dmaPaddr crc ⟨.settled, handed, some (frame.raw.take len)⟩ landed
      { m with copied := m.copied ++ [readAt m.bytes (bufPtr rxBufs (handed % ringLen)) len] } := by
  have hframe := h.found frame rfl
  obtain ⟨-, hholds⟩ := h.full handed frame (Nat.le_refl _) hframe
  have hread : readAt m.bytes (bufPtr rxBufs (handed % ringLen)) len = frame.raw.take len := by
    rw [readAt_take hlen, hholds.2]
  refine ⟨hread, { h with le := lt_of_getElem?_eq_some hframe, found := ?_, copied := ?_, returned := ?_ }⟩
  · rintro f hf
    cases hf
  · have hcopied : m.copied = (m.received.take handed).filterMap (payload crc) := h.copied
    change m.copied ++ [_] = (m.received.take (handed + 1)).filterMap (payload crc)
    rw [filterMap_take_succ hframe, hpayload, hcopied, hread]
    rfl
  · have hreturned : m.copied = m.returned ++ [] := h.returned
    change m.copied ++ [_] = m.returned ++ [_]
    rw [hread, hreturned, List.append_nil]

theorem RxInv.clear (h : RxInv dmaPaddr crc ⟨.settled, handed, hand⟩ landed m) :
    RxInv dmaPaddr crc ⟨.cleared, handed, hand⟩ landed
      { m with rxRing := Function.update m.rxRing (handed % ringLen) (emptyRx dmaPaddr (handed % ringLen)) } := by
  have hle : handed + 1 ≤ m.received.length := h.le
  have hroom : m.received.length + landed.toList.length ≤ handed + ringMask := h.room
  refine { h with found := ?_, full := ?_, free := ?_ }
  · rintro f hf
    cases hf
  · intro k f hk hf
    have hlt := lt_of_getElem?_eq_some hf
    have hk' : handed + 1 ≤ k := hk
    have hne : k % ringLen ≠ handed % ringLen := by
      dsimp only at hlt
      unfold ringMask ringLen at *
      omega
    obtain ⟨hdesc, hholds⟩ := h.full k f (Nat.le_of_succ_le hk') hf
    exact ⟨(Function.update_of_ne hne _ _).trans hdesc, hholds⟩
  · intro k hk hlt hfree
    by_cases hne : k % ringLen = handed % ringLen
    · change Function.update m.rxRing _ _ _ = _
      rw [hne, Function.update_self]
    · refine (Function.update_of_ne hne _ _).trans (h.free k hk hlt (hfree.imp_left fun hk' => ?_))
      have heq : k = handed := Nat.le_antisymm (Nat.le_of_lt_succ hk') hk
      exact absurd (by rw [heq]) hne

theorem RxInv.hand_back (h : RxInv dmaPaddr crc ⟨.cleared, handed, hand⟩ landed m) :
    RxInv dmaPaddr crc ⟨.idle, handed + 1, hand⟩ landed
      { m with rdt := handed % ringLen, handed := m.handed + 1 } := by
  have hle : handed + 1 ≤ m.received.length := h.le
  have hroom : m.received.length + landed.toList.length ≤ handed + ringMask := h.room
  refine { h with handed := congrArg (· + 1) h.handed, rdt := ?_, le := hle, room := ?_, found := ?_, full := h.full, free := ?_ }
  · change handed % ringLen = (handed + 1 + ringMask) % ringLen
    unfold ringMask ringLen
    omega
  · exact Nat.le_trans hroom (Nat.add_le_add_right (Nat.le_succ handed) _)
  · rintro f hf
    cases hf
  · intro k hk hlt hfree
    have hfree' : k < handed + 1 ∨ m.received.length ≤ k := hfree
    by_cases hlast : k = handed + ringLen
    · have hempty := h.free handed (Nat.le_refl _) (Nat.lt_add_of_pos_right (by decide))
        (Or.inl (Nat.lt_succ_self _))
      rw [hlast, Nat.add_mod_right]
      exact hempty
    · have hk' : handed + 1 ≤ k := hk
      have hlt' : k < handed + 1 + ringLen := hlt
      exact h.free k (Nat.le_of_succ_le hk') (show k < handed + ringLen by omega)
        (Or.inr (hfree'.resolve_left (Nat.not_lt.mpr hk')))

theorem RxInv.reply (h : RxInv dmaPaddr crc ⟨stage, handed, hand⟩ landed m) :
    RxInv dmaPaddr crc ⟨stage, handed, none⟩ landed { m with returned := m.returned ++ hand.toList } :=
  { h with
    found := h.found, le := h.le, full := h.full, free := h.free, copied := h.copied
    returned := h.returned.trans (List.append_nil _).symm }

theorem RxInv.land (h : RxInv dmaPaddr crc ⟨stage, handed, hand⟩ none m) (hne : m.rdh ≠ m.rdt)
    (hlen : frame.raw.length ≤ bufSize) :
    (m.rxRing m.rdh).addr - dmaPaddr = bufPtr rxBufs (m.received.length % ringLen) ∧
    RxInv dmaPaddr crc ⟨stage, handed, hand⟩ (some frame)
      { m with bytes := writeAt m.bytes (bufPtr rxBufs (m.received.length % ringLen)) frame.raw } := by
  have hle : handed + stage.settles ≤ m.received.length := h.le
  have hroom : m.received.length ≤ handed + ringMask := h.room
  have hlt : m.received.length < handed + ringMask := by
    rcases Nat.lt_or_eq_of_le hroom with hlt | heq
    · exact hlt
    · exact absurd (by rw [h.rdh, h.rdt, heq]) hne
  constructor
  · have hempty := h.free m.received.length (Nat.le_of_add_right_le hle)
      (Nat.lt_of_lt_of_le hlt (Nat.add_le_add_left (by decide) _)) (Or.inr (Nat.le_refl _))
    rw [h.rdh, hempty]
    exact bufPhys_sub _ _ _
  · refine { h with room := hlt, full := ?_, landed := ?_ }
    · intro k f hk hf
      have hk' := lt_of_getElem?_eq_some hf
      have hk'' : handed + stage.clears ≤ k := hk
      have hother : k % ringLen ≠ m.received.length % ringLen := by
        dsimp only at hk'
        unfold ringMask ringLen at *
        omega
      obtain ⟨hdesc, hholds⟩ := h.full k f hk hf
      exact ⟨hdesc, hholds.other hother hlen⟩
    · rintro f hf
      cases hf
      exact holds_writeAt rxBufs hlen

theorem RxStage.clears_le : ∀ stage : RxStage, stage.clears ≤ stage.settles
  | .idle => Nat.le_refl _
  | .found _ => Nat.le_refl _
  | .settled => Nat.zero_le _
  | .cleared => Nat.le_refl _

theorem RxInv.finish (h : RxInv dmaPaddr crc ⟨stage, handed, hand⟩ (some frame) m) :
    RxInv dmaPaddr crc ⟨stage, handed, hand⟩ none
      { m with
        rxRing := Function.update m.rxRing m.rdh (filledRx (m.rxRing m.rdh).addr frame)
        rdh := (m.rdh + 1) % ringLen
        received := m.received ++ [frame] } := by
  have hle : handed + stage.settles ≤ m.received.length := h.le
  have hclears := stage.clears_le
  have hroom : m.received.length + 1 ≤ handed + ringMask := h.room
  have hlength : (m.received ++ [frame]).length = m.received.length + 1 := by simp
  have haddr : (m.rxRing m.rdh).addr = bufPhys dmaPaddr rxBufs (m.received.length % ringLen) := by
    have hempty := h.free m.received.length (Nat.le_of_add_right_le hle)
      (Nat.lt_of_lt_of_le hroom (Nat.add_le_add_left (by decide) _)) (Or.inr (Nat.le_refl _))
    rw [h.rdh, hempty]
    rfl
  refine { h with rdh := ?_, le := ?_, room := ?_, found := ?_, full := ?_, free := ?_, landed := ?_, copied := ?_ }
  · rw [hlength, h.rdh, Nat.mod_add_mod]
  · rw [hlength]
    exact Nat.le_succ_of_le hle
  · rw [hlength]
    exact hroom
  · intro f hf
    have hfound := h.found f hf
    exact (List.getElem?_append_left (lt_of_getElem?_eq_some hfound)).trans hfound
  · intro k f hk hf
    have hk' : handed + stage.clears ≤ k := hk
    rcases Nat.lt_trichotomy k m.received.length with hlt | rfl | hgt
    · have hother : k % ringLen ≠ m.rdh := by
        rw [h.rdh]
        unfold ringMask ringLen at *
        omega
      obtain ⟨hdesc, hholds⟩ := h.full k f hk ((List.getElem?_append_left hlt).symm.trans hf)
      exact ⟨(Function.update_of_ne hother _ _).trans hdesc, hholds⟩
    · have hself : f = frame := by
        have hlast : (m.received ++ [frame])[m.received.length]? = some frame := by simp
        exact Option.some.inj (hf.symm.trans hlast)
      subst hself
      refine ⟨?_, h.landed f rfl⟩
      change Function.update m.rxRing _ _ _ = _
      rw [← h.rdh, Function.update_self, haddr, h.rdh]
    · have hlt := lt_of_getElem?_eq_some hf
      dsimp only at hlt
      omega
  · intro k hk hlt hfree
    have hfree' : k < handed + stage.clears ∨ (m.received ++ [frame]).length ≤ k := hfree
    rw [hlength] at hfree'
    have hk' : handed ≤ k := hk
    have hlt' : k < handed + ringLen := hlt
    have hother : k % ringLen ≠ m.rdh := by
      rw [h.rdh]
      unfold ringMask ringLen at *
      omega
    exact (Function.update_of_ne hother _ _).trans (h.free k hk hlt (hfree'.imp_right Nat.le_of_succ_le))
  · rintro f hf
    cases hf
  · exact h.copied.trans (by rw [List.take_append_of_le_length hle])

/-- The driver writes into a transmit buffer. -/
theorem RxInv.fill (h : RxInv dmaPaddr crc ⟨stage, handed, hand⟩ landed m) (k : Nat) {data : List UInt8}
    (hlen : data.length ≤ bufSize) :
    RxInv dmaPaddr crc ⟨stage, handed, hand⟩ landed
      { m with bytes := writeAt m.bytes (bufPtr txBufs (k % ringLen)) data } :=
  { h with
    full := fun k' f hk hf => ⟨(h.full k' f hk hf).1, (h.full k' f hk hf).2.rx hlen⟩
    landed := fun f hf => (h.landed f hf).rx hlen }

end reception

end Lerux.E1000e
