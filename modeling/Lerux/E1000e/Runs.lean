import Lerux.E1000e.Frames

/-!
# Runs of the driver and the card

`holds` is the invariant along every run: what each access of the driver and of the card does to it,
and the programs of `submit_tx` and `copy_rx` over these. `reachable_faithful` is what comes of it
for the frames, the descriptors and the buffers.
-/

namespace Lerux.E1000e

open Lerux.Base

/-! ### The outline -/

def Ghost : Party → Type
  | .driver => TxAt × RxAt
  | .sender => Bool
  | .receiver => Option RxFrame

/-- Where a thread has to stand for an access. -/
def Ok : (t : Party) → Ghost t → Op → Prop
  | .driver, (x, y), .next => x.stage = .idle ∧ y.stage = .idle ∧ y.hand = none
  | .driver, (x, _), .copyIn index frame => x.stage = .accepted frame ∧ index = x.rung % ringLen
  | .driver, (x, _), .writeTx index _ => (∃ frame, x.stage = .filled frame) ∧ index = x.rung % ringLen
  | .driver, (_, y), .readRx index => y.stage = .idle ∧ y.hand = none ∧ index = y.handed % ringLen
  | .driver, (_, y), .writeRdt index => y.stage = .cleared ∧ index = y.handed % ringLen
  | _, _, _ => True

def Calm : (t : Party) → Ghost t → Prop
  | .driver, (x, y) => x.stage = .idle ∧ y.stage = .idle ∧ y.hand = none
  | .sender, sending => sending = false
  | .receiver, landed => landed = none

def outline (dmaPaddr : Nat) (crc : Bool) : Outline Party sig Mem where
  step := Does dmaPaddr
  Ghost := Ghost
  ok := Ok
  calm := Calm
  may := fun _ _ _ _ => True
  inv := fun G m => TxInv dmaPaddr (G .driver).1 (G .sender) m ∧
    RxInv dmaPaddr crc (G .driver).2 (G .receiver) m

section performs

variable {dmaPaddr : Nat} {crc : Bool}

/-- The rule for an access of the driver. -/
theorem performs_driver {o : Op} {Q : o.Res → TxAt × RxAt → Prop} {x : TxAt} {y : RxAt}
    (hok : Ok .driver (x, y) o)
    (h : ∀ sending landed m r m', TxInv dmaPaddr x sending m → RxInv dmaPaddr crc y landed m →
      Does dmaPaddr .driver m o r m' →
      ∃ x' y', TxInv dmaPaddr x' sending m' ∧ RxInv dmaPaddr crc y' landed m' ∧ Q r (x', y')) :
    (outline dmaPaddr crc).Performs .driver o Q (x, y) := by
  refine ⟨hok, fun G m hG _ hinv r m' hstep => ?_⟩
  obtain ⟨htx, hrx⟩ := hinv
  rw [hG] at htx hrx
  obtain ⟨x', y', htx', hrx', hQ⟩ := h _ _ m r m' htx hrx hstep
  refine ⟨(x', y'), ?_, hQ⟩
  exact ⟨htx', hrx'⟩

theorem safe_driver {α : Type} {o : Op} {f : o.Res → Code α} {Q : α → TxAt × RxAt → Prop} {x : TxAt}
    {y : RxAt}
    (hok : Ok .driver (x, y) o)
    (h : ∀ sending landed m r m', TxInv dmaPaddr x sending m → RxInv dmaPaddr crc y landed m →
      Does dmaPaddr .driver m o r m' →
      ∃ x' y', TxInv dmaPaddr x' sending m' ∧ RxInv dmaPaddr crc y' landed m' ∧
        (outline dmaPaddr crc).Safe .driver (f r) Q (x', y')) :
    (outline dmaPaddr crc).Safe .driver ((op o).bind f) Q (x, y) :=
  performs_driver hok h

theorem performs_sender {o : Op} {Q : o.Res → Bool → Prop} {sending : Bool}
    (h : ∀ x m r m', TxInv dmaPaddr x sending m → Does dmaPaddr .sender m o r m' →
      ∃ sending', TxInv dmaPaddr x sending' m' ∧ Q r sending' ∧
        ∀ y landed, RxInv dmaPaddr crc y landed m → RxInv dmaPaddr crc y landed m') :
    (outline dmaPaddr crc).Performs .sender o Q sending := by
  refine ⟨by cases o <;> trivial, fun G m hG _ hinv r m' hstep => ?_⟩
  obtain ⟨htx, hrx⟩ := hinv
  rw [hG] at htx
  obtain ⟨sending', htx', hQ, hrx'⟩ := h _ m r m' htx hstep
  exact ⟨sending', ⟨htx', hrx' _ _ hrx⟩, hQ⟩

theorem performs_receiver {o : Op} {Q : o.Res → Option RxFrame → Prop} {landed : Option RxFrame}
    (h : ∀ y m r m', RxInv dmaPaddr crc y landed m → Does dmaPaddr .receiver m o r m' →
      ∃ landed', RxInv dmaPaddr crc y landed' m' ∧ Q r landed' ∧
        ∀ x sending, TxInv dmaPaddr x sending m → TxInv dmaPaddr x sending m') :
    (outline dmaPaddr crc).Performs .receiver o Q landed := by
  refine ⟨by cases o <;> trivial, fun G m hG _ hinv r m' hstep => ?_⟩
  obtain ⟨htx, hrx⟩ := hinv
  rw [hG] at hrx
  obtain ⟨landed', hrx', hQ, htx'⟩ := h _ m r m' hrx hstep
  exact ⟨landed', ⟨htx' _ _ htx, hrx'⟩, hQ⟩

end performs

/-! ### The driver -/

/-- The engine's fields at the driver's counts. -/
structure EngineAt (dmaPaddr : Nat) (crc : Bool) (e : Engine) (x : TxAt) (y : RxAt) : Prop where
  dmaPaddr : e.dmaPaddr = dmaPaddr
  crcInLength : e.crcInLength = crc
  txTail : e.txTail = x.rung % ringLen
  txClean : e.txClean = x.cleaned % ringLen
  rxNext : e.rxNext = y.handed % ringLen

/-- Between two calls, or within one before anything is accepted or found. -/
def Rests (dmaPaddr : Nat) (crc : Bool) (hand : Option (List UInt8)) (e : Engine)
    (g : TxAt × RxAt) : Prop :=
  EngineAt dmaPaddr crc e g.1 g.2 ∧ g.1.stage = .idle ∧ g.2.stage = .idle ∧ g.2.hand = hand

section driver

variable {dmaPaddr : Nat} {crc : Bool} {hand : Option (List UInt8)} {e : Engine} {g : TxAt × RxAt}

theorem Rests.calm (h : Rests dmaPaddr crc none e g) : Calm .driver g := h.2

theorem safe_reclaimTx (h : Rests dmaPaddr crc none e g) :
    (outline dmaPaddr crc).Safe .driver (reclaimTx e) (fun e' g' => Rests dmaPaddr crc none e' g') g := by
  refine Outline.Safe.iterate (fun e g => Rests dmaPaddr crc none e g) h (fun _ _ h => h.calm)
    fun e g h => ?_
  obtain ⟨⟨stage, rung, cleaned⟩, ⟨rstage, handed, hand⟩⟩ := g
  obtain ⟨he, hidle, hridle, hhand⟩ := h
  dsimp only at hidle hridle hhand
  subst hidle hridle hhand
  refine Outline.Safe.ite (fun hne => ?_) fun _ => ⟨he, rfl, rfl, rfl⟩
  rw [he.txClean, he.txTail] at hne
  refine safe_driver trivial fun sending landed m r m' htx hrx hstep => ?_
  cases hstep
  rw [he.txClean]
  dsimp only at hne ⊢
  by_cases hdd : (m.txRing (cleaned % ringLen)).status &&& txDd = 0
  · exact ⟨_, _, htx, hrx, Outline.Safe.ite (fun _ => ⟨he, rfl, rfl, rfl⟩) fun h => absurd hdd h⟩
  · refine ⟨_, _, htx.clean (htx.done_of_dd hne hdd), hrx,
      Outline.Safe.ite (fun h => absurd h hdd) fun _ => ?_⟩
    exact ⟨{ he with txClean := nextIndex_mod cleaned }, rfl, rfl, rfl⟩

theorem safe_submitTx (h : Rests dmaPaddr crc none e g) (frame : List UInt8) :
    (outline dmaPaddr crc).Safe .driver (submitTx e frame)
      (fun e' g' => Rests dmaPaddr crc none e' g') g := by
  refine (safe_reclaimTx h).seq fun e g h => ?_
  refine Outline.Safe.ite (fun _ => h) fun _ => Outline.Safe.ite (fun _ => h) fun hsize =>
    Outline.Safe.ite (fun _ => h) fun hfull => ?_
  rw [not_or, Nat.not_lt] at hsize
  obtain ⟨⟨stage, rung, cleaned⟩, ⟨rstage, handed, hand⟩⟩ := g
  obtain ⟨he, hidle, hridle, hhand⟩ := h
  dsimp only at hidle hridle hhand
  subst hidle hridle hhand
  rw [he.txTail, he.txClean, nextIndex_mod] at hfull
  refine performs_driver trivial fun _ _ m _ _ htx hrx hstep => ?_
  cases hstep
  refine ⟨_, _, htx.accept hfull hsize.2, { hrx with }, ?_⟩
  refine performs_driver ⟨rfl, he.txTail⟩ fun _ _ m _ _ htx hrx hstep => ?_
  cases hstep
  refine ⟨⟨.filled frame, rung, cleaned⟩, ⟨.idle, handed, none⟩, ?_, ?_, ?_⟩
  · rw [he.txTail]
    exact htx.fill
  · rw [he.txTail]
    exact hrx.fill rung hsize.2
  refine performs_driver ⟨⟨frame, rfl⟩, he.txTail⟩ fun _ _ m _ _ htx hrx hstep => ?_
  cases hstep
  refine ⟨⟨.described frame, rung, cleaned⟩, ⟨.idle, handed, none⟩, ?_, { hrx with }, ?_⟩
  · rw [he.txTail, he.dmaPaddr]
    exact htx.describe
  refine performs_driver trivial fun _ _ m _ _ htx hrx hstep => ?_
  cases hstep
  refine ⟨⟨.idle, rung + 1, cleaned⟩, ⟨.idle, handed, none⟩, ?_, { hrx with }, ?_⟩
  · dsimp only
    rw [he.txTail, nextIndex_mod]
    exact htx.ring
  · refine ⟨{ he with txTail := ?_ }, rfl, rfl, rfl⟩
    dsimp only
    rw [he.txTail, nextIndex_mod]

theorem safe_retireRx {x : TxAt} {handed : Nat} (he : EngineAt dmaPaddr crc e x ⟨.settled, handed, hand⟩)
    (hidle : x.stage = .idle) :
    (outline dmaPaddr crc).Safe .driver (retireRx e (handed % ringLen))
      (fun e' g' => Rests dmaPaddr crc hand e' g')
      (x, ⟨.settled, handed, hand⟩) := by
  refine safe_driver trivial fun _ _ m _ _ htx hrx hstep => ?_
  cases hstep
  refine ⟨x, ⟨.cleared, handed, hand⟩, { htx with }, ?_, ?_⟩
  · rw [he.dmaPaddr]
    exact hrx.clear
  refine safe_driver ⟨rfl, rfl⟩ fun _ _ m _ _ htx hrx hstep => ?_
  cases hstep
  exact ⟨x, ⟨.idle, handed + 1, hand⟩, { htx with }, hrx.hand_back,
    { he with rxNext := nextIndex_mod handed }, hidle, rfl, rfl⟩

theorem safe_copyRx (h : Rests dmaPaddr crc none e g) :
    (outline dmaPaddr crc).Safe .driver (copyRx e bufSize)
      (fun p g' => Rests dmaPaddr crc p.1 p.2 g') g := by
  refine Outline.Safe.iterate (fun e g => Rests dmaPaddr crc none e g) h (fun _ _ h => h.calm)
    fun e g h => ?_
  obtain ⟨x, ⟨rstage, handed, hand⟩⟩ := g
  obtain ⟨he, hidle, hridle, hhand⟩ := h
  dsimp only at hidle hridle hhand
  subst hridle hhand
  refine safe_driver ⟨rfl, rfl, he.rxNext⟩ fun _ landed m r _ htx hrx hstep => ?_
  cases hstep
  rw [he.rxNext]
  dsimp only
  rcases hrx.read with ⟨hdd, -⟩ | ⟨hdd, frame, hframe, hdesc, hholds⟩
  · exact ⟨_, _, htx, hrx, Outline.Safe.ite (fun _ => ⟨he, hidle, rfl, rfl⟩) fun h => absurd hdd h⟩
  rcases publishable_filledRx (bufPhys dmaPaddr rxBufs (handed % ringLen)) he.crcInLength hholds.1 with
    ⟨hnone, hpayload⟩ | ⟨len, hsome, hpayload, hlen⟩
  · refine ⟨_, _, htx, hrx.skip hframe hpayload, Outline.Safe.ite (fun h => absurd h hdd) fun _ => ?_⟩
    rw [hdesc, hnone]
    have he' : EngineAt dmaPaddr crc e x ⟨.settled, handed, none⟩ := { he with }
    exact (safe_retireRx he' hidle).seq fun e g h => h
  · refine ⟨_, _, htx, hrx.find hframe, Outline.Safe.ite (fun h => absurd h hdd) fun _ => ?_⟩
    rw [hdesc, hsome]
    refine safe_driver trivial fun _ _ m _ _ htx hrx hstep => ?_
    cases hstep
    obtain ⟨hread, hrx⟩ := hrx.copy hpayload hlen
    refine ⟨x, _, { htx with }, hrx, ?_⟩
    rw [hread]
    have he' : EngineAt dmaPaddr crc e x ⟨.settled, handed, some (frame.raw.take len)⟩ := { he with }
    exact (safe_retireRx he' hidle).seq fun e g h => h

theorem safe_driverLoop (h : Rests dmaPaddr crc none e g) :
    (outline dmaPaddr crc).Safe .driver (driverLoop e) (fun _ _ => True) g := by
  refine Outline.Safe.iterate (fun e g => Rests dmaPaddr crc none e g) h (fun _ _ h => h.calm)
    fun e g h => ?_
  obtain ⟨x, y⟩ := g
  refine safe_driver h.2 fun _ _ m request _ htx hrx hstep => ?_
  cases hstep
  refine ⟨x, y, htx, hrx, ?_⟩
  cases request with
  | submit frame => exact (safe_submitTx h frame).seq fun e g h => h
  | receive =>
    refine (safe_copyRx h).seq fun p g h => ?_
    obtain ⟨got, e⟩ := p
    obtain ⟨x, ⟨stage, handed, hand⟩⟩ := g
    obtain ⟨he, hidle, hridle, hhand⟩ := h
    dsimp only at hridle hhand
    subst hridle hhand
    refine safe_driver trivial fun _ _ m _ _ htx hrx hstep => ?_
    cases hstep
    exact ⟨x, ⟨.idle, handed, none⟩, { htx with }, hrx.reply, { he with }, hidle, rfl, rfl⟩

end driver

/-! ### The card -/

section card

variable {dmaPaddr : Nat} {crc : Bool}

theorem safe_senderLoop : (outline dmaPaddr crc).Safe .sender senderLoop (fun _ _ => True) false := by
  refine Outline.Safe.forever (fun sending => sending = false) rfl (fun _ h => h) ?_
  rintro sending rfl
  refine performs_sender fun x m _ _ htx hstep => ?_
  cases hstep with
  | send _ hne =>
    refine ⟨true, htx.send hne, ?_, fun y landed hrx => { hrx with }⟩
    refine performs_sender fun x m _ _ htx hstep => ?_
    cases hstep
    exact ⟨false, htx.setDone, rfl, fun y landed hrx => { hrx with }⟩

theorem safe_receiverLoop : (outline dmaPaddr crc).Safe .receiver receiverLoop (fun _ _ => True) none := by
  refine Outline.Safe.forever (fun landed => landed = none) rfl (fun _ h => h) ?_
  rintro landed rfl
  refine performs_receiver fun y m frame _ hrx hstep => ?_
  cases hstep with
  | land _ _ hne hlen =>
    obtain ⟨haddr, hrx⟩ := hrx.land hne hlen
    rw [haddr]
    refine ⟨some frame, hrx, ?_, fun x sending htx => htx.land _ _⟩
    refine performs_receiver fun y m _ _ hrx hstep => ?_
    cases hstep
    exact ⟨none, hrx.finish, rfl, fun x sending htx => { htx with }⟩

end card

/-! ### Runs -/

theorem foldl_fill (dmaPaddr n : Nat) (m : Mem) :
    (List.range n).foldl (fun m slot => { m with rxRing := Function.update m.rxRing slot (emptyRx dmaPaddr slot) }) m =
      { m with rxRing := fun i => if i < n then emptyRx dmaPaddr i else m.rxRing i } := by
  induction n with
  | zero => simp
  | succ n ih =>
    rw [List.range_succ, List.foldl_append, ih, List.foldl_cons, List.foldl_nil]
    congr 1
    funext i
    by_cases hi : i = n
    · subst hi
      rw [Function.update_self, if_pos (Nat.lt_succ_self i)]
    · rw [Function.update_of_ne hi]
      dsimp only
      by_cases hlt : i < n
      · rw [if_pos hlt, if_pos (Nat.lt_succ_of_lt hlt)]
      · rw [if_neg hlt, if_neg (by omega)]

section runs

variable {dmaPaddr : Nat} {crc : Bool} {m : Mem} {s : System}

theorem txInv_start : TxInv dmaPaddr ⟨.idle, 0, 0⟩ false (start dmaPaddr crc m).mem where
  rung := rfl
  tdt := rfl
  tdh := rfl
  cleaned := Nat.le_refl _
  done := Nat.le_refl _
  room := Nat.zero_le _
  length := rfl
  hand := fun _ h => nomatch h
  filled := fun _ h => h.elim (fun h => nomatch h) fun h => nomatch h
  described := fun _ h => nomatch h
  flight := fun k _ h => absurd h (Nat.not_lt_zero k)
  sent := rfl

theorem rxInv_start : RxInv dmaPaddr crc ⟨.idle, 0, none⟩ none (start dmaPaddr crc m).mem where
  handed := rfl
  rdt := rfl
  rdh := rfl
  le := Nat.le_refl _
  room := Nat.zero_le _
  found := fun _ h => nomatch h
  full := fun k frame _ h => by
    have hnone : ([] : List RxFrame)[k]? = some frame := h
    cases hnone
  free := fun k _ hlt _ => by
    have hring : (fillRxRing dmaPaddr { m with txRing := fun _ => zeroTx, rxRing := fun _ => ⟨0, 0, 0, 0, 0, 0⟩, bytes := fun _ => 0 }).rxRing
        (k % ringLen) = emptyRx dmaPaddr (k % ringLen) := by
      rw [fillRxRing, foldl_fill]
      exact if_pos (Nat.mod_lt k (by decide))
    exact hring
  landed := fun _ h => nomatch h
  copied := rfl
  returned := rfl

theorem holds (h : Reachable dmaPaddr crc m s) : (outline dmaPaddr crc).Holds s := by
  refine Outline.holds_of_reach ?_ (fun _ _ _ _ _ _ _ _ => trivial) h
  refine ⟨fun | .driver => (⟨.idle, 0, 0⟩, ⟨.idle, 0, none⟩) | .sender => false | .receiver => none,
    ⟨txInv_start, rxInv_start⟩, fun t => ?_⟩
  cases t with
  | driver => exact safe_driverLoop ⟨⟨rfl, rfl, rfl, rfl, rfl⟩, rfl, rfl, rfl⟩
  | sender => exact safe_senderLoop
  | receiver => exact safe_receiverLoop

end runs

/-! ### What comes of it -/

/-- The descriptor was handed to the card with an update of TDT, and its DD has not been set since. -/
def InFlight (m : Mem) (index : Nat) : Prop := ∃ n, m.done ≤ n ∧ n < m.rung ∧ index = n % ringLen

/-- The descriptor was handed to the card with an update of RDT, or at the start, and the card has
not filled it since. -/
def Empty (m : Mem) (index : Nat) : Prop := ∃ n, m.received.length ≤ n ∧ n < ringMask + m.handed ∧
    index = n % ringLen

/-- The driver is about to write a transmit descriptor or its buffer. -/
def Rewrites (s : System) (index : Nat) : Prop :=
  (∃ frame k, s.prog .driver = .act (.copyIn index frame) k) ∨ ∃ desc k, s.prog .driver =
    .act (.writeTx index desc) k

structure Faithful (dmaPaddr : Nat) (crc : Bool) (s : System) : Prop where
  sent_once : s.mem.sent <+: s.mem.accepted
  /-- What the descriptors in flight name is what was accepted. -/
  named : ∀ n, s.mem.done ≤ n → n < s.mem.rung →
    some (readAt s.mem.bytes ((s.mem.txRing (n % ringLen)).addr - dmaPaddr)
      (s.mem.txRing (n % ringLen)).length) =
      s.mem.accepted[n]?
  sent_all : (∃ k, s.prog .driver = .act .next k) → s.mem.tdh = s.mem.tdt → s.mem.sent = s.mem.accepted
  kept : ∀ index, Rewrites s index → ¬InFlight s.mem index
  tx_gap : ∃ index < ringLen, ¬InFlight s.mem index
  returned_once : s.mem.returned <+: s.mem.received.filterMap (payload crc)
  /-- `copy_rx` finds nothing only when it has returned everything. -/
  returned_all : ∀ index k, s.prog .driver = .act (.readRx index) k →
    (s.mem.rxRing index).status &&& rxDd = 0 →
    s.mem.returned = s.mem.received.filterMap (payload crc)
  /-- The buffer of a frame is handed back when the frame has been copied, if it has a payload. -/
  copied_first : ∀ index k, s.prog .driver = .act (.writeRdt index) k → index = s.mem.handed % ringLen ∧
    s.mem.handed < s.mem.received.length ∧
      s.mem.copied = (s.mem.received.take (s.mem.handed + 1)).filterMap (payload crc)
  rx_gap : ∃ index < ringLen, ¬Empty s.mem index

section faithful

variable {dmaPaddr : Nat} {crc sending : Bool} {m : Mem} {s : System} {x : TxAt} {y : RxAt}
  {landed : Option RxFrame}

theorem TxInv.sent_prefix (h : TxInv dmaPaddr x sending m) : m.sent <+: m.accepted := by
  rw [h.sent]
  exact List.take_prefix _ _

theorem TxInv.named (h : TxInv dmaPaddr x sending m) (n : Nat) (hn : m.done ≤ n) (hlt : n < m.rung) :
    some (readAt m.bytes ((m.txRing (n % ringLen)).addr - dmaPaddr)
      (m.txRing (n % ringLen)).length) = m.accepted[n]? := by
  rw [h.rung] at hlt
  obtain ⟨frame, hframe, hdesc, hholds⟩ := h.flight n hn hlt
  have haddr : (filledTx dmaPaddr (n % ringLen) frame).addr - dmaPaddr =
    bufPtr txBufs (n % ringLen) := bufPhys_sub _ _ _
  have hlength : (filledTx dmaPaddr (n % ringLen) frame).length = frame.length := rfl
  rw [hdesc, haddr, hlength, hholds.2, hframe]

theorem TxInv.sent_all (h : TxInv dmaPaddr x sending m) (hidle : x.stage = .idle) (heq : m.tdh = m.tdt) :
    m.sent = m.accepted := by
  have hcleaned := h.cleaned
  have hdone := h.done
  have hroom := h.room
  have hlength := h.length
  rw [hidle] at hlength
  change m.accepted.length = x.rung at hlength
  rw [h.tdh, h.tdt] at heq
  have hall : x.rung ≤ m.done := by
    unfold ringMask ringLen at *
    omega
  rw [h.sent, List.take_of_length_le (by omega)]

theorem TxInv.not_inFlight (h : TxInv dmaPaddr x sending m) (hroom : x.rung < m.done + ringLen) :
    ¬InFlight m (x.rung % ringLen) := by
  rintro ⟨n, hn, hlt, heq⟩
  rw [h.rung] at hlt
  unfold ringLen at *
  omega

theorem TxInv.tx_gap (h : TxInv dmaPaddr x sending m) : ∃ index < ringLen, ¬InFlight m index := by
  refine ⟨_, Nat.mod_lt x.rung (by decide), h.not_inFlight ?_⟩
  have hcleaned := h.cleaned
  have hroom := h.room
  unfold ringMask ringLen at *
  omega

theorem RxInv.returned_prefix (h : RxInv dmaPaddr crc y landed m) :
    m.returned <+: m.received.filterMap (payload crc) := by
  have hcopied : m.copied <+: m.received.filterMap (payload crc) := by
    rw [h.copied]
    exact (List.take_prefix _ _).filterMap _
  rw [h.returned] at hcopied
  exact (List.prefix_append _ _).trans hcopied

theorem RxInv.rx_gap (h : RxInv dmaPaddr crc y landed m) : ∃ index < ringLen, ¬Empty m index := by
  refine ⟨_, Nat.mod_lt (y.handed + ringMask) (by decide), ?_⟩
  rintro ⟨n, hn, hlt, heq⟩
  have hle := h.le
  rw [h.handed] at hlt
  unfold ringMask ringLen at *
  omega

end faithful

theorem Reachable.next {dmaPaddr : Nat} {crc : Bool} {m : Mem} {s s' : System}
    (h : Reachable dmaPaddr crc m s) (t : Party)
    (hs : Step (Does dmaPaddr) s t s') : Reachable dmaPaddr crc m s' := Reach.step h trivial hs

def blank : Mem :=
  { txRing := fun _ => zeroTx, rxRing := fun _ => emptyRx 0 0, bytes := fun _ => 0, tdh := 0,
    tdt := 0, rdh := 0, rdt := 0
    accepted := [], sent := [], received := [], copied := [], returned := [], rung := 0, done :=
      0, handed := 0 }

end Lerux.E1000e
