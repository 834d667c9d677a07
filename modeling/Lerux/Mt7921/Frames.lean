import Lerux.Mt7921.Receive

/-!
# Every frame once, from whatever descriptor

Count the descriptors of a ring as they are posted. The first seven name the seven buffers, and a
consumed buffer is posted again seven descriptors later, so that descriptor `k` stands in slot `k %
8` and names buffer `k % 7`. With `handed` buffers given back, the descriptors from `handed` up to
`handed + 7` are the driver's or the radio's: those below the number of frames received are filled,
the others are empty (`RxInv`). The slot of `handed + 7` is the one that is left out.
-/

namespace Lerux.Mt7921

open Lerux.Base

/-- The buffers of a ring. -/
def bufN : Nat := 7

theorem bufPhys_sub (w : Which) (k : Nat) : (bufPhys w.bufs (k % bufN) - dmaPhys).toNat =
    w.bufs + k % bufN * buf := by
  have hfin : ∀ i : Fin 7, (bufPhys w.bufs i - dmaPhys).toNat = w.bufs + i * buf := by
    cases w <;> decide
  exact hfin ⟨k % bufN, Nat.mod_lt k (by decide)⟩

theorem bufPhys_inj {w : Which} {j k : Nat}
    (h : bufPhys w.bufs (j % bufN) = bufPhys w.bufs (k % bufN)) : j % bufN = k % bufN := by
  have hoff := congrArg (fun phys => (phys - dmaPhys).toNat) h
  rw [bufPhys_sub, bufPhys_sub] at hoff
  unfold buf at hoff
  omega

/-- The buffer of descriptor `k` holds the data. -/
def Holds (bytes : Nat → UInt8) (w : Which) (k : Nat) (data : List UInt8) : Prop :=
  data.length ≤ buf ∧ readAt bytes (w.bufs + k % bufN * buf) data.length = data

section buffers

variable {bytes : Nat → UInt8} {w w' : Which} {data data' : List UInt8} {k k' : Nat}

theorem holds_writeAt (h : data.length ≤ buf) :
    Holds (writeAt bytes (w.bufs + k % bufN * buf) data) w k data :=
  ⟨h, readAt_writeAt⟩

theorem Holds.other (h : Holds bytes w k data) (hne : k % bufN ≠ k' % bufN) (hlen : data'.length ≤ buf) :
    Holds (writeAt bytes (w.bufs + k' % bufN * buf) data') w k data := by
  refine ⟨h.1, ?_⟩
  have hdata := h.1
  rw [readAt_writeAt_of_disjoint, h.2]
  unfold buf at *
  omega

/-- The buffers of two rings lie apart. -/
theorem Holds.beside (h : Holds bytes w k data) (hne : w ≠ w') (hlen : data'.length ≤ buf) :
    Holds (writeAt bytes (w'.bufs + k' % bufN * buf) data') w k data := by
  refine ⟨h.1, ?_⟩
  have hdata := h.1
  have hk : k % bufN < 7 := Nat.mod_lt k (by decide)
  have hk' : k' % bufN < 7 := Nat.mod_lt k' (by decide)
  rw [readAt_writeAt_of_disjoint, h.2]
  unfold buf at *
  cases w <;> cases w' <;> first | exact absurd rfl hne | (simp only [Which.bufs]; omega)

end buffers

/-! ### The invariant -/

/-- Where the driver stands in `poll_rx` of a ring, from where it has found a frame on. -/
inductive Stage
  | idle
  | found (frame : Frame)
  | copied
  | addressed
  | posted
  | advanced

/-- The frames that are copied and whose buffers are not given back. -/
def Stage.settles : Stage → Nat
  | idle => 0
  | found _ => 0
  | _ => 1

/-- Whether the head and the tail have moved on. -/
def Stage.moved : Stage → Nat
  | advanced => 1
  | _ => 0

/-- Whether the descriptor at the head has the address of the buffer. -/
def Stage.names : Stage → Prop
  | addressed => True
  | posted => True
  | advanced => True
  | _ => False

/-- Whether it has the control word. -/
def Stage.arms : Stage → Prop
  | posted => True
  | advanced => True
  | _ => False

/-- The buffers given back, and the frame that `poll_rx` is about to return. -/
structure At where
  stage : Stage
  handed : Nat
  hand : Option (List UInt8)

structure RxInv (w : Which) (y : At) (landed : Option Frame) (r : RingMem) (bytes : Nat → UInt8) :
    Prop where
  cpu : r.cpu = (y.handed + bufN) % ringN
  dma : r.dma = r.received.length % ringN
  head : r.head = (y.handed + bufN + y.stage.moved) % ringN
  tail : r.tail = (y.handed + y.stage.moved) % ringN
  le : y.handed + y.stage.settles ≤ r.received.length
  room : r.received.length + landed.toList.length ≤ y.handed + bufN
  found : ∀ frame, y.stage = .found frame → r.received[y.handed]? = some frame
  named : ∀ k, y.handed ≤ k → k < y.handed + bufN → (r.descs (k % ringN)).buf0 = bufPhys w.bufs (k % bufN)
  full : ∀ k frame, y.handed ≤ k → r.received[k]? = some frame →
    frame.Ok ∧ (r.descs (k % ringN)).ctrl = frame.ctrl ∧ Holds bytes w k frame.raw
  free : ∀ k, r.received.length ≤ k → k < y.handed + bufN → (r.descs (k % ringN)).ctrl = descCtrl buf false
  addressed : y.stage.names → (r.descs ((y.handed + bufN) % ringN)).buf0 = bufPhys w.bufs (y.handed % bufN)
  armed : y.stage.arms → (r.descs ((y.handed + bufN) % ringN)).ctrl = descCtrl buf false
  landed : ∀ frame, landed = some frame → frame.Ok ∧ Holds bytes w r.received.length frame.raw
  copied : r.copied = (r.received.take (y.handed + y.stage.settles)).map Frame.raw
  returned : r.copied = r.returned ++ y.hand.toList
  judged : r.misjudged = 0

section driver

variable {w : Which} {stage stage' : Stage} {handed : Nat} {hand : Option (List UInt8)}
  {landed : Option Frame} {r : RingMem}
  {bytes : Nat → UInt8} {frame : Frame}

theorem lt_of_getElem?_eq_some {frames : List Frame} {k : Nat} (h : frames[k]? = some frame) :
    k < frames.length :=
  (List.getElem?_eq_some_iff.mp h).1

/-- The descriptor at the tail says that it is done exactly if a frame is waiting. -/
theorem RxInv.done_iff (h : RxInv w ⟨.idle, handed, hand⟩ landed r bytes) :
    ((r.descs (handed % ringN)).ctrl &&& dmaDone ≠ 0 ↔ handed < r.received.length) := by
  constructor
  · intro hdone
    by_contra hnot
    have hle : handed ≤ r.received.length := h.le
    rw [h.free handed (by omega) (Nat.lt_add_of_pos_right (by decide))] at hdone
    exact hdone (by decide)
  · intro hlt
    obtain ⟨hok, hctrl, -⟩ := h.full handed _ (Nat.le_refl _) (List.getElem?_eq_getElem hlt)
    rw [hctrl]
    exact hok.done

theorem RxInv.judge (h : RxInv w ⟨.idle, handed, hand⟩ landed r bytes) :
    RxInv w ⟨.idle, handed, hand⟩ landed { r with misjudged := r.misjudged +
      if ((r.descs (handed % ringN)).ctrl &&& dmaDone ≠ 0 ↔
        r.copied.length < r.received.length) then 0 else 1 } bytes := by
  have hle : handed ≤ r.received.length := h.le
  have hlength : r.copied.length = handed := by
    rw [h.copied, List.length_map, List.length_take]
    exact Nat.min_eq_left hle
  refine { h with judged := ?_ }
  dsimp only
  rw [hlength, if_pos h.done_iff, h.judged]

theorem RxInv.find (h : RxInv w ⟨.idle, handed, hand⟩ landed r bytes)
    (hframe : r.received[handed]? = some frame) :
    RxInv w ⟨.found frame, handed, hand⟩ landed r bytes := by
  refine { h with found := ?_, addressed := False.elim, armed := False.elim }
  rintro f hf
  cases hf
  exact hframe

theorem RxInv.copy (h : RxInv w ⟨.found frame, handed, none⟩ landed r bytes) :
    readAt bytes (w.bufs + handed % bufN * buf) (min (descLen frame.ctrl) buf) = frame.raw ∧
      RxInv w ⟨.copied, handed, some frame.raw⟩ landed { r with copied := r.copied ++
        [frame.raw] } bytes := by
  have hframe : r.received[handed]? = some frame := h.found frame rfl
  obtain ⟨hok, -, hholds⟩ := h.full handed frame (Nat.le_refl _) hframe
  constructor
  · rw [hok.len, Nat.min_eq_left hok.length]
    exact hholds.2
  · have hcopied : r.copied = (r.received.take handed).map Frame.raw := h.copied
    have hreturned : r.copied = r.returned ++ [] := h.returned
    refine { h with le := lt_of_getElem?_eq_some hframe, found := ?_, addressed := False.elim, armed := False.elim, copied := ?_, returned := ?_ }
    · rintro f hf
      cases hf
    · show r.copied ++ [frame.raw] = (r.received.take (handed + 1)).map Frame.raw
      rw [List.take_add_one, hframe, List.map_append, ← hcopied]
      rfl
    · show r.copied ++ [frame.raw] = r.returned ++ [frame.raw]
      rw [hreturned, List.append_nil]

/-- Writing the descriptor that is left out touches no other. -/
theorem RxInv.writeGap (h : RxInv w ⟨stage, handed, hand⟩ landed r bytes) (desc : Desc)
    (hsettles : stage'.settles = stage.settles)
    (hmoved : stage'.moved = stage.moved) (hfound : ∀ frame, stage' ≠ .found frame)
    (hnames : stage'.names → desc.buf0 = bufPhys w.bufs (handed % bufN))
    (harms : stage'.arms → desc.ctrl = descCtrl buf false) :
    RxInv w ⟨stage', handed, hand⟩ landed
      { r with descs := Function.update r.descs ((handed + bufN) % ringN) desc } bytes := by
  have hne : ∀ k, handed ≤ k → k < handed + bufN → k % ringN ≠ (handed + bufN) % ringN := by
    intro k hk hlt
    unfold ringN bufN at *
    omega
  have hle : handed + stage.settles ≤ r.received.length := h.le
  have hroom : r.received.length + landed.toList.length ≤ handed + bufN := h.room
  constructor
  · exact h.cpu
  · exact h.dma
  · exact hmoved ▸ h.head
  · exact hmoved ▸ h.tail
  · exact hsettles ▸ h.le
  · exact h.room
  · exact fun frame hf => absurd hf (hfound frame)
  · exact fun k hk hlt => (congrArg Desc.buf0 (Function.update_of_ne (hne k hk hlt) _ _)).trans
      (h.named k hk hlt)
  · intro k frame hk hframe
    have hlt : k < r.received.length := lt_of_getElem?_eq_some hframe
    obtain ⟨hok, hctrl, hholds⟩ := h.full k frame hk hframe
    exact ⟨hok, (congrArg Desc.ctrl (Function.update_of_ne (hne k hk (by omega)) _ _)).trans hctrl, hholds⟩
  · intro k hk hlt
    have hk : r.received.length ≤ k := hk
    exact (congrArg Desc.ctrl (Function.update_of_ne (hne k (by omega) hlt) _ _)).trans (h.free k hk hlt)
  · exact fun hn => (congrArg Desc.buf0 (Function.update_self _ _ _)).trans (hnames hn)
  · exact fun ha => (congrArg Desc.ctrl (Function.update_self _ _ _)).trans (harms ha)
  · exact h.landed
  · exact hsettles ▸ h.copied
  · exact h.returned
  · exact h.judged

theorem RxInv.advance (h : RxInv w ⟨.posted, handed, hand⟩ landed r bytes) :
    RxInv w ⟨.advanced, handed, hand⟩ landed
      { r with head := (handed + bufN + 1) % ringN, tail := (handed + 1) % ringN } bytes := by
  refine { h with head := rfl, tail := rfl, found := ?_ }
  rintro f hf
  cases hf

theorem RxInv.kick (h : RxInv w ⟨.advanced, handed, hand⟩ landed r bytes) :
    RxInv w ⟨.idle, handed + 1, hand⟩ landed { r with cpu := (handed + bufN + 1) % ringN } bytes := by
  have hle : handed + 1 ≤ r.received.length := h.le
  have hroom : r.received.length + landed.toList.length ≤ handed + bufN := h.room
  constructor
  · show (handed + bufN + 1) % ringN = (handed + 1 + bufN) % ringN
    rw [Nat.add_right_comm]
  · exact h.dma
  · show r.head = (handed + 1 + bufN) % ringN
    rw [Nat.add_right_comm]
    exact h.head
  · exact h.tail
  · exact hle
  · show r.received.length + landed.toList.length ≤ handed + 1 + bufN
    omega
  · rintro f hf
    cases hf
  · intro k hk hlt
    have hk : handed + 1 ≤ k := hk
    have hlt : k < handed + 1 + bufN := hlt
    by_cases hlast : k = handed + bufN
    · rw [hlast, Nat.add_mod_right]
      exact h.addressed trivial
    · exact h.named k (Nat.le_of_succ_le hk) (show k < handed + bufN by omega)
  · exact fun k frame hk hframe => h.full k frame (Nat.le_of_succ_le hk) hframe
  · intro k hk hlt
    have hlt : k < handed + 1 + bufN := hlt
    by_cases hlast : k = handed + bufN
    · rw [hlast]
      exact h.armed trivial
    · exact h.free k hk (show k < handed + bufN by omega)
  · exact False.elim
  · exact False.elim
  · exact h.landed
  · exact h.copied
  · exact h.returned
  · exact h.judged

theorem RxInv.reply (h : RxInv w ⟨.idle, handed, hand⟩ landed r bytes) :
    RxInv w ⟨.idle, handed, none⟩ landed { r with returned := r.returned ++ hand.toList } bytes :=
  { h with returned := h.returned.trans (List.append_nil _).symm }

end driver

section radio

variable {w w' : Which} {y : At} {landed : Option Frame} {r : RingMem} {bytes : Nat → UInt8} {frame : Frame}

theorem RxInv.land (h : RxInv w y none r bytes) (hne : r.dma ≠ r.cpu) (hframe : frame.Ok) :
    ((r.descs r.dma).buf0 - dmaPhys).toNat = w.bufs + r.received.length % bufN * buf ∧
      RxInv w y (some frame) r (writeAt bytes (w.bufs + r.received.length % bufN * buf) frame.raw) := by
  have hle := h.le
  have hroom : r.received.length ≤ y.handed + bufN := h.room
  have hlt : r.received.length < y.handed + bufN := by
    rcases Nat.lt_or_eq_of_le hroom with hlt | heq
    · exact hlt
    · exact absurd (by rw [h.dma, h.cpu, heq]) hne
  constructor
  · rw [h.dma, h.named _ (by omega) hlt, bufPhys_sub]
  · refine { h with room := hlt, full := ?_, landed := ?_ }
    · intro k f hk hf
      have hkl := lt_of_getElem?_eq_some hf
      have hother : k % bufN ≠ r.received.length % bufN := by
        unfold bufN at *
        omega
      obtain ⟨hok, hctrl, hholds⟩ := h.full k f hk hf
      exact ⟨hok, hctrl, hholds.other hother hframe.length⟩
    · rintro f hf
      cases hf
      exact ⟨hframe, holds_writeAt hframe.length⟩

theorem RxInv.finish (h : RxInv w y (some frame) r bytes) :
    RxInv w y none
      { r with
        descs := Function.update r.descs r.dma { r.descs r.dma with ctrl := frame.ctrl, info := frame.info }
        dma := (r.dma + 1) % ringN
        received := r.received ++ [frame] } bytes := by
  have hle := h.le
  have hroom : r.received.length + 1 ≤ y.handed + bufN := h.room
  have hlength : (r.received ++ [frame]).length = r.received.length + 1 := by
    rw [List.length_append, List.length_singleton]
  have hbuf0 : ∀ k, (Function.update r.descs r.dma { r.descs r.dma with ctrl := frame.ctrl, info := frame.info } k).buf0 =
      (r.descs k).buf0 := by
    intro k
    by_cases hk : k = r.dma
    · rw [hk, Function.update_self]
    · rw [Function.update_of_ne hk]
  have hctrl : ∀ k, k ≠ r.received.length → y.handed ≤ k → k ≤ y.handed + bufN →
      (Function.update r.descs r.dma { r.descs r.dma with ctrl := frame.ctrl, info := frame.info }
        (k % ringN)).ctrl =
        (r.descs (k % ringN)).ctrl := by
    intro k hk hlow hhigh
    have hslot : k % ringN ≠ r.dma := by
      rw [h.dma]
      unfold ringN bufN at *
      omega
    rw [Function.update_of_ne hslot]
  constructor
  · exact h.cpu
  · show (r.dma + 1) % ringN = (r.received ++ [frame]).length % ringN
    rw [hlength, h.dma, Nat.mod_add_mod]
  · exact h.head
  · exact h.tail
  · show y.handed + y.stage.settles ≤ (r.received ++ [frame]).length
    omega
  · show (r.received ++ [frame]).length ≤ y.handed + bufN
    omega
  · intro f hf
    have hfound := h.found f hf
    exact (List.getElem?_append_left (lt_of_getElem?_eq_some hfound)).trans hfound
  · exact fun k hk hlt => (hbuf0 _).trans (h.named k hk hlt)
  · intro k f hk hf
    have hf : (r.received ++ [frame])[k]? = some f := hf
    have hlt := lt_of_getElem?_eq_some hf
    by_cases hlast : k = r.received.length
    · subst hlast
      rw [List.getElem?_concat_length, Option.some_inj] at hf
      subst hf
      obtain ⟨hok, hholds⟩ := h.landed frame rfl
      refine ⟨hok, ?_, hholds⟩
      show (Function.update r.descs r.dma _ (r.received.length % ringN)).ctrl = frame.ctrl
      rw [← h.dma, Function.update_self]
    · obtain ⟨hok, hold, hholds⟩ := h.full k f hk ((List.getElem?_append_left (by omega)).symm.trans hf)
      exact ⟨hok, (hctrl k hlast hk (by omega)).trans hold, hholds⟩
  · intro k hk hlt
    have hk : r.received.length + 1 ≤ k := hlength ▸ hk
    exact (hctrl k (by omega) (by omega) (by omega)).trans (h.free k (by omega) hlt)
  · exact fun hn => (hbuf0 _).trans (h.addressed hn)
  · exact fun ha => (hctrl _ (by omega) (Nat.le_add_right _ _) (Nat.le_refl _)).trans (h.armed ha)
  · rintro f hf
    cases hf
  · exact h.copied.trans (by rw [List.take_append_of_le_length hle])
  · exact h.returned
  · exact h.judged

/-- The radio writes into a buffer of another ring. -/
theorem RxInv.beside (h : RxInv w y landed r bytes) (hne : w ≠ w') (hframe : frame.Ok) (k : Nat) :
    RxInv w y landed r (writeAt bytes (w'.bufs + k % bufN * buf) frame.raw) := by
  refine { h with full := ?_, landed := ?_ }
  · intro j f hj hf
    obtain ⟨hok, hctrl, hholds⟩ := h.full j f hj hf
    exact ⟨hok, hctrl, hholds.beside hne hframe.length⟩
  · intro f hf
    obtain ⟨hok, hholds⟩ := h.landed f hf
    exact ⟨hok, hholds.beside hne hframe.length⟩

end radio

/-! ### The outline -/

def Ghost : Party → Type
  | .driver => Which → At
  | .radio _ => Option Frame

def outline : Outline Party sig Mem where
  step := Does
  Ghost := Ghost
  ok := fun _ _ _ => True
  calm := fun _ _ => True
  may := fun _ _ _ _ => True
  inv := fun G m => ∀ w, RxInv w (G .driver w) (G (.radio w)) (m.ring w) m.bytes

/-- The ring that an access of the driver is about. -/
def Op.ring? : Op → Option Which
  | fields w => some w
  | readCtrl w _ => some w
  | readBuf0 w _ => some w
  | copyOut w _ _ => some w
  | writeBuf0 w _ _ => some w
  | writeBuf1 w _ _ => some w
  | writeInfo w _ _ => some w
  | writeCtrl w _ _ => some w
  | advance w _ _ => some w
  | kick w _ => some w
  | reply w _ => some w
  | _ => none

theorem RingDoes.ring? {bytes : Nat → UInt8} {w : Which} {r r' : RingMem} {o : Op} {res : o.Res}
    (h : RingDoes bytes w r o res r') : o.ring? = some w := by
  cases h <;> rfl

section outline

variable {w : Which} {g : Which → At} {y : At} {α : Type}

/-- The rule for an access of the driver to a ring. -/
theorem performs_ring {o : Op} {Q : o.Res → (Which → At) → Prop} (ho : o.ring? = some w)
    (h : ∀ landed r bytes res r', RxInv w y landed r bytes → RingDoes bytes w r o res r' →
      ∃ y', RxInv w y' landed r' bytes ∧ Q res (Function.update g w y')) :
    outline.Performs .driver o Q (Function.update g w y) := by
  refine ⟨trivial, fun G m hG _ hinv res m' hstep => ?_⟩
  have hw := hinv w
  rw [hG, Function.update_self] at hw
  cases hstep with
  | next => cases ho
  | ring _ w' hdoes =>
    have hwhich : w' = w := Option.some.inj (hdoes.ring?.symm.trans ho)
    subst hwhich
    obtain ⟨y', hinv', hQ⟩ := h _ _ _ _ _ hw hdoes
    refine ⟨_, fun v => ?_, hQ⟩
    show RxInv v (Function.update g w' y' v) (G (.radio v)) (Function.update m.ring w' _ v) m.bytes
    by_cases hv : v = w'
    · subst hv
      rw [Function.update_self, Function.update_self]
      exact hinv'
    · have hother := hinv v
      rw [hG, Function.update_of_ne hv] at hother
      rw [Function.update_of_ne hv, Function.update_of_ne hv]
      exact hother

theorem safe_ring {o : Op} {f : o.Res → Code α} {Q : α → (Which → At) → Prop} (ho : o.ring? = some w)
    (h : ∀ landed r bytes res r', RxInv w y landed r bytes → RingDoes bytes w r o res r' →
      ∃ y', RxInv w y' landed r' bytes ∧ outline.Safe .driver (f res) Q (Function.update g w y')) :
    outline.Safe .driver ((op o).bind f) Q (Function.update g w y) :=
  performs_ring ho h

/-- The rule for a step of the radio at a ring. -/
theorem performs_radio {o : Op} {Q : o.Res → Option Frame → Prop} {landed : Option Frame}
    (h : ∀ y m res m', RxInv w y landed (m.ring w) m.bytes → Does (.radio w) m o res m' →
      ∃ landed', RxInv w y landed' (m'.ring w) m'.bytes ∧ Q res landed' ∧
        ∀ v, v ≠ w → ∀ y landed, RxInv v y landed (m.ring v) m.bytes →
          RxInv v y landed (m'.ring v) m'.bytes) :
    outline.Performs (.radio w) o Q landed := by
  refine ⟨trivial, fun G m hG _ hinv res m' hstep => ?_⟩
  have hw := hinv w
  rw [hG] at hw
  obtain ⟨landed', hinv', hQ, hother⟩ := h _ m res m' hw hstep
  let ghost : outline.Ghost (.radio w) := landed'
  refine ⟨ghost, fun v => ?_, hQ⟩
  by_cases hv : v = w
  · subst hv
    have hself : Function.update G (.radio v) ghost (.radio v) = landed' := Function.update_self ..
    exact hself.symm ▸ hinv'
  · have hne : Party.radio v ≠ .radio w := fun heq => hv (Party.radio.inj heq)
    have hkept : Function.update G (.radio w) ghost (.radio v) = G (.radio v) :=
      Function.update_of_ne hne ..
    exact hkept.symm ▸ hother v hv _ _ (hinv v)

end outline

/-! ### The programs -/

/-- Between two calls of `poll_rx`. -/
def Rests (g : Which → At) : Prop := ∀ w, (g w).stage = .idle ∧ (g w).hand = none

section programs

variable {w : Which} {g : Which → At} {handed : Nat}

theorem safe_pollRx (g : Which → At) (handed : Nat) :
    outline.Safe .driver (pollRx w) (fun got g' => ∃ handed',
      g' = Function.update g w ⟨.idle, handed', got⟩)
      (Function.update g w ⟨.idle, handed, none⟩) := by
  refine safe_ring rfl fun _ r bytes res r' h hdoes => ?_
  cases hdoes
  have hhead : r.head = (handed + bufN) % ringN := h.head
  have htail : r.tail = handed % ringN := h.tail
  rw [hhead, htail]
  refine ⟨_, h, ?_⟩
  refine safe_ring rfl fun _ r bytes res r' h hdoes => ?_
  cases hdoes
  by_cases hdone : (r.descs (handed % ringN)).ctrl &&& dmaDone = 0
  · exact ⟨_, h.judge, Outline.Safe.ite (fun _ => ⟨handed, rfl⟩) fun hset => absurd hdone hset⟩
  have hlt : handed < r.received.length := h.done_iff.mp hdone
  have hframe := List.getElem?_eq_getElem hlt
  generalize r.received[handed] = frame at hframe
  obtain ⟨-, hctrl, -⟩ := h.full handed _ (Nat.le_refl _) hframe
  refine ⟨⟨.found frame, handed, none⟩, h.judge.find hframe,
    Outline.Safe.ite (fun hclear => absurd hclear hdone) fun _ => ?_⟩
  dsimp only
  rw [hctrl]
  refine safe_ring rfl fun _ r bytes res r' h hdoes => ?_
  cases hdoes
  refine ⟨_, h, ?_⟩
  have hphys : (r.descs (handed % ringN)).buf0 = bufPhys w.bufs (handed % bufN) :=
    h.named handed (Nat.le_refl _) (Nat.lt_add_of_pos_right (by decide))
  rw [hphys, bufPhys_sub]
  refine safe_ring rfl fun _ r bytes res r' h hdoes => ?_
  cases hdoes
  obtain ⟨hread, h⟩ := h.copy
  rw [hread]
  refine ⟨_, h, ?_⟩
  refine safe_ring rfl fun _ r bytes res r' h hdoes => ?_
  cases hdoes
  refine ⟨⟨.addressed, handed, some frame.raw⟩, ?_, ?_⟩
  · exact h.writeGap _ rfl rfl (fun _ => nofun) (fun _ => rfl) False.elim
  refine safe_ring rfl fun _ r bytes res r' h hdoes => ?_
  cases hdoes
  refine ⟨⟨.addressed, handed, some frame.raw⟩, ?_, ?_⟩
  · exact h.writeGap _ rfl rfl (fun _ => nofun) h.addressed False.elim
  refine safe_ring rfl fun _ r bytes res r' h hdoes => ?_
  cases hdoes
  refine ⟨⟨.addressed, handed, some frame.raw⟩, ?_, ?_⟩
  · exact h.writeGap _ rfl rfl (fun _ => nofun) h.addressed False.elim
  refine safe_ring rfl fun _ r bytes res r' h hdoes => ?_
  cases hdoes
  refine ⟨⟨.posted, handed, some frame.raw⟩, ?_, ?_⟩
  · exact h.writeGap _ rfl rfl (fun _ => nofun) h.addressed fun _ => rfl
  rw [Nat.mod_add_mod, Nat.mod_add_mod]
  refine safe_ring rfl fun _ r bytes res r' h hdoes => ?_
  cases hdoes
  refine ⟨_, h.advance, ?_⟩
  refine safe_ring rfl fun _ r bytes res r' h hdoes => ?_
  cases hdoes
  exact ⟨_, h.kick, handed + 1, rfl⟩

theorem Rests.eq_update (h : Rests g) (w : Which) :
    g = Function.update g w ⟨.idle, (g w).handed, none⟩ := by
  obtain ⟨hstage, hhand⟩ := h w
  rw [← hstage, ← hhand, Function.update_eq_self]

theorem Rests.update (h : Rests g) (w : Which) (handed : Nat) :
    Rests (Function.update g w ⟨.idle, handed, none⟩) := by
  intro v
  by_cases hv : v = w
  · subst hv
    rw [Function.update_self]
    exact ⟨rfl, rfl⟩
  · rw [Function.update_of_ne hv]
    exact h v

theorem safe_call (h : Rests g) (w : Which) :
    outline.Safe .driver ((pollRx w).bind fun got => op (.reply w got)) (fun _ g' => Rests g') g := by
  rw [h.eq_update w]
  refine (safe_pollRx g (g w).handed).seq fun got g' hg' => ?_
  obtain ⟨handed', rfl⟩ := hg'
  refine performs_ring rfl fun _ r bytes res r' hring hdoes => ?_
  cases hdoes
  exact ⟨_, hring.reply, h.update w handed'⟩

theorem safe_driverLoop (h : Rests g) : outline.Safe .driver driverLoop (fun _ _ => True) g := by
  refine Outline.Safe.forever Rests h (fun _ _ => trivial) fun g h => ?_
  refine ⟨trivial, fun G m hG _ hinv w m' hstep => ?_⟩
  cases hstep with
  | ring _ _ hdoes => cases hdoes.ring?
  | next =>
    refine ⟨g, ?_, safe_call h w⟩
    rw [← hG, Function.update_eq_self]
    exact hinv

theorem safe_radioLoop (w : Which) : outline.Safe (.radio w) radioLoop (fun _ _ => True) none := by
  refine Outline.Safe.forever (fun landed => landed = none) rfl (fun _ _ => trivial) ?_
  rintro landed rfl
  refine performs_radio fun y m frame _ h hstep => ?_
  cases hstep with
  | land _ _ _ hne hframe =>
    obtain ⟨haddr, h⟩ := h.land hne hframe
    rw [haddr]
    refine ⟨some frame, h, ?_, fun v hv y landed hother => hother.beside hv hframe _⟩
    refine performs_radio fun y m _ _ h hstep => ?_
    cases hstep
    refine ⟨none, ?_, rfl, fun v hv y landed hother => ?_⟩
    · show RxInv w y none (Function.update m.ring w _ w) m.bytes
      rw [Function.update_self]
      exact h.finish
    · show RxInv v y landed (Function.update m.ring w _ v) m.bytes
      rw [Function.update_of_ne hv]
      exact hother

end programs

/-! ### Runs -/

theorem foldl_descWrite (f : Nat → Desc) (n : Nat) (r : RingMem) :
    (List.range n).foldl (fun r i => descWrite r i (f i).buf0 (f i).ctrl (f i).buf1 (f i).info) r =
      { r with descs := fun i => if i < n then f i else r.descs i } := by
  induction n with
  | zero => rfl
  | succ n ih =>
    rw [List.range_succ, List.foldl_append, ih, List.foldl_cons, List.foldl_nil, descWrite]
    congr 1
    funext i
    by_cases hi : i = n
    · subst hi
      rw [Function.update_self, if_pos (Nat.lt_succ_self i)]
    · rw [Function.update_of_ne hi]
      by_cases hlt : i < n
      · exact (if_pos hlt).trans (if_pos (Nat.lt_succ_of_lt hlt)).symm
      · exact (if_neg hlt).trans (if_neg (by omega)).symm

theorem startRing_eq (w : Which) (r : RingMem) : ∃ base descs,
    (∀ k, k < bufN → descs k = ⟨bufPhys w.bufs k, descCtrl buf false, 0, 0⟩) ∧
      startRing w r = { r with base, size := ringN, cpu := bufN, dma := 0, descs, head := bufN } := by
  have hprogram := foldl_descWrite (fun _ => ⟨0, dmaDone, 0, 0⟩) ringN
  have hfill := foldl_descWrite (fun i => ⟨bufPhys w.bufs i, descCtrl buf false, 0, 0⟩) (ringN - 1)
  dsimp only at hprogram hfill
  simp only [startRing, fillRx, program, bind, hprogram, hfill]
  exact ⟨_, _, fun k hk => if_pos hk, rfl⟩

theorem rxInv_start (w : Which) (m : Mem) :
    RxInv w ⟨.idle, 0, none⟩ none ((start m).mem.ring w) (start m).mem.bytes := by
  obtain ⟨base, descs, hdescs, hring⟩ := startRing_eq w { m.ring w with
    head := 0, tail := 0, received := [], copied := [], returned := [], misjudged := 0 }
  have hslot : ∀ k, k < 0 + bufN →
    descs (k % ringN) = ⟨bufPhys w.bufs (k % bufN), descCtrl buf false, 0, 0⟩ := by
    intro k hk
    have hk : k < bufN := by omega
    rw [Nat.mod_eq_of_lt hk, Nat.mod_eq_of_lt (Nat.lt_of_lt_of_le hk (by decide))]
    exact hdescs k hk
  have hstart : (start m).mem.ring w = _ := hring
  rw [hstart]
  constructor
  · rfl
  · rfl
  · rfl
  · rfl
  · exact Nat.zero_le _
  · exact Nat.zero_le _
  · rintro f hf
    cases hf
  · exact fun k _ hk => congrArg Desc.buf0 (hslot k hk)
  · rintro k f _ hf
    cases hf
  · exact fun k _ hk => congrArg Desc.ctrl (hslot k hk)
  · exact False.elim
  · exact False.elim
  · rintro f hf
    cases hf
  · rfl
  · rfl
  · rfl

theorem holds {m : Mem} {s : System} (h : Reachable m s) : outline.Holds s := by
  refine Outline.holds_of_reach ?_ (fun _ _ _ _ _ _ _ _ => trivial) h
  refine ⟨fun | .driver => fun _ => ⟨.idle, 0, none⟩ | .radio _ => none, fun w => rxInv_start w m,
    fun t => ?_⟩
  cases t with
  | driver => exact safe_driverLoop fun _ => ⟨rfl, rfl⟩
  | radio w => exact safe_radioLoop w

/-! ### What comes of it -/

/-- What a ring's memory says of its frames, descriptors and buffers. -/
structure Faithful (w : Which) (m : Mem) : Prop where
  /-- Each frame is returned once, in order, with its bytes and its length. -/
  returned : (m.ring w).returned <+: (m.ring w).received.map Frame.raw
  /-- `poll_rx` has found a frame whenever one was waiting, and only then. -/
  judged : (m.ring w).misjudged = 0
  count : (m.ring w).head = ((m.ring w).tail + (ringN - 1)) % ringN
  distinct : ((List.range (ringN - 1)).map fun i =>
    ((m.ring w).descs (((m.ring w).tail + i) % ringN)).buf0).Nodup
  /-- The buffer of a frame that is not copied still holds it, and none of the descriptors that the
  radio may fill names it. -/
  kept : ∀ k frame, (m.ring w).copied.length ≤ k → (m.ring w).received[k]? = some frame →
    readAt m.bytes (((m.ring w).descs (k % ringN)).buf0 - dmaPhys).toNat frame.raw.length = frame.raw ∧
    ∀ i, i < ((m.ring w).cpu + ringN - (m.ring w).dma) % ringN →
      ((m.ring w).descs (((m.ring w).dma + i) % ringN)).buf0 ≠ ((m.ring w).descs (k % ringN)).buf0

section faithful

variable {w : Which} {y : At} {landed : Option Frame} {r : RingMem} {bytes : Nat → UInt8}

/-- The descriptors between the tail and the head. -/
theorem RxInv.between (h : RxInv w y landed r bytes) {k : Nat} (hk : y.handed + y.stage.moved ≤ k)
    (hlt : k < y.handed + y.stage.moved + bufN) : (r.descs (k % ringN)).buf0 =
      bufPhys w.bufs (k % bufN) := by
  by_cases hnamed : k < y.handed + bufN
  · exact h.named k (by omega) hnamed
  · have hmoved : y.stage.moved ≤ 1 ∧ (y.stage.moved = 1 → y.stage.names) := by
      cases y.stage with
      | advanced => exact ⟨Nat.le_refl _, fun _ => trivial⟩
      | _ => exact ⟨Nat.zero_le _, fun h => nomatch h⟩
    have hlast : k = y.handed + bufN := by omega
    rw [hlast, Nat.add_mod_right]
    exact h.addressed (hmoved.2 (by omega))

theorem RxInv.distinct (h : RxInv w y landed r bytes) :
    ((List.range (ringN - 1)).map fun i => (r.descs ((r.tail + i) % ringN)).buf0).Nodup := by
  refine List.Nodup.map_on ?_ List.nodup_range
  intro i hi j hj heq
  have hi : i < bufN := List.mem_range.mp hi
  have hj : j < bufN := List.mem_range.mp hj
  rw [h.tail, Nat.mod_add_mod, Nat.mod_add_mod, h.between (by omega) (by omega),
    h.between (by omega) (by omega)] at heq
  have hmod := bufPhys_inj heq
  unfold bufN at *
  omega

theorem RxInv.kept (h : RxInv w y landed r bytes) {k : Nat} {frame : Frame} (hk : r.copied.length ≤ k)
    (hframe : r.received[k]? = some frame) :
    readAt bytes ((r.descs (k % ringN)).buf0 - dmaPhys).toNat frame.raw.length = frame.raw ∧
      ∀ i, i < (r.cpu + ringN - r.dma) % ringN →
        (r.descs ((r.dma + i) % ringN)).buf0 ≠ (r.descs (k % ringN)).buf0 := by
  have hle := h.le
  have hroom := h.room
  have hlt := lt_of_getElem?_eq_some hframe
  have hcopied : r.copied.length = y.handed + y.stage.settles := by
    rw [h.copied, List.length_map, List.length_take, Nat.min_eq_left hle]
  obtain ⟨-, -, hholds⟩ := h.full k frame (by omega) hframe
  have hname := h.named k (by omega) (by omega)
  constructor
  · rw [hname, bufPhys_sub]
    exact hholds.2
  · intro i hi heq
    have hi : i < y.handed + bufN - r.received.length := by
      rw [h.cpu, h.dma] at hi
      unfold ringN bufN at *
      omega
    rw [h.dma, Nat.mod_add_mod, h.named (r.received.length + i) (by omega) (by omega), hname] at heq
    have hmod := bufPhys_inj heq
    unfold bufN at *
    omega

end faithful

theorem Reachable.next {m : Mem} {s s' : System} (h : Reachable m s) (t : Party)
    (hs : Step Does s t s') : Reachable m s' :=
  Reach.step h trivial hs

def blank : Mem where
  ring _ :=
    { base := 0, size := 0, cpu := 0, dma := 0, descs := fun _ => ⟨0, 0, 0, 0⟩, head := 0,
      tail := 0, received := []
      copied := [], returned := [], misjudged := 0 }
  bytes _ := 0

def oneByte : Frame := ⟨[7], 0x80010000, 0⟩

end Lerux.Mt7921
