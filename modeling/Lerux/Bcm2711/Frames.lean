import Lerux.Bcm2711.Rings
import Mathlib.Algebra.Group.Nat.Defs

/-!
# What is sent and what is delivered

The armed transmit descriptors are those of the frames accepted last, and each still has its frame
in its buffer (`TxInv`), so that the controller sends every accepted frame once and in order.

`receive` takes the length from the lower half of the status word, where the controller has the
flags. The flags of a whole frame leave no bit under the mask of the length, so that `receive` finds
nothing in any state (`RxInv`): no received frame is ever delivered.
-/

namespace Lerux.Bcm2711

open Lerux.Base

/-! ### Status words -/

section status

variable {len : Nat} (flags : Half)

theorem readDescStatus_statusWord (addr high : Word) :
    readDescStatus ⟨statusWord len flags, addr, high⟩ = flags := by
  apply BitVec.eq_of_getLsbD_eq
  intro i hi
  have hmask : (BitVec.allOnes 16)[i] = true := BitVec.getElem_allOnes i hi
  simp only [readDescStatus, statusWord]
  simpa [hi] using fun _ => hmask

theorem owned_statusWord (addr high : Word) :
    Desc.owned ⟨statusWord len flags, addr, high⟩ = decide (flags &&& dmaOwn ≠ 0) := by
  have hword : statusWord len flags &&& dmaOwn.setWidth 32 = (flags &&& dmaOwn).setWidth 32 := by
    apply BitVec.eq_of_getLsbD_eq
    intro i hi
    by_cases hlow : i < 16
    · simp [statusWord, hlow, hi]
    · simp [statusWord, hi, BitVec.getLsbD_of_ge dmaOwn i (by omega)]
  have hzero : (flags &&& dmaOwn).setWidth 32 = 0 ↔ flags &&& dmaOwn = 0 := by
    constructor
    · intro h
      have := congrArg (BitVec.setWidth 16) h
      simpa using this
    · intro h
      rw [h]
      rfl
  simp only [Desc.owned, hword, ne_eq, hzero]

theorem len_statusWord (h : len < 2 ^ 16) (addr high : Word) :
    Desc.len ⟨statusWord len flags, addr, high⟩ = len := by
  have hword : statusWord len flags >>> 16 = BitVec.ofNat 32 len := by
    apply BitVec.eq_of_getLsbD_eq
    intro i hi
    by_cases hlow : i < 16
    · simp [statusWord, show 16 + i < 32 by omega, hi]
    · have hpow : 2 ^ 16 ≤ 2 ^ i := Nat.pow_le_pow_right (by decide) (by omega)
      have htest : len.testBit i = false := Nat.testBit_lt_two_pow (by omega)
      have hbit : (BitVec.ofNat 32 len)[i] = false := by
        rw [← BitVec.getLsbD_eq_getElem, BitVec.getLsbD_ofNat, htest, Bool.and_false]
      simp [statusWord, show ¬16 + i < 32 by omega, hi, hbit]
  rw [Desc.len, hword, BitVec.toNat_ofNat]
  omega

end status

/-! ### The invariants -/

/-- Every receive descriptor is armed or handed back with the flags of a whole frame, and nothing
was delivered. -/
structure RxInv (d : Nat) (s : State) : Prop where
  paddr : s.genet.dmaPaddr = d
  desc : ∀ i, i < numDesc → ∃ len flags, (flags = dmaOwn ∨ flags = dmaSop ||| dmaEop) ∧
    s.mem.rxRing i = ⟨statusWord len flags, BitVec.ofNat 32 (d + rxBufOff i), 0⟩
  slice : s.slice = none
  delivered : s.delivered = []

/-- The transmit descriptors from the controller's next one on are those of the frames that it has
still to send. -/
structure TxInv (d : Nat) (s : State) : Prop where
  prod : s.genet.txProd = BitVec.ofNat 16 s.accepted.length
  le : s.sent.length ≤ s.accepted.length
  room : s.accepted.length ≤ s.sent.length + numDesc
  sent : s.sent = s.accepted.take s.sent.length
  flight : ∀ k frame, s.sent.length ≤ k → s.accepted[k]? = some frame → frame.length ≤ bufSize ∧
    s.mem.txRing (k % numDesc) = txDesc (d + txBufOff (k % numDesc)) frame.length true ∧
    readAt s.mem.bytes (d + txBufOff (k % numDesc)) frame.length = frame
  free : ∀ k, s.accepted.length ≤ k → k < s.sent.length + numDesc →
    (s.mem.txRing (k % numDesc)).owned = false

/-- The two rings of buffers lie below 4 GiB, where a descriptor can name them. -/
def Low (d : Nat) : Prop := d + 2 * numDesc * bufSize ≤ 2 ^ 32

section start

variable {d : Nat} {s : State}

theorem receive_eq (h : RxInv d s) : receive s.genet s.mem = (none, s.genet, s.mem) := by
  obtain ⟨len, flags, hflags, hdesc⟩ := h.desc (s.genet.rxCons.toNat % numDesc) (Nat.mod_lt _ (by decide))
  have hstat := @readDescStatus_statusWord len flags
    (BitVec.ofNat 32 (d + rxBufOff (s.genet.rxCons.toNat % numDesc))) 0
  rw [← hdesc] at hstat
  simp only [receive, hstat]
  obtain rfl | rfl := hflags
  · exact if_pos (Or.inl (by decide))
  · rw [if_neg (by decide), if_pos (by decide)]

theorem foldl_setupDesc (n : Nat) (m : Mem) : ∀ i, i < n →
    ((List.range n).foldl (setupDesc d) m).txRing i = txDesc 0 0 false ∧
      ((List.range n).foldl (setupDesc d) m).rxRing i = rxDesc (d + rxBufOff i) := by
  induction n with
  | zero => exact fun i hi => absurd hi (Nat.not_lt_zero i)
  | succ n ih =>
    intro i hi
    rw [List.range_succ, List.foldl_append, List.foldl_cons, List.foldl_nil]
    simp only [setupDesc, writeRxDesc, writeTxDesc]
    by_cases hlast : i = n
    · subst hlast
      exact ⟨Function.update_self .., Function.update_self ..⟩
    · rw [Function.update_of_ne hlast, Function.update_of_ne hlast]
      exact ih i (by omega)

theorem rxInv_start (d : Nat) (m : Mem) : RxInv d (start d m) where
  paddr := rfl
  desc i hi := ⟨bufSize, dmaOwn, Or.inl rfl, (foldl_setupDesc numDesc _ i hi).2⟩
  slice := rfl
  delivered := rfl

theorem txInv_start (d : Nat) (m : Mem) : TxInv d (start d m) where
  prod := rfl
  le := Nat.le_refl 0
  room := Nat.zero_le _
  sent := rfl
  flight k frame _ h := absurd h (by simp [start])
  free k _ hk := by
    have hdesc := (foldl_setupDesc (d := d) numDesc
      (setupRing rdmaRingWrite (setupRing tdmaRingWrite m)) (k % numDesc)
      (Nat.mod_lt _ (by decide))).1
    have hring : (start d m).mem.txRing (k % numDesc) = txDesc 0 0 false := hdesc
    rw [hring, txDesc, owned_statusWord]
    decide

end start

/-! ### One action -/

section actions

variable {d : Nat} {s : State} {buf frame : List UInt8}

theorem addr_toNat (hlow : Low d) {off : Nat} (hoff : off < 2 * numDesc * bufSize) :
    (BitVec.ofNat 32 (d + off)).toNat = d + off := by
  unfold Low at hlow
  rw [BitVec.toNat_ofNat, Nat.mod_eq_of_lt (by omega)]

theorem owned_txDesc (bufPhys len : Nat) : (txDesc bufPhys len true).owned = true := by
  rw [txDesc, owned_statusWord]
  decide

theorem readDescStatus_txDesc (bufPhys len : Nat) :
    readDescStatus (txDesc bufPhys len true) &&& dmaOwn ≠ 0 := by
  rw [txDesc, readDescStatus_statusWord]
  decide

theorem owned_finish (desc : Desc) (len : Nat) : (desc.finish len).owned = false := by
  rw [Desc.finish, owned_statusWord]
  decide

/-- `transmit` finds its descriptor free exactly while it has sixteen frames less than accepted
behind the controller. -/
theorem TxInv.transmit (h : TxInv d s) (hrx : RxInv d s) (hbuf : buf.length ≤ bufSize) :
    Bcm2711.transmit s.genet s.mem buf = (false, s.genet, s.mem) ∨
      (s.accepted.length < s.sent.length + numDesc ∧ ∃ regs, Bcm2711.transmit s.genet s.mem buf =
        (true, { s.genet with txProd := s.genet.txProd + 1 },
          { s.mem with
            regs
            txRing := Function.update s.mem.txRing (s.accepted.length % numDesc)
              (txDesc (d + txBufOff (s.accepted.length % numDesc)) buf.length true)
            bytes := writeAt s.mem.bytes (d + txBufOff (s.accepted.length % numDesc)) buf })) := by
  have hindex : s.genet.txProd.toNat % numDesc = s.accepted.length % numDesc := by
    rw [h.prod, BitVec.toNat_ofNat]
    unfold numDesc
    omega
  simp only [Bcm2711.transmit, hindex, hrx.paddr, Nat.min_eq_left hbuf, List.take_length]
  split
  · exact Or.inl rfl
  · next hfree =>
    refine Or.inr ⟨?_, _, rfl⟩
    have hroom := h.room
    by_contra hfull
    have hlt : s.sent.length < s.accepted.length := by
      unfold numDesc at hfull
      omega
    have hframe := List.getElem?_eq_getElem hlt
    have hslot : s.accepted.length % numDesc = s.sent.length % numDesc := by
      unfold numDesc at *
      omega
    rw [hslot, (h.flight _ _ (Nat.le_refl _) hframe).2.1] at hfree
    exact hfree (readDescStatus_txDesc _ _)

theorem TxInv.accept (h : TxInv d s) (hbuf : buf.length ≤ bufSize)
    (hroom : s.accepted.length < s.sent.length + numDesc)
    (regs : Nat → Word) : TxInv d { s with
      genet := { s.genet with txProd := s.genet.txProd + 1 }
      mem := { s.mem with
        regs
        txRing := Function.update s.mem.txRing (s.accepted.length % numDesc)
          (txDesc (d + txBufOff (s.accepted.length % numDesc)) buf.length true)
        bytes := writeAt s.mem.bytes (d + txBufOff (s.accepted.length % numDesc)) buf }
      accepted := s.accepted ++ [buf] } := by
  have hle := h.le
  constructor
  · show s.genet.txProd + 1 = BitVec.ofNat 16 (s.accepted ++ [buf]).length
    rw [h.prod, List.length_append, List.length_singleton, BitVec.ofNat_add]
    rfl
  · show s.sent.length ≤ (s.accepted ++ [buf]).length
    rw [List.length_append]
    omega
  · show (s.accepted ++ [buf]).length ≤ s.sent.length + numDesc
    rw [List.length_append, List.length_singleton]
    omega
  · exact h.sent.trans (List.take_append_of_le_length hle).symm
  · intro k frame hk hframe
    by_cases hlast : k = s.accepted.length
    · subst hlast
      rw [List.getElem?_concat_length, Option.some_inj] at hframe
      subst hframe
      exact ⟨hbuf, Function.update_self .., readAt_writeAt⟩
    · have hlt : k < s.accepted.length := by
        have := (List.getElem?_eq_some_iff.mp hframe).1
        rw [List.length_append, List.length_singleton] at this
        omega
      rw [List.getElem?_append_left hlt] at hframe
      have hk : s.sent.length ≤ k := hk
      obtain ⟨hlen, hdesc, hread⟩ := h.flight k frame hk hframe
      have hne : k % numDesc ≠ s.accepted.length % numDesc := by
        unfold numDesc at *
        omega
      refine ⟨hlen, (Function.update_of_ne hne _ _).trans hdesc, ?_⟩
      show readAt (writeAt s.mem.bytes _ buf) _ frame.length = frame
      rw [readAt_writeAt_of_disjoint, hread]
      unfold txBufOff bufSize at *
      omega
  · intro k hk hlt
    have hk' : s.accepted.length + 1 ≤ k := by simpa using hk
    have hlt : k < s.sent.length + numDesc := hlt
    have hne : k % numDesc ≠ s.accepted.length % numDesc := by
      unfold numDesc at *
      omega
    show (Function.update s.mem.txRing _ _ (k % numDesc)).owned = false
    rw [Function.update_of_ne hne]
    exact h.free k (by omega) hlt

/-- What the reclaiming of a descriptor leaves of it. -/
theorem reclaim_txRing (indices : List Nat) (acc : Nat × Mem) : ∀ i,
    (indices.foldl reclaim acc).2.txRing i = acc.2.txRing i ∨
      (readDescStatus (acc.2.txRing i) &&& dmaOwn = 0 ∧
        (indices.foldl reclaim acc).2.txRing i = ⟨0, 0, 0⟩) := by
  induction indices generalizing acc with
  | nil => exact fun i => Or.inl rfl
  | cons index indices ih =>
    intro i
    rw [List.foldl_cons]
    by_cases hdone : readDescStatus (acc.2.txRing index) ≠ 0 ∧
      readDescStatus (acc.2.txRing index) &&& dmaOwn = 0
    · have hstep : (reclaim acc index).2.txRing = Function.update acc.2.txRing index ⟨0, 0, 0⟩ := by
        rw [reclaim, if_pos hdone]
      by_cases hi : i = index
      · subst hi
        have hzero : (reclaim acc i).2.txRing i = ⟨0, 0, 0⟩ := by rw [hstep, Function.update_self]
        obtain hsame | ⟨-, hclear⟩ := ih (reclaim acc i) i
        · exact Or.inr ⟨hdone.2, hsame.trans hzero⟩
        · exact Or.inr ⟨hdone.2, hclear⟩
      · have hother : (reclaim acc index).2.txRing i = acc.2.txRing i := by
          rw [hstep, Function.update_of_ne hi]
        rw [← hother]
        exact ih (reclaim acc index) i
    · have hstep : reclaim acc index = acc := if_neg hdone
      rw [hstep]
      exact ih acc i

theorem reclaim_frame (indices : List Nat) (acc : Nat × Mem) :
    (indices.foldl reclaim acc).2.bytes = acc.2.bytes ∧
      (indices.foldl reclaim acc).2.rxRing = acc.2.rxRing := by
  induction indices generalizing acc with
  | nil => exact ⟨rfl, rfl⟩
  | cons index indices ih =>
    rw [List.foldl_cons]
    have hstep : (reclaim acc index).2.bytes = acc.2.bytes ∧
      (reclaim acc index).2.rxRing = acc.2.rxRing := by
      unfold reclaim
      dsimp only
      split <;> exact ⟨rfl, rfl⟩
    exact ⟨(ih _).1.trans hstep.1, (ih _).2.trans hstep.2⟩

theorem TxInv.checkTxCompletions (h : TxInv d s) :
    TxInv d { s with mem := (Bcm2711.checkTxCompletions s.mem).2 } := by
  refine { h with flight := ?_, free := ?_ }
  · intro k frame hk hframe
    obtain ⟨hlen, hdesc, hread⟩ := h.flight k frame hk hframe
    refine ⟨hlen, ?_, ?_⟩
    · obtain hsame | ⟨hclear, -⟩ := reclaim_txRing (List.range numDesc) (0, s.mem) (k % numDesc)
      · exact hsame.trans hdesc
      · rw [show (0, s.mem).2 = s.mem from rfl, hdesc] at hclear
        exact absurd hclear (readDescStatus_txDesc _ _)
    · show readAt (Bcm2711.checkTxCompletions s.mem).2.bytes _ frame.length = frame
      rw [Bcm2711.checkTxCompletions, (reclaim_frame ..).1, hread]
  · intro k hk hlt
    obtain hsame | ⟨-, hzero⟩ := reclaim_txRing (List.range numDesc) (0, s.mem) (k % numDesc)
    · exact (congrArg Desc.owned hsame).trans (h.free k hk hlt)
    · exact (congrArg Desc.owned hzero).trans (by decide)

theorem TxInv.lt_of_owned (h : TxInv d s) (howned : (s.mem.txRing (s.sent.length % numDesc)).owned = true) :
    s.sent.length < s.accepted.length := by
  by_contra hnot
  have hfree := h.free s.sent.length (by omega) (Nat.lt_add_of_pos_right (by decide))
  rw [howned] at hfree
  cases hfree

theorem TxInv.send (hlow : Low d) (h : TxInv d s)
    (howned : (s.mem.txRing (s.sent.length % numDesc)).owned = true) :
    TxInv d { s with
      mem := { s.mem with
        txRing := Function.update s.mem.txRing (s.sent.length % numDesc)
          ((s.mem.txRing (s.sent.length % numDesc)).finish (s.mem.txRing (s.sent.length % numDesc)).len) }
      sent := s.sent ++ [readAt s.mem.bytes (s.mem.txRing (s.sent.length % numDesc)).addr.toNat
        (s.mem.txRing (s.sent.length % numDesc)).len] } := by
  have hlt := h.lt_of_owned howned
  have hframe := List.getElem?_eq_getElem hlt
  obtain ⟨hlen, hdesc, hread⟩ := h.flight _ _ (Nat.le_refl _) hframe
  have hroom := h.room
  -- what the controller reads is the frame that was accepted next
  have hsent : readAt s.mem.bytes (s.mem.txRing (s.sent.length % numDesc)).addr.toNat
      (s.mem.txRing (s.sent.length % numDesc)).len = s.accepted[s.sent.length] := by
    have hoff : txBufOff (s.sent.length % numDesc) < 2 * numDesc * bufSize := by
      have := Nat.mod_lt s.sent.length (by decide : 0 < numDesc)
      unfold txBufOff numDesc bufSize at *
      omega
    have hshort : s.accepted[s.sent.length].length < 2 ^ 16 := by
      unfold bufSize at hlen
      omega
    rw [hdesc, txDesc, len_statusWord _ hshort, addr_toNat hlow hoff, hread]
  rw [hsent]
  constructor
  · exact h.prod
  · show (s.sent ++ [s.accepted[s.sent.length]]).length ≤ s.accepted.length
    rw [List.length_append, List.length_singleton]
    omega
  · show s.accepted.length ≤ (s.sent ++ [s.accepted[s.sent.length]]).length + numDesc
    rw [List.length_append]
    omega
  · show s.sent ++ [s.accepted[s.sent.length]] =
      s.accepted.take (s.sent ++ [s.accepted[s.sent.length]]).length
    rw [List.length_append, List.length_singleton, List.take_add_one, hframe, ← h.sent]
    rfl
  · intro k frame hk hsome
    have hk : s.sent.length + 1 ≤ k := by simpa using hk
    have hsome : s.accepted[k]? = some frame := hsome
    have hklt := (List.getElem?_eq_some_iff.mp hsome).1
    obtain ⟨hlen, hdesc, hread⟩ := h.flight k frame (by omega) hsome
    have hne : k % numDesc ≠ s.sent.length % numDesc := by
      unfold numDesc at *
      omega
    exact ⟨hlen, (Function.update_of_ne hne _ _).trans hdesc, hread⟩
  · intro k hk hlt
    have hk : s.accepted.length ≤ k := hk
    have hlt : k < s.sent.length + 1 + numDesc := by simpa using hlt
    show (Function.update s.mem.txRing _ _ (k % numDesc)).owned = false
    by_cases hlast : k = s.sent.length + numDesc
    · rw [hlast, Nat.add_mod_right, Function.update_self]
      exact owned_finish _ _
    · have hne : k % numDesc ≠ s.sent.length % numDesc := by
        unfold numDesc at *
        omega
      rw [Function.update_of_ne hne]
      exact h.free k hk (by omega)

/-- The controller writes into a receive buffer. -/
theorem TxInv.store (hlow : Low d) (h : TxInv d s) {i : Nat} (hi : i < numDesc) (rxRing : Nat → Desc)
    (received : List (List UInt8)) :
    TxInv d { s with
      mem := { s.mem with rxRing, bytes := writeAt s.mem.bytes (BitVec.ofNat 32 (d + rxBufOff i)).toNat frame }
      received } := by
  refine { h with flight := ?_ }
  intro k buf hk hsome
  obtain ⟨hlen, hdesc, hread⟩ := h.flight k buf hk hsome
  refine ⟨hlen, hdesc, ?_⟩
  have hoff : rxBufOff i < 2 * numDesc * bufSize := by
    unfold rxBufOff numDesc bufSize at *
    omega
  show readAt (writeAt s.mem.bytes (BitVec.ofNat 32 (d + rxBufOff i)).toNat frame) _ buf.length = buf
  rw [addr_toNat hlow hoff, readAt_writeAt_of_disjoint, hread]
  have hmod := Nat.mod_lt k (by decide : 0 < numDesc)
  unfold rxBufOff txBufOff numDesc bufSize at *
  omega

theorem RxInv.store (h : RxInv d s) (bytes : Nat → UInt8) {i : Nat} (hi : i < numDesc) :
    RxInv d { s with
      mem := { s.mem with rxRing := Function.update s.mem.rxRing i ((s.mem.rxRing i).finish frame.length), bytes }
      received := s.received ++ [frame] } := by
  refine { h with desc := ?_ }
  intro j hj
  by_cases hji : j = i
  · subst hji
    obtain ⟨len, flags, -, hdesc⟩ := h.desc j hj
    refine ⟨frame.length, dmaSop ||| dmaEop, Or.inr rfl, ?_⟩
    show Function.update s.mem.rxRing j _ j = _
    rw [Function.update_self, hdesc]
    rfl
  · obtain ⟨len, flags, hflags, hdesc⟩ := h.desc j hj
    exact ⟨len, flags, hflags, (Function.update_of_ne hji _ _).trans hdesc⟩

theorem transmit_rx (g : Genet) (m : Mem) (buf : List UInt8) :
    (Bcm2711.transmit g m buf).2.1.dmaPaddr = g.dmaPaddr ∧
      (Bcm2711.transmit g m buf).2.2.rxRing = m.rxRing := by
  unfold Bcm2711.transmit
  dsimp only
  split <;> exact ⟨rfl, rfl⟩

/-- Whatever is done, `receive` goes on finding nothing. -/
theorem RxInv.step (h : RxInv d s) {a : Action} {s' : State} (hstep : step s a = some s') : RxInv d s' := by
  cases a with
  | transmit buf =>
    rw [Bcm2711.step, if_pos h.slice, Option.some_inj] at hstep
    subst hstep
    obtain ⟨hpaddr, hring⟩ := transmit_rx s.genet s.mem buf
    exact { h with paddr := hpaddr.trans h.paddr, desc := fun i hi => (congrFun hring i).symm ▸ h.desc i hi }
  | checkTxCompletions =>
    rw [Bcm2711.step, if_pos h.slice, Option.some_inj] at hstep
    subst hstep
    have hring := (reclaim_frame (List.range numDesc) (0, s.mem)).2
    exact { h with desc := fun i hi => (congrFun hring i).symm ▸ h.desc i hi }
  | receive =>
    rw [Bcm2711.step, if_pos h.slice, receive_eq h, Option.some_inj] at hstep
    subst hstep
    exact { h with slice := rfl }
  | copy =>
    rw [Bcm2711.step, h.slice] at hstep
    cases hstep
  | send =>
    rw [Bcm2711.step] at hstep
    split at hstep
    · rw [Option.some_inj] at hstep
      subst hstep
      exact { h with }
    · cases hstep
  | store frame =>
    rw [Bcm2711.step] at hstep
    split at hstep
    · rw [Option.some_inj] at hstep
      subst hstep
      exact h.store _ (Nat.mod_lt _ (by decide))
    · cases hstep

end actions

/-! ### Runs -/

/-- Every accepted frame is sent once, in order, and the controller can go on with the next one.
Every received frame is delivered once, in order, and no call of `receive` has left one behind. -/
structure Integrity (s : State) : Prop where
  sent : s.sent <+: s.accepted
  armed : s.sent.length < s.accepted.length → (s.mem.txRing (s.sent.length % numDesc)).owned = true
  delivered : s.delivered <+: s.received
  missed : s.missed = 0

/-- The frame fits a buffer, and no received frame waits for `receive`. -/
def Meets (s : State) : Action → Prop
  | .transmit buf => buf.length ≤ bufSize
  | .receive => s.received.length ≤ s.delivered.length
  | _ => True

structure Inv (d : Nat) (s : State) : Prop where
  rx : RxInv d s
  tx : TxInv d s
  missed : s.missed = 0

theorem Inv.integrity {d : Nat} {s : State} (h : Inv d s) : Integrity s where
  sent := h.tx.sent ▸ List.take_prefix _ _
  armed hlt := by
    have hdesc := (h.tx.flight _ _ (Nat.le_refl _) (List.getElem?_eq_getElem hlt)).2.1
    rw [hdesc]
    exact owned_txDesc _ _
  delivered := h.rx.delivered ▸ List.nil_prefix
  missed := h.missed

theorem Inv.step {d : Nat} (hlow : Low d) {s s' : State} {a : Action} (h : Inv d s) (hmeets : Meets s a)
    (hstep : step s a = some s') : Inv d s' := by
  have hrx := h.rx.step hstep
  cases a with
  | transmit buf =>
    rw [Bcm2711.step, if_pos h.rx.slice, Option.some_inj] at hstep
    subst hstep
    refine ⟨hrx, ?_, h.missed⟩
    obtain hfull | ⟨hroom, regs, hdone⟩ := h.tx.transmit h.rx hmeets
    · rw [hfull]
      exact h.tx
    · rw [hdone]
      exact h.tx.accept hmeets hroom regs
  | checkTxCompletions =>
    rw [Bcm2711.step, if_pos h.rx.slice, Option.some_inj] at hstep
    subst hstep
    exact ⟨hrx, h.tx.checkTxCompletions, h.missed⟩
  | receive =>
    have hnone : ¬s.delivered.length < s.received.length := Nat.not_lt.mpr hmeets
    rw [Bcm2711.step, if_pos h.rx.slice, receive_eq h.rx, Option.some_inj] at hstep
    subst hstep
    exact ⟨hrx, { h.tx with }, (if_neg fun h => hnone h.2).trans h.missed⟩
  | copy =>
    rw [Bcm2711.step, h.rx.slice] at hstep
    cases hstep
  | send =>
    rw [Bcm2711.step] at hstep
    split at hstep
    · next howned =>
      rw [Option.some_inj] at hstep
      subst hstep
      exact ⟨hrx, h.tx.send hlow howned, h.missed⟩
    · cases hstep
  | store frame =>
    have hi := Nat.mod_lt s.received.length (by decide : 0 < numDesc)
    obtain ⟨len, flags, -, hdesc⟩ := h.rx.desc _ hi
    rw [Bcm2711.step] at hstep
    split at hstep
    · rw [Option.some_inj] at hstep
      subst hstep
      refine ⟨hrx, ?_, h.missed⟩
      rw [hdesc]
      exact h.tx.store hlow hi _ _
    · cases hstep

/-- In every run whose frames fit their buffers and in which `receive` is not called while a
received frame waits. -/
theorem frames_kept {d : Nat} (hlow : Low d) {m : Mem} {s : State}
    (h : Steps step Meets (start d m) s) : Integrity s :=
  (h.keeps (fun hinv hmeets hstep => Inv.step hlow hinv hmeets hstep)
    ⟨rxInv_start d m, txInv_start d m, rfl⟩).integrity

def zeroMem : Mem := ⟨fun _ => 0, fun _ => ⟨0, 0, 0⟩, fun _ => ⟨0, 0, 0⟩, fun _ => 0⟩

/-- Two frames are accepted and sent, and one is stored before `receive` is called. -/
theorem frames_kept_send : ∃ s, Steps step Meets (start 0 zeroMem) s ∧ s.sent = [[0x2a], [0x17, 0x18]] ∧
    s.received = [[0x05]] ∧ Integrity s := by
  have hsends : ([Action.transmit [0x2a], .transmit [0x17, 0x18], .send, .store [0x05],
      .send].foldlM step (start 0 zeroMem)).map (fun s : State => (s.sent, s.received)) =
    some ([[0x2a], [0x17, 0x18]], [[0x05]]) := by
    decide +kernel
  obtain ⟨s, hs, hstate⟩ := Option.map_eq_some_iff.mp hsends
  rw [Prod.mk.injEq] at hstate
  have hrun : Steps step Meets (start 0 zeroMem) s := Steps.of_foldlM (by simp [Meets, bufSize]) hs
  exact ⟨s, hrun, hstate.1, hstate.2, frames_kept (by unfold Low numDesc bufSize; omega) hrun⟩

/-- A frame of one byte is received, and `receive` finds nothing. -/
theorem frame_missed : ¬∀ (d : Nat) (m : Mem) (s : State), Low d → Steps step (fun _ _ => True)
    (start d m) s → Integrity s := by
  intro h
  obtain ⟨s, hs, hmissed⟩ : ∃ s,
    [Action.store [0x2a], .receive].foldlM step (start 0 zeroMem) = some s ∧ s.missed = 1 :=
    ⟨_, rfl, rfl⟩
  have hkept := h 0 zeroMem s (by unfold Low numDesc bufSize; omega)
    (Steps.of_foldlM (fun _ _ _ => trivial) hs)
  rw [hkept.missed] at hmissed
  cases hmissed

end Lerux.Bcm2711
