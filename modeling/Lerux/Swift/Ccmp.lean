import Lerux.Base.Check
import Lerux.Swift.Aes

/-!
# The frame cipher of the station

`wpa.rs`: a data frame is sealed and opened with the temporal key. A header is 24 bytes, or 26 where
it has a QoS control field. The bytes after a buffer's used part are never read here, so that an
output is its used part.
-/

namespace Lerux.Swift

open Check

/-- `u64_byte` and `usize_byte` -/
def lowByte (value shift : Nat) : UInt8 := UInt8.ofNat ((value >>> shift) &&& 0xff)

def writeCcmpHdr (pn : Nat) : List UInt8 :=
  [lowByte pn 0, lowByte pn 8, 0, 0x20, lowByte pn 16, lowByte pn 24, lowByte pn 32, lowByte pn 40]

def readPn (hdr : List UInt8) : Nat :=
  (hdr.getD 0 0).toNat ||| (hdr.getD 1 0).toNat <<< 8 ||| (hdr.getD 4 0).toNat <<< 16 |||
    (hdr.getD 5 0).toNat <<< 24 |||
    (hdr.getD 6 0).toNat <<< 32 ||| (hdr.getD 7 0).toNat <<< 40

/-- The header has a QoS control field. -/
def isQos (hdr : List UInt8) : Bool := 26 ≤ hdr.length && hdr.getD 0 0 &&& 0x80 ≠ 0

def qosTid (hdr : List UInt8) : UInt8 := if isQos hdr then hdr.getD 24 0 &&& 0x0f else 0

/-- The masked frame control field. -/
def aadControl (low high : UInt8) (len : Nat) : BitVec 16 :=
  let fc : BitVec 16 := high.toBitVec ++ low.toBitVec
  let fc := fc &&& ~~~0x0070#16
  let fc := fc &&& ~~~(0x0800#16 ||| 0x1000#16 ||| 0x2000#16 ||| 0x4000#16)
  if len < 26 then fc &&& ~~~0x8000#16 else fc

/-- The additional data of a header. -/
def ccmpAad (hdr : List UInt8) : Check (List UInt8) := do
  let low ← byteAt hdr 0
  let high ← byteAt hdr 1
  let fc := aadControl low high hdr.length
  let a1 ← slice hdr 4 10
  let a2 ← slice hdr 10 16
  let a3 ← slice hdr 16 22
  let sc ← byteAt hdr 22
  let fixed := [UInt8.ofBitVec (fc.extractLsb' 0 8), UInt8.ofBitVec (fc.extractLsb' 8 8)] ++ a1 ++
    a2 ++ a3 ++ [sc &&& 0x0f, 0]
  if isQos hdr then
    let control ← byteAt hdr 24
    return fixed ++ [if control &&& 0x80 ≠ 0 then control &&& 0x0f ||| 0x80 else control &&& 0x0f, 0]
  else return fixed

def ccmpNonce (priority : UInt8) (a2 : List UInt8) (pn : Nat) : List UInt8 :=
  priority :: (a2 ++ (List.range 6).map fun i => lowByte pn (8 * (5 - i)))

/-- Up to 16 bytes, with zeros behind them. -/
def zeroPad (t : List UInt8) : List UInt8 := t.take 16 ++ List.replicate (16 - t.length) 0

/-- The data in chunks of 16 bytes, each added to the block and the sum enciphered. -/
def macFrom (key : List UInt8) : Nat → List UInt8 → List UInt8 → List UInt8
  | 0, block, _ => block
  | n + 1, block, data =>
    if data = [] then block
    else macFrom key n (aes128EncryptBlock key (xorBytes block (zeroPad (data.take 16)))) (data.drop 16)

def ccmMic (key nonce aad msdu : List UInt8) : List UInt8 :=
  let block := aes128EncryptBlock key (0x59 :: (nonce ++ [lowByte msdu.length 8, lowByte msdu.length 0]))
  let extra := lowByte aad.length 8 :: lowByte aad.length 0 :: aad.take 14
  let block := aes128EncryptBlock key (xorBytes block (zeroPad extra))
  let block := macFrom key aad.length block (aad.drop 14)
  (macFrom key msdu.length block msdu).take 8

/-- The counter is of 16 bits. -/
def ctrBlock (key nonce : List UInt8) (counter : Nat) : List UInt8 :=
  aes128EncryptBlock key (1 :: (nonce ++ [lowByte counter 8, lowByte counter 0]))

def ctrFrom (key nonce : List UInt8) : Nat → Nat → List UInt8 → List UInt8
  | 0, _, _ => []
  | n + 1, counter, data =>
    if data = [] then []
    else xorBytes (data.take 16) (ctrBlock key nonce counter) ++
      ctrFrom key nonce n ((counter + 1) % 2 ^ 16) (data.drop 16)

/-- The data, enciphered or deciphered. -/
def ctrData (key nonce data : List UInt8) : List UInt8 := ctrFrom key nonce data.length 1 data

def ctrMic (key nonce mic : List UInt8) : List UInt8 := xorBytes mic ((ctrBlock key nonce 0).take 8)

def ccmpEncrypt (tk hdr : List UInt8) (pn : Nat) (msdu : List UInt8) (outLen : Nat) :
    Check (Option (List UInt8)) :=
  if outLen < 8 + msdu.length + 8 ∨ hdr.length < 24 then pure none
  else do
    let a2 ← slice hdr 10 16
    let nonce := ccmpNonce (qosTid hdr) a2 pn
    let aad ← ccmpAad hdr
    let mic := ccmMic tk nonce aad msdu
    return some (writeCcmpHdr pn ++ (ctrData tk nonce msdu ++ ctrMic tk nonce mic))

def ccmpDecrypt (tk : List UInt8) (hdrLen : Nat) (frame : List UInt8) (outLen : Nat) :
    Check (Option (List UInt8)) :=
  if frame.length < hdrLen + 16 ∨ hdrLen < 24 then pure none
  else do
    let body ← slice frame (hdrLen + 8) (frame.length - 8)
    let mic ← slice frame (frame.length - 8) frame.length
    if outLen < body.length then return none
    else
      let ccmpHdr ← slice frame hdrLen (hdrLen + 8)
      let hdr ← slice frame 0 hdrLen
      let a2 ← slice frame 10 16
      let nonce := ccmpNonce (qosTid hdr) a2 (readPn ccmpHdr)
      let aad ← ccmpAad hdr
      let plain := ctrData tk nonce body
      let gotMic := ctrMic tk nonce mic
      if gotMic ≠ ccmMic tk nonce aad plain then return none else return some plain

section runs

variable {tk hdr frame : List UInt8} {hdrLen outLen : Nat}

theorem ccmpAad_runs (h : 24 ≤ hdr.length) : (ccmpAad hdr).Runs := by
  unfold ccmpAad
  rw [(gives_byteAt_getD (by omega)).runs_bind_iff, (gives_byteAt_getD (by omega)).runs_bind_iff,
    (gives_slice (by omega)).runs_bind_iff, (gives_slice (by omega)).runs_bind_iff,
      (gives_slice (by omega)).runs_bind_iff,
    (gives_byteAt_getD (by omega)).runs_bind_iff, runs_ite]
  refine ⟨fun hqos => ?_, fun _ => runs_pure⟩
  have hlong : 26 ≤ hdr.length := by
    unfold isQos at hqos
    simp only [Bool.and_eq_true, decide_eq_true_eq] at hqos
    exact hqos.1
  rw [(gives_byteAt_getD (by omega)).runs_bind_iff]
  exact runs_pure

theorem ccmpDecrypt_runs (tk : List UInt8) (hdrLen : Nat) (frame : List UInt8) (outLen : Nat) :
    (ccmpDecrypt tk hdrLen frame outLen).Runs := by
  unfold ccmpDecrypt
  rw [runs_ite]
  refine ⟨fun _ => runs_pure, fun hlen => ?_⟩
  rw [(gives_slice (by omega)).runs_bind_iff, (gives_slice (by omega)).runs_bind_iff, runs_ite]
  refine ⟨fun _ => runs_pure, fun _ => ?_⟩
  rw [(gives_slice (by omega)).runs_bind_iff, (gives_slice (by omega)).runs_bind_iff,
    (gives_slice (by omega)).runs_bind_iff]
  obtain ⟨aad, haad⟩ := @ccmpAad_runs ((frame.take hdrLen).drop 0) (by
    rw [List.drop_zero, List.length_take]
    omega)
  dsimp only
  rw [haad.runs_bind_iff]
  exact (runs_ite).mpr ⟨fun _ => runs_pure, fun _ => runs_pure⟩

theorem xorBytes_length (a b : List UInt8) : (xorBytes a b).length = min a.length b.length :=
  List.length_zipWith

theorem ctrFrom_length_le (key nonce : List UInt8) (n counter : Nat) (data : List UInt8) :
    (ctrFrom key nonce n counter data).length ≤ data.length := by
  induction n generalizing counter data with
  | zero => exact Nat.zero_le _
  | succ n ih =>
    rw [ctrFrom]
    split
    · exact Nat.zero_le _
    · have hrest := ih ((counter + 1) % 2 ^ 16) (data.drop 16)
      rw [List.length_drop] at hrest
      rw [List.length_append, xorBytes_length, List.length_take]
      omega

theorem ccmpDecrypt_length {body : List UInt8}
    (h : (ccmpDecrypt tk hdrLen frame outLen).Gives (some body)) :
    body.length + hdrLen + 16 ≤ frame.length := by
  unfold ccmpDecrypt at h
  by_cases hlen : frame.length < hdrLen + 16 ∨ hdrLen < 24
  · rw [if_pos hlen] at h
    cases (gives_pure).mp h
  · rw [if_neg hlen, (gives_slice (by omega)).bind_iff, (gives_slice (by omega)).bind_iff, gives_ite] at h
    by_cases hout : outLen < ((frame.take (frame.length - 8)).drop (hdrLen + 8)).length
    · cases (gives_pure).mp (h.1 hout)
    · obtain ⟨_, -, h⟩ := (gives_bind).mp (h.2 hout)
      obtain ⟨_, -, h⟩ := (gives_bind).mp h
      obtain ⟨_, -, h⟩ := (gives_bind).mp h
      obtain ⟨_, -, h⟩ := (gives_bind).mp h
      dsimp only at h
      split at h
      · cases (gives_pure).mp h
      · cases (gives_pure).mp h
        refine (Nat.add_le_add_right (Nat.add_le_add_right (ctrFrom_length_le _ _ _ _ _) hdrLen)
          16).trans ?_
        rw [List.length_drop, List.length_take]
        omega

end runs

end Lerux.Swift
