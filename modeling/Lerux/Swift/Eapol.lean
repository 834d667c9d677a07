import Lerux.Base.Check

/-!
# The messages of the handshake

`wpa.rs`: an EAPOL key frame has its key information at 5, the replay counter at 9, a nonce at 17
and the MIC at 81. The MIC is the first 16 bytes of a keyed hash of the frame with zeros in its
place.
-/

namespace Lerux.Swift

open Check

/-- HMAC-SHA1, from the key and the text. -/
abbrev Hmac := List UInt8 → List UInt8 → List UInt8

def KEY_PAIR : BitVec 16 := 1#16 <<< 3
def KEY_INSTALL : BitVec 16 := 1#16 <<< 6
def KEY_ACK : BitVec 16 := 1#16 <<< 7
def KEY_MIC : BitVec 16 := 1#16 <<< 8
def KEY_SECURE : BitVec 16 := 1#16 <<< 9

def MIC_AT : Nat := 81

def zeros (n : Nat) : List UInt8 := List.replicate n 0

@[simp] theorem zeros_length (n : Nat) : (zeros n).length = n := List.length_replicate

def be16 (n : BitVec 16) : List UInt8 := [UInt8.ofBitVec (n.extractLsb' 8 8),
    UInt8.ofBitVec (n.extractLsb' 0 8)]

def keyInfo (eapol : List UInt8) : Check (Option (BitVec 16)) :=
  if eapol.length < 99 then pure none
  else do
    let kind ← byteAt eapol 1
    let descriptor ← byteAt eapol 4
    if kind ≠ 3 ∨ descriptor ≠ 2 then return none
    else
      let high ← byteAt eapol 5
      let low ← byteAt eapol 6
      return some (high.toBitVec ++ low.toBitVec)

/-- The frame with zeros in the place of its MIC. -/
def bareFrame (eapol : List UInt8) : List UInt8 := eapol.take MIC_AT ++ zeros 16 ++ eapol.drop (MIC_AT + 16)

def micOk (hmac : Hmac) (eapol kck : List UInt8) : Check Bool :=
  if eapol.length < MIC_AT + 16 then pure false
  else if 512 < eapol.length then pure false
  else do
    let mic ← slice eapol MIC_AT (MIC_AT + 16)
    return decide ((hmac kck (bareFrame eapol)).take 16 = mic)

/-- The nonce of the access point and the replay counter. -/
def message1 (eapol : List UInt8) : Check (Option (List UInt8 × List UInt8)) := do
  let some info ← keyInfo eapol | return none
  if info &&& KEY_ACK = 0 ∨ info &&& KEY_MIC ≠ 0 ∨ info &&& 7#16 ≠ 2#16 then return none
  else
    let anonce ← slice eapol 17 49
    let replay ← slice eapol 9 17
    return some (anonce, replay)

def message3 (hmac : Hmac) (eapol kck : List UInt8) : Check (Option (List UInt8)) := do
  let some info ← keyInfo eapol | return none
  if info &&& KEY_ACK = 0 ∨ info &&& KEY_MIC = 0 ∨ info &&& KEY_INSTALL = 0 then return none
  else
    let ok ← micOk hmac eapol kck
    if ok then
      let replay ← slice eapol 9 17
      return some replay
    else return none

/-- The key frame without its MIC. -/
def writeEapolKey (outLen : Nat) (info : BitVec 16) (replay nonce data : List UInt8) :
    Option (List UInt8) :=
  let n := 99 + data.length
  if outLen < n then none
  else some ([1, 3] ++ be16 (BitVec.ofNat 16 (n - 4)) ++ [2] ++ be16 (info ||| 2#16) ++
    be16 16#16 ++ replay ++ nonce ++
    zeros 48 ++ be16 (BitVec.ofNat 16 data.length) ++ data)

def sealMic (hmac : Hmac) (frame kck : List UInt8) : List UInt8 :=
  frame.take MIC_AT ++ (hmac kck frame).take 16 ++ frame.drop (MIC_AT + 16)

def message2 (hmac : Hmac) (outLen : Nat) (snonce replay kck : List UInt8) : Option (List UInt8) :=
  (writeEapolKey outLen (KEY_PAIR ||| KEY_MIC) replay snonce []).map fun frame => sealMic hmac frame kck

def message4 (hmac : Hmac) (outLen : Nat) (replay kck : List UInt8) : Option (List UInt8) :=
  (writeEapolKey outLen (KEY_PAIR ||| KEY_MIC ||| KEY_SECURE) replay (zeros 32) []).map fun frame =>
    sealMic hmac frame kck

section runs

variable {hmac : Hmac} {eapol kck : List UInt8}

theorem keyInfo_spec (eapol : List UInt8) : ∃ info, (keyInfo eapol).Gives info ∧
    (info ≠ none → 99 ≤ eapol.length) := by
  unfold keyInfo
  by_cases hlen : eapol.length < 99
  · exact ⟨none, by rw [if_pos hlen]; exact (gives_pure).mpr rfl, by simp⟩
  · rw [if_neg hlen, exists_congr fun info => by
      rw [(gives_byteAt_getD (by omega)).bind_iff, (gives_byteAt_getD (by omega)).bind_iff]]
    by_cases hkind : eapol.getD 1 0 ≠ 3 ∨ eapol.getD 4 0 ≠ 2
    · exact ⟨none, by rw [if_pos hkind]; exact (gives_pure).mpr rfl, by simp⟩
    · refine ⟨some ((eapol.getD 5 0).toBitVec ++ (eapol.getD 6 0).toBitVec), ?_, fun _ => by omega⟩
      rw [if_neg hkind, (gives_byteAt_getD (by omega)).bind_iff, (gives_byteAt_getD (by omega)).bind_iff]
      exact (gives_pure).mpr rfl

theorem micOk_runs (hmac : Hmac) (eapol kck : List UInt8) : (micOk hmac eapol kck).Runs := by
  unfold micOk
  rw [runs_ite]
  refine ⟨fun _ => runs_pure, fun hlen => (runs_ite).mpr ⟨fun _ => runs_pure, fun _ => ?_⟩⟩
  rw [(gives_slice (by omega)).runs_bind_iff]
  exact runs_pure

theorem message1_runs (eapol : List UInt8) : (message1 eapol).Runs := by
  obtain ⟨info, hinfo, hlen⟩ := keyInfo_spec eapol
  rw [message1, hinfo.runs_bind_iff]
  cases info with
  | none => exact runs_pure
  | some info =>
    have := hlen (by simp)
    refine (runs_ite).mpr ⟨fun _ => runs_pure, fun _ => ?_⟩
    rw [(gives_slice (by omega)).runs_bind_iff, (gives_slice (by omega)).runs_bind_iff]
    exact runs_pure

theorem message3_runs (hmac : Hmac) (eapol kck : List UInt8) : (message3 hmac eapol kck).Runs := by
  obtain ⟨info, hinfo, hlen⟩ := keyInfo_spec eapol
  rw [message3, hinfo.runs_bind_iff]
  cases info with
  | none => exact runs_pure
  | some info =>
    have := hlen (by simp)
    refine (runs_ite).mpr ⟨fun _ => runs_pure, fun _ => ?_⟩
    obtain ⟨ok, hok⟩ := micOk_runs hmac eapol kck
    rw [hok.runs_bind_iff, runs_ite]
    refine ⟨fun _ => ?_, fun _ => runs_pure⟩
    rw [(gives_slice (by omega)).runs_bind_iff]
    exact runs_pure

end runs

end Lerux.Swift
