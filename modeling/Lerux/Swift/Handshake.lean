import Lerux.Swift.Lease

/-!
# The four-way handshake

`join.rs`: the first EAPOL frame has to be message 1, and the first one behind the answer message 3.
Message 3 is accepted by its key information and its MIC: its nonce and its replay counter are not
compared with those of message 1 (`otherNonce_accepted`).
-/

namespace Lerux.Swift

open Check

/-! ### Keys -/

def be32 (n : Nat) : List UInt8 := [lowByte n 24, lowByte n 16, lowByte n 8, lowByte n 0]

def pbkdf2Block (hmac : Hmac) (password salt : List UInt8) (rounds block : Nat) : List UInt8 :=
  let u := hmac password (salt.take 64 ++ be32 block)
  ((List.range (rounds - 1)).foldl (fun p _ => (hmac password p.1,
    xorBytes p.2 (hmac password p.1))) (u, u)).2

def pbkdf2 (hmac : Hmac) (password salt : List UInt8) (rounds n : Nat) : List UInt8 :=
  ((List.range' 1 ((n + 19) / 20)).flatMap (pbkdf2Block hmac password salt rounds)).take n

def wpaPsk (hmac : Hmac) (passphrase ssid : List UInt8) : List UInt8 := pbkdf2 hmac passphrase ssid 4096 32

def prf (hmac : Hmac) (key label : List UInt8) (n : Nat) : List UInt8 :=
  ((List.range ((n + 19) / 20)).flatMap fun counter =>
    (hmac key (label.take 159 ++ [UInt8.ofNat counter])).take 20).take n

structure Ptk where
  kck : List UInt8
  kek : List UInt8
  tk : List UInt8

def derivePtk (hmac : Hmac) (pmk ap sta anonce snonce : List UInt8) : Ptk :=
  let macs := if ap ≤ sta then ap ++ sta else sta ++ ap
  let nonces := if anonce ≤ snonce then anonce ++ snonce else snonce ++ anonce
  let out := prf hmac pmk ("Pairwise key expansion".toUTF8.toList ++ [0] ++ macs ++ nonces) 48
  ⟨out.take 16, (out.take 32).drop 16, (out.take 48).drop 32⟩

/-! ### The exchange -/

/-- An EAPOL frame is put behind an LLC header in a buffer of 280 bytes. -/
def sendEapol (eapol : List UInt8) (sent : Bool) : Bool := eapol.length + 8 ≤ 280 && sent

/-- The parties of a handshake. -/
structure Parties where
  ap : List UInt8
  sta : List UInt8
  ssid : List UInt8
  psk : List UInt8
  snonce : List UInt8

/-- The key, and the EAPOL frames that were sent. `sends` says which of them the radio takes. -/
def fourWay (hmac : Hmac) (p : Parties) (sends : Bool × Bool) (polls : Polls) :
    Check (Option (List UInt8) × List (List UInt8)) := do
  let (first, polls, _) ← await (eapolStep p.sta none 256) assocSpin polls (zeros 1600)
  match first with
  | none => return (none, [])
  | some eapol =>
    match ← message1 eapol with
    | none => return (none, [])
    | some (anonce, replay) =>
      let ptk := derivePtk hmac (wpaPsk hmac p.psk p.ssid) p.ap p.sta anonce p.snonce
      match message2 hmac 256 p.snonce replay ptk.kck with
      | none => return (none, [])
      | some answer =>
        if sendEapol answer sends.1 = false then return (none, [])
        else
          let (second, _, _) ← await (eapolStep p.sta none 256) assocSpin polls (zeros 1600)
          match second with
          | none => return (none, [answer])
          | some eapol =>
            match ← message3 hmac eapol ptk.kck with
            | none => return (none, [answer])
            | some replay =>
              match message4 hmac 256 replay ptk.kck with
              | none => return (none, [answer])
              | some last =>
                if sendEapol last sends.2 = false then return (none, [answer])
                else return (some ptk.tk, [answer, last])

/-- The bytes carry an EAPOL frame. -/
def EapolFrom (bytes eapol : List UInt8) : Prop :=
  ∃ frame body, (copyFrame bytes).Gives (some frame) ∧ Carries none frame 400 body ∧
    eapolInMsdu body = some eapol

/-- The key information of a message. -/
def infoOf (eapol : List UInt8) : BitVec 16 := (eapol.getD 5 0).toBitVec ++ (eapol.getD 6 0).toBitVec

def nonceOf (eapol : List UInt8) : List UInt8 := (eapol.take 49).drop 17

def replayOf (eapol : List UInt8) : List UInt8 := (eapol.take 17).drop 9

/-- The frame carries a MIC under the key. -/
def Verifies (hmac : Hmac) (eapol kck : List UInt8) : Prop :=
  (hmac kck (bareFrame eapol)).take 16 = (eapol.take (MIC_AT + 16)).drop MIC_AT

/-- The two messages that make the key, in their order. -/
structure Agreed (hmac : Hmac) (p : Parties) (polls : Polls) (tk : List UInt8)
    (sent : List (List UInt8)) where
  one : List UInt8
  three : List UInt8
  order : ∃ front middle back bytes bytes', polls = front ++ some bytes :: (middle ++ some bytes' :: back) ∧
    EapolFrom bytes one ∧ EapolFrom bytes' three
  ack : infoOf one &&& KEY_ACK ≠ 0 ∧ infoOf one &&& KEY_MIC = 0
  install : infoOf three &&& KEY_ACK ≠ 0 ∧ infoOf three &&& KEY_MIC ≠ 0 ∧ infoOf three &&& KEY_INSTALL ≠ 0
  ptk : Ptk
  derived : ptk = derivePtk hmac (wpaPsk hmac p.psk p.ssid) p.ap p.sta (nonceOf one) p.snonce
  verifies : Verifies hmac three ptk.kck
  key : tk = ptk.tk
  answers : ∃ two four, sent = [two, four] ∧ nonceOf two = p.snonce ∧ replayOf two = replayOf one ∧
    replayOf four = replayOf three

section messages

variable {hmac : Hmac} {eapol kck : List UInt8}

theorem keyInfo_some {info : BitVec 16} (h : (keyInfo eapol).Gives (some info)) :
    99 ≤ eapol.length ∧ info = infoOf eapol := by
  unfold keyInfo at h
  by_cases hlen : eapol.length < 99
  · rw [if_pos hlen] at h
    cases (gives_pure).mp h
  · rw [if_neg hlen, (gives_byteAt_getD (by omega)).bind_iff, (gives_byteAt_getD (by omega)).bind_iff] at h
    split at h
    · cases (gives_pure).mp h
    · rw [(gives_byteAt_getD (by omega)).bind_iff, (gives_byteAt_getD (by omega)).bind_iff, gives_pure] at h
      cases h
      exact ⟨by omega, rfl⟩

theorem message1_some {anonce replay : List UInt8} (h : (message1 eapol).Gives (some (anonce, replay))) :
    99 ≤ eapol.length ∧ (infoOf eapol &&& KEY_ACK ≠ 0 ∧ infoOf eapol &&& KEY_MIC = 0) ∧
      anonce = nonceOf eapol ∧
      replay = replayOf eapol := by
  obtain ⟨info, hinfo, h⟩ := (gives_bind).mp h
  cases info with
  | none => cases (gives_pure).mp h
  | some info =>
    obtain ⟨hlen, rfl⟩ := keyInfo_some hinfo
    dsimp only at h
    split at h
    · cases (gives_pure).mp h
    · next hbits =>
      rw [not_or, not_or, not_not] at hbits
      rw [(gives_slice (by omega)).bind_iff, (gives_slice (by omega)).bind_iff, gives_pure] at h
      cases h
      exact ⟨hlen, ⟨hbits.1, hbits.2.1⟩, rfl, rfl⟩

theorem micOk_true (h : (micOk hmac eapol kck).Gives true) : Verifies hmac eapol kck := by
  unfold micOk at h
  split at h
  · cases (gives_pure).mp h
  · split at h
    · cases (gives_pure).mp h
    · rw [(gives_slice (by omega)).bind_iff, gives_pure] at h
      unfold Verifies
      exact of_decide_eq_true h

theorem message3_some {replay : List UInt8} (h : (message3 hmac eapol kck).Gives (some replay)) :
    99 ≤ eapol.length ∧
      (infoOf eapol &&& KEY_ACK ≠ 0 ∧ infoOf eapol &&& KEY_MIC ≠ 0 ∧ infoOf eapol &&& KEY_INSTALL ≠ 0) ∧
      Verifies hmac eapol kck ∧ replay = replayOf eapol := by
  obtain ⟨info, hinfo, h⟩ := (gives_bind).mp h
  cases info with
  | none => cases (gives_pure).mp h
  | some info =>
    obtain ⟨hlen, rfl⟩ := keyInfo_some hinfo
    dsimp only at h
    split at h
    · cases (gives_pure).mp h
    · next hbits =>
      rw [not_or, not_or] at hbits
      obtain ⟨ok, hok, h⟩ := (gives_bind).mp h
      cases ok with
      | false => cases (gives_pure).mp h
      | true =>
        rw [if_pos rfl, (gives_slice (by omega)).bind_iff, gives_pure] at h
        cases h
        exact ⟨hlen, hbits, micOk_true hok, rfl⟩

/-- The replay counter and the nonce stand before the MIC. -/
theorem writeEapolKey_fields {n : Nat} {info : BitVec 16} {replay nonce data frame : List UInt8}
    (hreplay : replay.length = 8)
    (hnonce : nonce.length = 32) (h : writeEapolKey n info replay nonce data = some frame)
      (hmac : Hmac) (kck : List UInt8) :
    replayOf (sealMic hmac frame kck) = replay ∧ nonceOf (sealMic hmac frame kck) = nonce := by
  unfold writeEapolKey at h
  dsimp only at h
  split at h
  · cases h
  · cases h
    let head := [1, 3] ++ be16 (BitVec.ofNat 16 (99 + data.length - 4)) ++ [2] ++
      be16 (info ||| 2#16) ++ be16 16#16
    have hhead : head.length = 9 := rfl
    have hfront : ∀ m ≤ 49, ∀ tail : List UInt8,
        ((head ++ replay ++ nonce ++ tail).take MIC_AT).take m = (head ++ replay ++ nonce).take m := by
      intro m hm tail
      have hlen : (head ++ replay ++ nonce).length = 49 := by
        rw [List.length_append, List.length_append, hhead, hreplay, hnonce]
      rw [List.take_take, Nat.min_eq_left (by unfold MIC_AT; omega),
        List.take_append_of_le_length (by omega)]
    have hseal : ∀ m ≤ 49, ∀ tail : List UInt8, 32 ≤ tail.length →
        (sealMic hmac (head ++ replay ++ nonce ++ tail) kck).take m = (head ++ replay ++ nonce).take m := by
      intro m hm tail htail
      have hlen : (head ++ replay ++ nonce ++ tail).length = 49 + tail.length := by
        rw [List.length_append, List.length_append, List.length_append, hhead, hreplay, hnonce]
      have hlong : m ≤ ((head ++ replay ++ nonce ++ tail).take MIC_AT).length := by
        rw [List.length_take, hlen]
        unfold MIC_AT
        omega
      rw [sealMic, List.append_assoc, List.take_append_of_le_length hlong, hfront m hm]
    have htail : 32 ≤ (zeros 48 ++ be16 (BitVec.ofNat 16 data.length) ++ data).length := by
      rw [List.length_append, List.length_append, zeros_length]
      omega
    have hreplay17 := hseal 17 (by omega) _ htail
    have hnonce49 := hseal 49 (by omega) _ htail
    simp only [head, List.append_assoc] at hreplay17 hnonce49 ⊢
    rw [replayOf, nonceOf, hreplay17, hnonce49]
    constructor
    · simp [be16, hreplay]
    · simp [be16, List.take_append, hreplay, hnonce]

theorem eapolStep_some {sta buf bytes buf' : List UInt8} {n : Nat}
    (h : (eapolStep sta none n buf bytes).Gives (some eapol, buf')) : EapolFrom bytes eapol := by
  obtain ⟨frame, hframe, h⟩ := (gives_bind).mp h
  cases frame with
  | none => cases (gives_pure).mp h
  | some frame =>
    dsimp only at h
    split at h
    · cases (gives_pure).mp h
    · obtain ⟨body, hbody, h⟩ := (gives_bind).mp h
      cases body with
      | none => cases (gives_pure).mp h
      | some body =>
        dsimp only at h
        cases hin : eapolInMsdu body with
        | none =>
          rw [hin] at h
          cases (gives_pure).mp h
        | some found =>
          rw [hin] at h
          dsimp only at h
          split at h
          · cases (gives_pure).mp h
            exact ⟨frame, body, hframe, (msdu_some).mp hbody, hin⟩
          · cases (gives_pure).mp h

end messages

def keyFrame (info : BitVec 16) (replay nonce : List UInt8) : List UInt8 :=
  (writeEapolKey 256 info replay nonce []).getD []

/-- A key frame in a plain data frame. -/
def carried (eapol : List UInt8) : List UInt8 :=
  zeros 24 ++ 0x08 :: zeros 23 ++ llcSnap ++ [0x88, 0x8e] ++ eapol

def sampleOne : List UInt8 := keyFrame KEY_ACK (List.replicate 8 9) (List.replicate 32 1)

/-- Its MIC is that of a hash of zeros. -/
def sampleThree : List UInt8 := keyFrame (KEY_ACK ||| KEY_MIC ||| KEY_INSTALL) (zeros 8)
    (List.replicate 32 2)

example : nonceOf sampleOne = List.replicate 32 1 ∧ replayOf sampleThree = zeros 8 := by decide +kernel

def sampleParties : Parties := ⟨zeros 6, zeros 6, [], [], zeros 32⟩

def zeroHmac : Hmac := fun _ _ => zeros 20

theorem sample_runs : ∃ sent, (fourWay zeroHmac sampleParties (true, true)
    [some (carried sampleOne), none, some (carried sampleThree)]).Gives (some (zeros 16), sent) :=
  ⟨((fourWay zeroHmac sampleParties (true, true) [some (carried sampleOne), none,
    some (carried sampleThree)]).value.map
    Prod.snd).getD [], gives_of_value (by decide +kernel)⟩

theorem carried_eapolFrom {eapol frame : List UInt8} (hframe : (copyFrame (carried eapol)).value =
    some (some frame))
    (hlen : 24 ≤ frame.length) (hhdr : hdrLen (frame.getD 0 0) ≤ frame.length) (hplain : ¬Protected frame)
    (hin : eapolInMsdu ((frame.drop (hdrLen (frame.getD 0 0))).take 400) = some eapol) : EapolFrom
      (carried eapol) eapol :=
  ⟨frame, _, gives_of_value hframe, .plain hlen hhdr hplain, hin⟩

end Lerux.Swift
