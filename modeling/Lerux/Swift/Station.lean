import Lerux.Swift.Ccmp
import Lerux.Swift.Dhcp
import Lerux.Swift.Eapol

/-!
# The receive path of the station

`join.rs` with the recognisers of `wpa.rs`: what is done with one received string of bytes at each
of the waits. A wait gives what it recognised, and its buffers as the frame left them.
-/

namespace Lerux.Swift

open Check

/-- The access point. -/
structure FoundAp where
  bssid : List UInt8
  channel : UInt8

/-- New bytes at the start of a buffer. -/
def overlay (new old : List UInt8) : List UInt8 := new ++ old.drop new.length

/-! ### The frame -/

/-- The words of a descriptor. -/
def rxdWords (rxd1 : Nat) : Nat :=
  6 + (if rxd1.testBit 14 then 4 else 0) + (if rxd1.testBit 11 then 4
    else 0) + (if rxd1.testBit 12 then 2 else 0) +
    (if rxd1.testBit 13 then 2 + (if rxd1.testBit 15 then 18 else 0) else 0)

/-- Where the frame begins behind the descriptor. -/
def frameOff (buf : List UInt8) : Check (Option Nat) :=
  if buf.length < 24 then pure none
  else do
    let rxd1 ← leAt buf 4 8
    let rxd2 ← leAt buf 8 12
    let off := rxdWords rxd1 * 4 + (rxd2 >>> 14 &&& 3) * 2
    if buf.length ≤ off then return none else return some off

/-- The frame, cut to the buffer of 1600 bytes. -/
def copyFrame (bytes : List UInt8) : Check (Option (List UInt8)) := do
  let some off ← frameOff bytes | return none
  return some ((bytes.drop off).take 1600)

/-! ### Recognisers -/

def beaconIes (ssid : List UInt8) : Nat → List UInt8 → UInt8 → Bool → Check (UInt8 × Bool)
  | 0, _, channel, saw => pure (channel, saw)
  | fuel + 1, ies, channel, saw =>
    if 2 ≤ ies.length then do
      let tag ← byteAt ies 0
      let len ← byteAt ies 1
      if ies.length < 2 + len.toNat then return (channel, saw)
      else
        let body ← slice ies 2 (2 + len.toNat)
        let saw := saw || (tag = 0 && body = ssid)
        let channel := if tag = 3 ∧ body.length = 1 then body.getD 0 0 else channel
        let rest ← slice ies (2 + len.toNat) ies.length
        beaconIes ssid fuel rest channel saw
    else pure (channel, saw)

/-- Every element takes 2 bytes at least, so that the length is turns enough. -/
def matchBeacon (frame ssid : List UInt8) : Check (Option FoundAp) :=
  if frame.length < 36 then pure none
  else do
    let control ← byteAt frame 0
    if control &&& 0xfc ≠ 0x80 then return none
    else
      let bssid ← slice frame 16 22
      let ies ← slice frame 36 frame.length
      let (channel, saw) ← beaconIes ssid ies.length ies 1 false
      if saw then return some ⟨bssid, channel⟩ else return none

/-- `a && b` -/
def andAlso (a : Bool) (b : Check Bool) : Check Bool := if a then b else pure false

/-- A byte that has to be zero or another value. -/
def byteIs (frame : List UInt8) (i : Nat) (value : UInt8) : Check Bool := do
  let b ← byteAt frame i
  return decide (b = value)

/-- A management frame to the station. -/
def mgmtTo (frame sta : List UInt8) (subtype : UInt8) : Check Bool :=
  if frame.length < 30 then pure false
  else do
    let control ← byteAt frame 0
    if control &&& 0xfc = subtype then
      let a1 ← slice frame 4 10
      return decide (a1 = sta)
    else return false

def allAre (frame : List UInt8) : List (Nat × UInt8) → Check Bool
  | [] => pure true
  | (i, value) :: rest => do
    let same ← byteIs frame i value
    andAlso same (allAre frame rest)

def authOk (frame sta : List UInt8) : Check Bool := do
  let found ← mgmtTo frame sta 0xb0
  andAlso found (allAre frame [(24, 0), (25, 0), (26, 2), (28, 0), (29, 0)])

def assocOk (frame sta : List UInt8) : Check Bool := do
  let found ← mgmtTo frame sta 0x10
  andAlso found (allAre frame [(26, 0)])

/-- The length of the header of a data frame. -/
def hdrLen (control : UInt8) : Nat := if control &&& 0x0c = 0x08 ∧ control &&& 0x80 ≠ 0 then 26 else 24

/-- The body of a frame, deciphered if the frame says that it is protected. -/
def msdu (frame : List UInt8) (tk : Option (List UInt8)) (outLen : Nat) : Check (Option (List UInt8)) :=
  if frame.length < 24 then pure none
  else do
    let control ← byteAt frame 0
    let hdr := hdrLen control
    let flags ← byteAt frame 1
    if flags &&& 0x40 ≠ 0 then
      match tk with
      | none => return none
      | some key => ccmpDecrypt key hdr frame outLen
    else
      let body ← slice frame hdr (hdr + min (frame.length - hdr) outLen)
      return some body

def llcSnap : List UInt8 := [0xaa, 0xaa, 0x03, 0x00, 0x00, 0x00]

/-- `strip_prefix` of the LLC header. -/
def llcPayload (msdu : List UInt8) : Option (List UInt8) :=
  if msdu.take 6 = llcSnap then some (msdu.drop 6) else none

def ethernetFromMsdu (msdu sta : List UInt8) (outLen : Nat) : Option (List UInt8) :=
  (llcPayload msdu).bind fun payload =>
    if outLen < 12 + payload.length then none else some (List.replicate 6 0xff ++ sta ++ payload)

def eapolInMsdu (msdu : List UInt8) : Option (List UInt8) :=
  (llcPayload msdu).bind fun rest => if rest.take 2 = [0x88, 0x8e] then some (rest.drop 2) else none

/-! ### The waits -/

/-- `find_ap` -/
def beaconStep (ssid bytes : List UInt8) : Check (Option FoundAp) := do
  let some frame ← copyFrame bytes | return none
  matchBeacon frame ssid

/-- `wait_frame` -/
def frameStep (pred : List UInt8 → Check Bool) (bytes : List UInt8) : Check Bool := do
  let some frame ← copyFrame bytes | return false
  pred frame

/-- `wait_eapol`, whose buffer keeps the end of a longer frame. The address is read from the buffer. -/
def eapolStep (sta : List UInt8) (tk : Option (List UInt8)) (outLen : Nat) (buf bytes : List UInt8) :
    Check (Option (List UInt8) × List UInt8) := do
  let some frame ← copyFrame bytes | return (none, buf)
  let buf := overlay frame buf
  if (buf.take 10).drop 4 ≠ sta then return (none, buf)
  else
    let some body ← msdu frame tk 400 | return (none, buf)
    match eapolInMsdu body with
    | none => return (none, buf)
    | some eapol => if eapol.length ≤ outLen then return (some eapol, buf) else return (none, buf)

/-- `wait_dhcp`, which writes the frame into the buffer of its caller. -/
def dhcpStep (sta key : List UInt8) (kind : UInt8) (ether bytes : List UInt8) :
    Check (Option (List UInt8 × List UInt8) × List UInt8) := do
  let some frame ← copyFrame bytes | return (none, ether)
  let some body ← msdu frame (some key) 400 | return (none, ether)
  match ethernetFromMsdu body sta ether.length with
  | none => return (none, ether)
  | some rebuilt =>
    let pair ← dhcpYiaddr rebuilt kind
    return (pair, overlay rebuilt ether)

/-- `echo` -/
def echoStep (sta key bytes : List UInt8) : Check Bool := do
  let some frame ← copyFrame bytes | return false
  let some body ← msdu frame (some key) 400 | return false
  match ethernetFromMsdu body sta 400 with
  | none => return false
  | some rebuilt => return icmpReply rebuilt

/-! ### Any bytes -/

section runs

variable {bytes frame sta ssid : List UInt8}

theorem frameOff_spec (bytes : List UInt8) : ∃ r, (frameOff bytes).Gives r := by
  unfold frameOff
  by_cases hlen : bytes.length < 24
  · exact ⟨none, by rw [if_pos hlen]; exact (gives_pure).mpr rfl⟩
  · rw [if_neg hlen]
    have hruns : (do
        let rxd1 ← leAt bytes 4 8
        let rxd2 ← leAt bytes 8 12
        let off := rxdWords rxd1 * 4 + (rxd2 >>> 14 &&& 3) * 2
        if bytes.length ≤ off then return none else return some off : Check (Option Nat)).Runs := by
      rw [(gives_leAt (by omega)).runs_bind_iff, (gives_leAt (by omega)).runs_bind_iff]
      exact (runs_ite).mpr ⟨fun _ => runs_pure, fun _ => runs_pure⟩
    exact hruns

theorem copyFrame_spec (bytes : List UInt8) :
    ∃ r, (copyFrame bytes).Gives r ∧ ∀ frame ∈ r, frame.length ≤ 1600 := by
  obtain ⟨off, hoff⟩ := frameOff_spec bytes
  cases off with
  | none => exact ⟨none, by rw [copyFrame, hoff.bind_iff, gives_pure], by simp⟩
  | some off =>
    refine ⟨some ((bytes.drop off).take 1600), by rw [copyFrame, hoff.bind_iff, gives_pure], ?_⟩
    intro frame hframe
    cases hframe
    rw [List.length_take]
    exact Nat.min_le_left _ _

theorem beaconIes_runs (fuel : Nat) (ies : List UInt8) (channel : UInt8) (saw : Bool) :
    (beaconIes ssid fuel ies channel saw).Runs := by
  induction fuel generalizing ies channel saw with
  | zero => exact runs_pure
  | succ fuel ih =>
    rw [beaconIes, runs_ite]
    refine ⟨fun hlen => ?_, fun _ => runs_pure⟩
    rw [(gives_byteAt_getD (by omega)).runs_bind_iff, (gives_byteAt_getD (by omega)).runs_bind_iff,
      runs_ite]
    refine ⟨fun _ => runs_pure, fun hbody => ?_⟩
    rw [(gives_slice (by omega)).runs_bind_iff]
    dsimp only
    rw [(gives_slice (by omega)).runs_bind_iff]
    exact ih _ _ _

theorem matchBeacon_runs (frame ssid : List UInt8) : (matchBeacon frame ssid).Runs := by
  unfold matchBeacon
  rw [runs_ite]
  refine ⟨fun _ => runs_pure, fun hlen => ?_⟩
  rw [(gives_byteAt_getD (by omega)).runs_bind_iff, runs_ite]
  refine ⟨fun _ => runs_pure, fun _ => ?_⟩
  rw [(gives_slice (by omega)).runs_bind_iff, (gives_slice (by omega)).runs_bind_iff]
  obtain ⟨found, hfound⟩ := @beaconIes_runs ssid ((frame.take frame.length).drop 36).length
    ((frame.take frame.length).drop 36)
    1 false
  rw [hfound.runs_bind_iff]
  exact (runs_ite).mpr ⟨fun _ => runs_pure, fun _ => runs_pure⟩

theorem allAre_runs (tests : List (Nat × UInt8)) (h : ∀ p ∈ tests, p.1 < frame.length) :
    (allAre frame tests).Runs := by
  induction tests with
  | nil => exact runs_pure
  | cons p tests ih =>
    rw [List.forall_mem_cons] at h
    have hbyte : (byteIs frame p.1 p.2).Runs := by
      rw [byteIs, (gives_byteAt_getD h.1).runs_bind_iff]
      exact runs_pure
    obtain ⟨same, hsame⟩ := hbyte
    rw [allAre, hsame.runs_bind_iff, andAlso, runs_ite]
    exact ⟨fun _ => ih h.2, fun _ => runs_pure⟩

theorem mgmtTo_spec (frame sta : List UInt8) (subtype : UInt8) :
    ∃ found, (mgmtTo frame sta subtype).Gives found ∧ (found = true → 30 ≤ frame.length) := by
  have hruns : (mgmtTo frame sta subtype).Runs := by
    unfold mgmtTo
    rw [runs_ite]
    refine ⟨fun _ => runs_pure, fun hlen => ?_⟩
    rw [(gives_byteAt_getD (by omega)).runs_bind_iff, runs_ite]
    refine ⟨fun _ => ?_, fun _ => runs_pure⟩
    rw [(gives_slice (by omega)).runs_bind_iff]
    exact runs_pure
  obtain ⟨found, hfound⟩ := hruns
  refine ⟨found, hfound, fun htrue => ?_⟩
  by_contra hshort
  rw [mgmtTo, if_pos (by omega), gives_pure] at hfound
  rw [← hfound] at htrue
  cases htrue

theorem authOk_runs (frame sta : List UInt8) : (authOk frame sta).Runs := by
  obtain ⟨found, hfound, hlen⟩ := mgmtTo_spec frame sta 0xb0
  rw [authOk, hfound.runs_bind_iff, andAlso, runs_ite]
  refine ⟨fun h => allAre_runs _ fun p hp => ?_, fun _ => runs_pure⟩
  have := hlen h
  simp only [List.mem_cons, List.not_mem_nil, or_false] at hp
  rcases hp with rfl | rfl | rfl | rfl | rfl
  all_goals dsimp only; omega

theorem assocOk_runs (frame sta : List UInt8) : (assocOk frame sta).Runs := by
  obtain ⟨found, hfound, hlen⟩ := mgmtTo_spec frame sta 0x10
  rw [assocOk, hfound.runs_bind_iff, andAlso, runs_ite]
  refine ⟨fun h => allAre_runs _ fun p hp => ?_, fun _ => runs_pure⟩
  have := hlen h
  rw [List.mem_singleton] at hp
  subst hp
  dsimp only
  omega

/-! ### Bodies -/

/-- The frame says that it is protected. -/
def Protected (frame : List UInt8) : Prop := frame.getD 1 0 &&& 0x40 ≠ 0

instance (frame : List UInt8) : Decidable (Protected frame) := inferInstanceAs (Decidable (_ ≠ _))

/-- A plain data frame that ends in its header. -/
def CutHeader (frame : List UInt8) : Prop :=
  24 ≤ frame.length ∧ frame.length < hdrLen (frame.getD 0 0) ∧ ¬Protected frame

/-- The body of a frame: its end, up to the buffer, or what the cipher accepts. -/
inductive Carries (tk : Option (List UInt8)) (frame : List UInt8) (outLen : Nat) : List UInt8 → Prop
  | plain (hlen : 24 ≤ frame.length) (hhdr : hdrLen (frame.getD 0 0) ≤ frame.length)
      (h : ¬Protected frame) :
    Carries tk frame outLen ((frame.drop (hdrLen (frame.getD 0 0))).take outLen)
  | opened {key body : List UInt8} (hlen : 24 ≤ frame.length) (h : Protected frame) (hkey : tk = some key)
    (hbody : (ccmpDecrypt key (hdrLen (frame.getD 0 0)) frame outLen).Gives
      (some body)) : Carries tk frame outLen body

theorem hdrLen_cases (control : UInt8) : hdrLen control = 24 ∨ hdrLen control = 26 := by
  unfold hdrLen
  split
  · exact .inr rfl
  · exact .inl rfl

theorem msdu_runs (frame : List UInt8) (tk : Option (List UInt8)) (outLen : Nat) :
    (msdu frame tk outLen).Runs ↔ ¬CutHeader frame := by
  unfold msdu CutHeader
  by_cases hlen : frame.length < 24
  · rw [if_pos hlen]
    exact iff_of_true runs_pure fun h => absurd h.1 (by omega)
  · rw [if_neg hlen, (gives_byteAt_getD (by omega)).runs_bind_iff]
    dsimp only
    rw [(gives_byteAt_getD (by omega)).runs_bind_iff]
    by_cases hprotected : frame.getD 1 0 &&& 0x40 ≠ 0
    · rw [if_pos hprotected]
      refine iff_of_true ?_ fun h => h.2.2 hprotected
      cases tk with
      | none => exact runs_pure
      | some key => exact ccmpDecrypt_runs key _ frame outLen
    · rw [if_neg hprotected]
      by_cases hhdr : frame.length < hdrLen (frame.getD 0 0)
      · refine iff_of_false (fun hruns => ?_) fun h => h ⟨by omega, hhdr, hprotected⟩
        obtain ⟨body, hbody, -⟩ := (runs_bind).mp hruns
        have := ((gives_slice_iff).mp hbody).1
        omega
      · refine iff_of_true ?_ fun h => hhdr h.2.1
        rw [(gives_slice (by omega)).runs_bind_iff]
        exact runs_pure

theorem drop_take_min (t : List UInt8) (n m : Nat) : (t.take (n + min (t.length - n) m)).drop n =
    (t.drop n).take m := by
  rw [← List.take_drop, List.take_eq_take_iff, List.length_drop]
  omega

theorem msdu_some {tk : Option (List UInt8)} {outLen : Nat} {body : List UInt8} :
    (msdu frame tk outLen).Gives (some body) ↔ Carries tk frame outLen body := by
  constructor
  · intro h
    unfold msdu at h
    by_cases hlen : frame.length < 24
    · rw [if_pos hlen, gives_pure] at h
      cases h
    · rw [if_neg hlen, (gives_byteAt_getD (by omega)).bind_iff] at h
      dsimp only at h
      rw [(gives_byteAt_getD (by omega)).bind_iff] at h
      by_cases hprotected : frame.getD 1 0 &&& 0x40 ≠ 0
      · rw [if_pos hprotected] at h
        cases tk with
        | none =>
          rw [gives_pure] at h
          cases h
        | some key => exact .opened (by omega) hprotected rfl h
      · rw [if_neg hprotected] at h
        obtain ⟨slice, hslice, heq⟩ := (gives_bind).mp h
        obtain ⟨hin, rfl⟩ := (gives_slice_iff).mp hslice
        rw [gives_pure] at heq
        cases heq
        rw [drop_take_min]
        exact .plain (by omega) (by omega) hprotected
  · intro h
    cases h with
    | plain hlen hhdr hplain =>
      unfold Protected at hplain
      rw [msdu, if_neg (by omega), (gives_byteAt_getD (by omega)).bind_iff]
      dsimp only
      rw [(gives_byteAt_getD (by omega)).bind_iff, if_neg hplain, (gives_slice (by omega)).bind_iff,
        drop_take_min,
        gives_pure]
    | opened hlen hprotected hkey hbody =>
      rw [msdu, if_neg (by omega), (gives_byteAt_getD (by omega)).bind_iff]
      dsimp only
      unfold Protected at hprotected
      rw [(gives_byteAt_getD (by omega)).bind_iff, if_pos hprotected, hkey]
      exact hbody

/-! ### What crashes -/

/-- The frame carries a reply of a kind that ends before the bytes where the server would be. -/
def ShortReply (tk : Option (List UInt8)) (sta frame : List UInt8) (kind : UInt8) : Prop :=
  ∃ body rebuilt, Carries tk frame 400 body ∧ ethernetFromMsdu body sta 400 = some rebuilt ∧
    FixedReply rebuilt kind ∧
    ¬ServerReadable rebuilt

theorem beaconStep_runs (ssid bytes : List UInt8) : (beaconStep ssid bytes).Runs := by
  obtain ⟨frame, hframe, -⟩ := copyFrame_spec bytes
  rw [beaconStep, hframe.runs_bind_iff]
  cases frame with
  | none => exact runs_pure
  | some frame => exact matchBeacon_runs frame ssid

theorem frameStep_runs {pred : List UInt8 → Check Bool} (h : ∀ frame, (pred frame).Runs)
    (bytes : List UInt8) :
    (frameStep pred bytes).Runs := by
  obtain ⟨frame, hframe, -⟩ := copyFrame_spec bytes
  rw [frameStep, hframe.runs_bind_iff]
  cases frame with
  | none => exact runs_pure
  | some frame => exact h frame

theorem overlay_address (frame buf : List UInt8) (h : 10 ≤ frame.length) :
    ((overlay frame buf).take 10).drop 4 = (frame.take 10).drop 4 := by
  rw [overlay, List.take_append_of_le_length h]

theorem eapolStep_runs (sta : List UInt8) (tk : Option (List UInt8)) (outLen : Nat)
    (buf bytes : List UInt8) :
    (eapolStep sta tk outLen buf bytes).Runs ↔
      ∀ frame, (copyFrame bytes).Gives (some frame) → (frame.take 10).drop 4 = sta → ¬CutHeader frame := by
  obtain ⟨r, hr, -⟩ := copyFrame_spec bytes
  rw [eapolStep, hr.runs_bind_iff]
  cases r with
  | none => exact iff_of_true runs_pure fun frame hframe => by cases hr.unique hframe
  | some frame =>
    have hall : (∀ frame', (copyFrame bytes).Gives (some frame') → (frame'.take 10).drop 4 = sta →
      ¬CutHeader frame') ↔
        ((frame.take 10).drop 4 = sta → ¬CutHeader frame) := by
      constructor
      · exact fun h => h frame hr
      · intro h frame' hframe
        cases hr.unique hframe
        exact h
    rw [hall]
    dsimp only
    by_cases hshort : frame.length < 24
    · refine iff_of_true ?_ fun _ hcut => absurd hcut.1 (by omega)
      have hnone : (msdu frame tk 400).Gives none := by
        rw [msdu, if_pos hshort, gives_pure]
      rw [runs_ite]
      refine ⟨fun _ => runs_pure, fun _ => ?_⟩
      rw [hnone.runs_bind_iff]
      exact runs_pure
    · rw [overlay_address frame buf (by omega), runs_ite]
      have hgo : (msdu frame tk 400).Runs ↔ _ := msdu_runs frame tk 400
      rw [← hgo]
      constructor
      · rintro ⟨-, hruns⟩ hsta
        obtain ⟨body, hbody, -⟩ := (runs_bind).mp (hruns (not_not.mpr hsta))
        exact hbody.runs
      · intro h
        refine ⟨fun _ => runs_pure, fun hsta => ?_⟩
        obtain ⟨body, hbody⟩ := h (not_not.mp hsta)
        rw [hbody.runs_bind_iff]
        cases body with
        | none => exact runs_pure
        | some body =>
          dsimp only
          cases eapolInMsdu body with
          | none => exact runs_pure
          | some eapol => exact (runs_ite).mpr ⟨fun _ => runs_pure, fun _ => runs_pure⟩

/-- What holds of the frame of some bytes. -/
theorem copyFrame_forall {P : List UInt8 → Prop} (h : (copyFrame bytes).Gives (some frame)) :
    (∀ frame', (copyFrame bytes).Gives (some frame') → P frame') ↔ P frame := by
  constructor
  · exact fun hall => hall frame h
  · intro hp frame' hframe
    cases h.unique hframe
    exact hp

theorem dhcpStep_runs {key ether : List UInt8} {kind : UInt8} (h : ether.length = 400) :
    (dhcpStep sta key kind ether bytes).Runs ↔
      ∀ frame, (copyFrame bytes).Gives (some frame) → ¬CutHeader frame ∧
        ¬ShortReply (some key) sta frame kind := by
  obtain ⟨r, hr, -⟩ := copyFrame_spec bytes
  rw [dhcpStep, hr.runs_bind_iff]
  cases r with
  | none => exact iff_of_true runs_pure fun frame hframe => by cases hr.unique hframe
  | some frame =>
    rw [copyFrame_forall hr, ← msdu_runs frame (some key) 400]
    dsimp only
    constructor
    · intro hruns
      obtain ⟨found, hfound, hrest⟩ := (runs_bind).mp hruns
      refine ⟨hfound.runs, ?_⟩
      rintro ⟨body, rebuilt, hbody, hrebuilt, hfixed, hshort⟩
      cases hfound.unique ((msdu_some).mpr hbody)
      dsimp only at hrest
      rw [h, hrebuilt] at hrest
      obtain ⟨pair, hpair, -⟩ := (runs_bind).mp hrest
      exact hshort ((dhcpYiaddr_runs).mp hpair.runs hfixed)
    · rintro ⟨⟨found, hfound⟩, hshort⟩
      rw [hfound.runs_bind_iff]
      cases found with
      | none => exact runs_pure
      | some body =>
        dsimp only
        rw [h]
        cases hrebuilt : ethernetFromMsdu body sta 400 with
        | none => exact runs_pure
        | some rebuilt =>
          have hyiaddr : (dhcpYiaddr rebuilt kind).Runs := (dhcpYiaddr_runs).mpr fun hfixed => by
            by_contra hread
            exact hshort ⟨body, rebuilt, (msdu_some).mp hfound, hrebuilt, hfixed, hread⟩
          obtain ⟨pair, hpair⟩ := hyiaddr
          dsimp only
          rw [hpair.runs_bind_iff]
          exact runs_pure

theorem echoStep_runs {key : List UInt8} :
    (echoStep sta key bytes).Runs ↔ ∀ frame, (copyFrame bytes).Gives (some frame) → ¬CutHeader frame := by
  obtain ⟨r, hr, -⟩ := copyFrame_spec bytes
  rw [echoStep, hr.runs_bind_iff]
  cases r with
  | none => exact iff_of_true runs_pure fun frame hframe => by cases hr.unique hframe
  | some frame =>
    rw [copyFrame_forall hr, ← msdu_runs frame (some key) 400]
    dsimp only
    constructor
    · intro hruns
      obtain ⟨found, hfound, -⟩ := (runs_bind).mp hruns
      exact hfound.runs
    · rintro ⟨found, hfound⟩
      rw [hfound.runs_bind_iff]
      cases found with
      | none => exact runs_pure
      | some body =>
        dsimp only
        cases ethernetFromMsdu body sta 400 with
        | none => exact runs_pure
        | some rebuilt => exact runs_pure

end runs

/-- The receive path ends on some bytes, at each of the waits. The key is that of the waits behind
the handshake. -/
structure Survives (hmac : Hmac) (ssid sta : List UInt8) (tk : Option (List UInt8))
    (bytes : List UInt8) : Prop where
  beacon : (beaconStep ssid bytes).Runs
  auth : (frameStep (authOk · sta) bytes).Runs
  assoc : (frameStep (assocOk · sta) bytes).Runs
  eapol : ∀ buf, (eapolStep sta tk 256 buf bytes).Runs
  messages : ∀ buf eapol buf' kck, (eapolStep sta tk 256 buf bytes).Gives (some eapol, buf') →
    (message1 eapol).Runs ∧ (message3 hmac eapol kck).Runs
  dhcp : ∀ key, tk = some key → ∀ kind ∈ [2, 5], ∀ ether : List UInt8, ether.length = 400 →
    (dhcpStep sta key kind ether bytes).Runs
  router : ∀ ether, (dhcpRouter ether).Runs
  echo : ∀ key, tk = some key → (echoStep sta key bytes).Runs

/-- The frame is looked into at a wait: it is addressed to the station, or there is a key. -/
def Looked (sta : List UInt8) (tk : Option (List UInt8)) (frame : List UInt8) : Prop :=
  (frame.take 10).drop 4 = sta ∨ tk.isSome

/-- A frame crashes the station exactly if it is a plain data frame that ends in its header, or
carries a reply that ends where the server would be. -/
theorem station_survives (hmac : Hmac) (ssid sta : List UInt8) (tk : Option (List UInt8))
    (bytes : List UInt8) :
    Survives hmac ssid sta tk bytes ↔ ∀ frame, (copyFrame bytes).Gives (some frame) →
      ¬(Looked sta tk frame ∧ CutHeader frame) ∧ ∀ kind ∈ [2, 5],
        ¬(tk.isSome ∧ ShortReply tk sta frame kind) := by
  constructor
  · intro h frame hframe
    refine ⟨?_, ?_⟩
    · rintro ⟨hlooked, hcut⟩
      rcases hlooked with hsta | hkey
      · exact (eapolStep_runs sta tk 256 (zeros 1600) bytes).mp (h.eapol _) frame hframe hsta hcut
      · obtain ⟨key, hkey⟩ := Option.isSome_iff_exists.mp hkey
        exact (echoStep_runs).mp (h.echo key hkey) frame hframe hcut
    · rintro kind hkind ⟨hkey, hshort⟩
      obtain ⟨key, hkey⟩ := Option.isSome_iff_exists.mp hkey
      rw [hkey] at hshort
      exact ((dhcpStep_runs (zeros_length 400)).mp (h.dhcp key hkey kind hkind (zeros 400)
        (zeros_length 400)) frame hframe).2 hshort
  · intro h
    refine ⟨beaconStep_runs ssid bytes, frameStep_runs (fun frame => authOk_runs frame sta) bytes,
      frameStep_runs (fun frame => assocOk_runs frame sta) bytes, fun buf => ?_,
      fun _ eapol _ kck _ => ⟨message1_runs eapol, message3_runs hmac eapol kck⟩, ?_, dhcpRouter_runs, ?_⟩
    · rw [eapolStep_runs]
      exact fun frame hframe hsta hcut => (h frame hframe).1 ⟨.inl hsta, hcut⟩
    · intro key hkey kind hkind ether hether
      rw [dhcpStep_runs hether]
      intro frame hframe
      refine ⟨fun hcut => (h frame hframe).1 ⟨.inr (by rw [hkey]; rfl), hcut⟩, fun hshort => ?_⟩
      rw [← hkey] at hshort
      exact (h frame hframe).2 kind hkind ⟨by rw [hkey]; rfl, hshort⟩
    · intro key hkey
      rw [echoStep_runs]
      exact fun frame hframe hcut => (h frame hframe).1 ⟨.inr (by rw [hkey]; rfl), hcut⟩

/-- A descriptor without options, and the 24 bytes of a QoS data frame that has no more. -/
def cutQos : List UInt8 := zeros 24 ++ 0x88 :: zeros 23

theorem cutQos_crashes : ¬Survives (fun _ _ => zeros 20) [] (zeros 6) none cutQos := by
  intro h
  have hframe : (copyFrame cutQos).Gives (some (0x88 :: zeros 23)) := ⟨0, rfl⟩
  exact (eapolStep_runs (zeros 6) none 256 (zeros 1600) cutQos).mp (h.eapol _) _ hframe rfl
    ⟨by decide, by decide, by decide⟩

end Lerux.Swift
