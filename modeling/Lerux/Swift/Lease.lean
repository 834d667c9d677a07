import Lerux.Swift.Station

/-!
# The lease and the ping

`join.rs`: a lease is a discover, an offer, a request and an acknowledgement; the router is looked
for in the whole buffer of 400 bytes. A frame that does not say that it is protected is taken as it
is, with the key or without, so that what the station gives comes from frames the cipher accepted
only where no such frame is a reply (`FairFrame`).
-/

namespace Lerux.Swift

open Check

/-! ### The requests -/

/-- The carries of a sum, added until it has 16 bits. -/
def foldCarry : Nat → Nat → Nat
  | 0, sum => sum
  | n + 1, sum => if 0xffff < sum then foldCarry n (sum % 0x10000 + sum / 0x10000) else sum

/-- The sum of the words of a header but the one at 10. A turn makes the sum smaller. -/
def ipChecksum (header : List UInt8) : BitVec 16 :=
  let sum := ((List.range (header.length / 2)).map fun i =>
    if i * 2 = 10 then 0 else (header.getD (i * 2) 0).toNat * 256 + (header.getD (i * 2 + 1) 0).toNat).sum
  ~~~(BitVec.ofNat 16 (foldCarry sum sum))

def writeDhcpHeaders (mac : List UInt8) : List UInt8 :=
  let udpLen : BitVec 16 := 8 + 240 + 16
  let front := [0x45, 0] ++ be16 (20 + udpLen) ++ zeros 4 ++ [64, 17]
  let back := zeros 4 ++ List.replicate 4 0xff
  List.replicate 6 0xff ++ mac ++ be16 0x0800 ++ front ++
    be16 (ipChecksum (front ++ zeros 2 ++ back)) ++ back ++ be16 68 ++
    be16 67 ++ be16 udpLen ++ zeros 2

def writeDhcp (mac yiaddr server : List UInt8) (kind : UInt8) : List UInt8 :=
  let boot := [1, 1, 6, 0] ++ [0x4c, 0x52, 0x55, 0x58] ++ zeros 8 ++ yiaddr ++ zeros 8 ++ mac ++
    zeros 202 ++
    [0x63, 0x82, 0x53, 0x63]
  let options := if kind = 3 then [50, 4] ++ yiaddr ++ [54, 4] ++ server else []
  writeDhcpHeaders mac ++ boot ++ [53, 1, kind] ++ options ++ [255]

def writeDiscover (mac : List UInt8) : List UInt8 := writeDhcp mac (zeros 4) (zeros 4) 1

def writeRequest (mac yiaddr server : List UInt8) : List UInt8 := writeDhcp mac yiaddr server 3

/-! ### The exchanges -/

/-- The turns of a wait. -/
def assocSpin : Nat := 40000000

/-- What the turns of the waits receive. -/
abbrev Polls := List (Option (List UInt8))

/-- A lease: the address and the gateway. `sends` says which of the requests the radio takes. -/
def lease (sta key : List UInt8) (sends : Bool × Bool) (polls : Polls) :
    Check (Option (List UInt8 × List UInt8)) :=
  if sends.1 = false then pure none
  else do
    let (offer, polls, ether) ← await (dhcpStep sta key 2) assocSpin polls
      (overlay (writeDiscover sta) (zeros 400))
    match offer with
    | none => return none
    | some (yiaddr, server) =>
      if sends.2 = false then return none
      else
        let (ack, _, ether) ← await (dhcpStep sta key 5) assocSpin polls
          (overlay (writeRequest sta yiaddr server) ether)
        match ack with
        | none => return none
        | some (addr, _) =>
          let router ← dhcpRouter ether
          return some (addr, router.getD (addr.take 3 ++ [1]))

/-- A ping: whether a reply was received. -/
def echo (sta key : List UInt8) (sent : Bool) (polls : Polls) : Check Bool :=
  if sent = false then pure false
  else do
    let step := fun (_ : Unit) bytes => do
      let found ← echoStep sta key bytes
      return (if found then some () else none, ())
    let (found, _) ← await step assocSpin polls ()
    return found.isSome

/-! ### Where the results come from -/

/-- The cipher accepts the frame, with a body that is an Ethernet frame. -/
def Opened (sta key frame rebuilt : List UInt8) : Prop :=
  ∃ body, Protected frame ∧ (ccmpDecrypt key (hdrLen (frame.getD 0 0)) frame 400).Gives (some body) ∧
    ethernetFromMsdu body sta 400 = some rebuilt

/-- The body of a frame that does not say that it is protected. -/
def Unopened (sta frame rebuilt : List UInt8) : Prop :=
  ∃ body, ¬Protected frame ∧ Carries none frame 400 body ∧ ethernetFromMsdu body sta 400 = some rebuilt

/-- A frame the cipher accepts supplies the address and the gateway. -/
def LeaseFrom (sta key frame addr gateway : List UInt8) : Prop :=
  ∃ rebuilt server router, Opened sta key frame rebuilt ∧
    (dhcpYiaddr rebuilt 5).Gives (some (addr, server)) ∧
    (dhcpRouter rebuilt).Gives router ∧ gateway = router.getD (addr.take 3 ++ [1])

/-- The options end in the frame, with an end or a router. -/
inductive TlvEnds : List UInt8 → Prop
  | stop (t : List UInt8) : TlvEnds (255 :: t)
  | router {t : List UInt8} (h : 4 ≤ t.length) : TlvEnds (3 :: 4 :: t)
  | next {code len : UInt8} {t : List UInt8} (hend : code ≠ 255) (hlen : len.toNat ≤ t.length)
      (hrest : TlvEnds (t.drop len.toNat)) :
    TlvEnds (code :: len :: t)

/-- A frame that is an acknowledgement or a reply to a ping is one the cipher accepts, and the
options of an acknowledgement end in it. -/
structure FairFrame (sta key frame : List UInt8) : Prop where
  ack : ∀ rebuilt, Unopened sta frame rebuilt → ¬FixedReply rebuilt 5
  reply : ∀ rebuilt, Unopened sta frame rebuilt → icmpReply rebuilt = false
  options : ∀ rebuilt, Opened sta key frame rebuilt → FixedReply rebuilt 5 → TlvEnds (rebuilt.drop 282)

section sources

variable {sta key frame rebuilt ether bytes : List UInt8}

theorem tlvRouter_append {t : List UInt8} (h : TlvEnds t) (tail addr : List UInt8) :
    TlvRouter (t ++ tail) addr ↔ TlvRouter t addr := by
  induction h with
  | stop t => exact iff_of_false (tlvRouter_end _ _) (tlvRouter_end _ _)
  | @router t h =>
    have hend : (3 : UInt8) ≠ 255 := by decide
    have hshort : (3 : UInt8) = 3 ∧ (4 : UInt8) = 4 ∧ 4 ≤ t.length := ⟨rfl, rfl, h⟩
    have hlong : (3 : UInt8) = 3 ∧ (4 : UInt8) = 4 ∧ 4 ≤ (t ++ tail).length :=
      ⟨rfl, rfl, by rw [List.length_append]; omega⟩
    rw [List.cons_append, List.cons_append, tlvRouter_cons, tlvRouter_cons, if_neg hend,
      if_neg hend, if_pos hlong,
      if_pos hshort, List.take_append_of_le_length h]
  | @next code len t hend hlen hrest ih =>
    rw [List.cons_append, List.cons_append, tlvRouter_cons, tlvRouter_cons, if_neg hend, if_neg hend]
    by_cases hrouter : code = 3 ∧ len = 4
    · have hfour : 4 ≤ t.length := by rwa [hrouter.2] at hlen
      have hlong : 4 ≤ (t ++ tail).length := by
        rw [List.length_append]
        omega
      rw [if_pos ⟨hrouter.1, hrouter.2, hlong⟩, if_pos ⟨hrouter.1, hrouter.2, hfour⟩,
        List.take_append_of_le_length hfour]
    · rw [if_neg fun h => hrouter ⟨h.1, h.2.1⟩, if_neg fun h => hrouter ⟨h.1, h.2.1⟩,
        List.drop_append_of_le_length hlen]
      exact ih

/-- The rest of the buffer does not matter where the options end in the frame. -/
theorem dhcpRouter_overlay (hlen : 282 ≤ rebuilt.length) (h : TlvEnds (rebuilt.drop 282)) (old : List UInt8)
    (r : Option (List UInt8)) : (dhcpRouter (overlay rebuilt old)).Gives r ↔
      (dhcpRouter rebuilt).Gives r := by
  obtain ⟨r₁, hr₁, hspec₁⟩ := dhcpRouter_gives (overlay rebuilt old)
  obtain ⟨r₂, hr₂, hspec₂⟩ := dhcpRouter_gives rebuilt
  have hsame : r₁ = r₂ := by
    apply Option.ext
    intro addr
    rw [hspec₁, hspec₂, overlay, List.drop_append_of_le_length hlen, tlvRouter_append h]
  constructor
  · intro hr
    rwa [← hr₁.unique hr, hsame]
  · intro hr
    rwa [← hr₂.unique hr, ← hsame]

/-- A body that is an Ethernet frame was opened or not. -/
theorem opened_or {body : List UInt8} (h : Carries (some key) frame 400 body)
    (hrebuilt : ethernetFromMsdu body sta 400 = some rebuilt) : Opened sta key frame rebuilt ∨
      Unopened sta frame rebuilt := by
  cases h with
  | plain hlen hhdr hplain => exact .inr ⟨_, hplain, .plain hlen hhdr hplain, hrebuilt⟩
  | opened hlen hprotected hkey hbody =>
    cases hkey
    exact .inl ⟨body, hprotected, hbody, hrebuilt⟩

theorem ethernetFromMsdu_length {body : List UInt8} {n : Nat} (hsta : sta.length = 6)
    (h : ethernetFromMsdu body sta n = some rebuilt) : rebuilt.length ≤ n := by
  obtain ⟨payload, -, hrest⟩ := Option.bind_eq_some_iff.mp h
  split at hrest
  · cases hrest
  · cases hrest
    rw [List.length_append, List.length_append, List.length_replicate, hsta]
    omega

theorem overlay_length {new old : List UInt8} (h : new.length ≤ old.length) :
    (overlay new old).length = old.length := by
  rw [overlay, List.length_append, List.length_drop]
  omega

/-- A wait for a reply keeps the size of its buffer. What it recognises is in the frame, which it
leaves in the buffer. -/
theorem dhcpStep_found (hsta : sta.length = 6) {kind : UInt8}
    {pair : Option (List UInt8 × List UInt8)} {ether' : List UInt8}
    (hether : ether.length = 400) (h : (dhcpStep sta key kind ether bytes).Gives (pair, ether')) :
    ether'.length = 400 ∧ ∀ p, pair = some p → ∃ frame rebuilt, (copyFrame bytes).Gives (some frame) ∧
      (Opened sta key frame rebuilt ∨ Unopened sta frame rebuilt) ∧
        (dhcpYiaddr rebuilt kind).Gives (some p) ∧
      ether' = overlay rebuilt ether := by
  rw [dhcpStep, gives_bind] at h
  obtain ⟨frame, hframe, h⟩ := h
  cases frame with
  | none =>
    rw [gives_pure] at h
    cases h
    exact ⟨hether, fun p hp => by cases hp⟩
  | some frame =>
    obtain ⟨body, hbody, h⟩ := (gives_bind).mp h
    cases body with
    | none =>
      rw [gives_pure] at h
      cases h
      exact ⟨hether, fun p hp => by cases hp⟩
    | some body =>
      dsimp only at h
      rw [hether] at h
      cases hrebuilt : ethernetFromMsdu body sta 400 with
      | none =>
        rw [hrebuilt, gives_pure] at h
        cases h
        exact ⟨hether, fun p hp => by cases hp⟩
      | some rebuilt =>
        rw [hrebuilt] at h
        obtain ⟨found, hfound, h⟩ := (gives_bind).mp h
        rw [gives_pure] at h
        cases h
        have hlen := ethernetFromMsdu_length hsta hrebuilt
        refine ⟨(overlay_length (by omega)).trans hether, fun p hp => ?_⟩
        rw [hp] at hfound
        exact ⟨frame, rebuilt, hframe, opened_or ((msdu_some).mp hbody) hrebuilt, hfound, rfl⟩

theorem writeDhcp_length {yiaddr server : List UInt8} {kind : UInt8} (hsta : sta.length = 6)
    (hyiaddr : yiaddr.length = 4)
    (hserver : server.length = 4) : (writeDhcp sta yiaddr server kind).length ≤ 298 := by
  have hsplit : ∀ options : List UInt8, options.length ≤ 12 → (if kind = 3 then options
    else []).length ≤ 12 := by
    intro options h
    split
    · exact h
    · exact Nat.zero_le _
  have hoptions := hsplit ([50, 4] ++ yiaddr ++ [54, 4] ++ server) (by
    simp only [List.length_append, List.length_cons, List.length_nil, hyiaddr, hserver]
    omega)
  unfold writeDhcp writeDhcpHeaders
  dsimp only
  simp only [List.length_append, List.length_cons, List.length_nil, List.length_replicate, zeros,
    be16, hsta, hyiaddr] at *
  omega

theorem dhcpYiaddr_lengths {frame addr server : List UInt8} {kind : UInt8}
    (h : (dhcpYiaddr frame kind).Gives (some (addr, server))) : addr.length = 4 ∧ server.length = 4 := by
  obtain ⟨hfixed, hread, rfl, rfl⟩ := (dhcpYiaddr_some).mp h
  have hlen := hfixed.length
  constructor
  · rw [fixedYiaddr, List.length_drop, List.length_take]
    omega
  · unfold fixedServer
    split
    · next hserver =>
      have hlast := (hread.2 hserver.1).2 hserver.2
      rw [List.length_drop, List.length_take]
      omega
    · rfl

/-- The bytes of the wait have a frame that is fair. -/
def FairPolls (sta key : List UInt8) (polls : Polls) : Prop :=
  ∀ bytes, some bytes ∈ polls → ∀ frame, (copyFrame bytes).Gives (some frame) → FairFrame sta key frame

theorem lease_from {sends : Bool × Bool} {polls : Polls} {addr gateway : List UInt8} (hsta : sta.length = 6)
    (hfair : FairPolls sta key polls) (h : (lease sta key sends polls).Gives (some (addr, gateway))) :
    ∃ bytes frame, some bytes ∈ polls ∧ (copyFrame bytes).Gives (some frame) ∧
      LeaseFrom sta key frame addr gateway := by
  have hkeep : ∀ kind (b e : List UInt8) r, b.length = 400 → (dhcpStep sta key kind b e).Gives r →
    r.2.length = 400 :=
    fun kind b e r hb hr => (dhcpStep_found hsta hb hr).1
  have hbuffer : ∀ new old : List UInt8, new.length ≤ 298 → old.length = 400 →
    (overlay new old).length = 400 :=
    fun new old hnew hold => (overlay_length (by omega)).trans hold
  rw [lease, gives_ite] at h
  by_cases hsent : sends.1 = false
  · exact absurd ((gives_pure).mp (h.1 hsent)) (by simp)
  · obtain ⟨⟨offer, rest, ether⟩, hoffer, h⟩ := (gives_bind).mp (h.2 hsent)
    obtain ⟨hether, hfound⟩ := await_gives (hkeep 2) assocSpin polls _
      (hbuffer _ (zeros 400) (writeDhcp_length hsta (zeros_length 4) (zeros_length 4))
        (zeros_length 400)) hoffer
    cases offer with
    | none => exact absurd ((gives_pure).mp h) (by simp)
    | some p =>
      obtain ⟨front, c, e, hc, hpolls, hstep⟩ := hfound p rfl
      obtain ⟨-, hoffered⟩ := dhcpStep_found hsta hc hstep
      obtain ⟨_, _, -, -, hpair, -⟩ := hoffered p rfl
      obtain ⟨hyiaddr, hserver⟩ := dhcpYiaddr_lengths hpair
      dsimp only at h
      rw [gives_ite] at h
      by_cases hsent' : sends.2 = false
      · exact absurd ((gives_pure).mp (h.1 hsent')) (by simp)
      · obtain ⟨⟨ack, rest', ether'⟩, hack, h⟩ := (gives_bind).mp (h.2 hsent')
        obtain ⟨-, hfound'⟩ := await_gives (hkeep 5) assocSpin rest _
          (hbuffer _ ether (writeDhcp_length hsta hyiaddr hserver) hether) hack
        cases ack with
        | none => exact absurd ((gives_pure).mp h) (by simp)
        | some p' =>
          obtain ⟨front', c', bytes, hc', hrest, hstep'⟩ := hfound' p' rfl
          obtain ⟨-, hacked⟩ := dhcpStep_found hsta hc' hstep'
          obtain ⟨frame, rebuilt, hframe, hopened, hpair', heq⟩ := hacked p' rfl
          obtain ⟨hfixed, -⟩ := (dhcpYiaddr_some).mp hpair'
          have hlen := hfixed.length
          have hin : some bytes ∈ polls := by
            dsimp only at hpolls hrest
            rw [hpolls, hrest]
            simp
          have hfairFrame := hfair bytes hin frame hframe
          have hopen : Opened sta key frame rebuilt :=
            hopened.resolve_right fun hunopened => hfairFrame.ack rebuilt hunopened hfixed
          obtain ⟨router, hrouter, h⟩ := (gives_bind).mp h
          dsimp only at heq
          rw [heq, dhcpRouter_overlay (by omega) (hfairFrame.options rebuilt hopen hfixed)] at hrouter
          rw [gives_pure] at h
          cases h
          exact ⟨bytes, frame, hin, hframe, rebuilt, p'.2, router, hopen, hpair', hrouter, rfl⟩

theorem echoStep_true (h : (echoStep sta key bytes).Gives true) :
    ∃ frame rebuilt, (copyFrame bytes).Gives (some frame) ∧
      (Opened sta key frame rebuilt ∨ Unopened sta frame rebuilt) ∧
      icmpReply rebuilt = true := by
  obtain ⟨frame, hframe, h⟩ := (gives_bind).mp h
  cases frame with
  | none => exact absurd ((gives_pure).mp h) (by simp)
  | some frame =>
    obtain ⟨body, hbody, h⟩ := (gives_bind).mp h
    cases body with
    | none => exact absurd ((gives_pure).mp h) (by simp)
    | some body =>
      dsimp only at h
      cases hrebuilt : ethernetFromMsdu body sta 400 with
      | none =>
        rw [hrebuilt] at h
        exact absurd ((gives_pure).mp h) (by simp)
      | some rebuilt =>
        rw [hrebuilt] at h
        exact ⟨frame, rebuilt, hframe, opened_or ((msdu_some).mp hbody) hrebuilt, (gives_pure).mp h⟩

theorem echo_from {sent : Bool} {polls : Polls} (hfair : FairPolls sta key polls)
    (h : (echo sta key sent polls).Gives true) :
    ∃ bytes frame rebuilt, some bytes ∈ polls ∧ (copyFrame bytes).Gives (some frame) ∧
      Opened sta key frame rebuilt ∧
      icmpReply rebuilt = true := by
  rw [echo, gives_ite] at h
  by_cases hsent : sent = false
  · exact absurd ((gives_pure).mp (h.1 hsent)) (by simp)
  · obtain ⟨⟨found, rest, b⟩, hawait, h⟩ := (gives_bind).mp (h.2 hsent)
    obtain ⟨-, hfound⟩ := @await_gives _ _ _ _ (fun _ => True)
      (fun _ _ _ _ _ => trivial) assocSpin polls () trivial _ hawait
    rw [gives_pure] at h
    obtain ⟨a, ha⟩ := Option.isSome_iff_exists.mp h
    obtain ⟨front, _, bytes, -, hpolls, hstep⟩ := hfound a ha
    have hbytes : some bytes ∈ polls := by
      rw [hpolls]
      simp
    obtain ⟨seen, hseen, hstep⟩ := (gives_bind).mp hstep
    rw [gives_pure] at hstep
    cases seen with
    | false => cases hstep
    | true =>
      obtain ⟨frame, rebuilt, hframe, hopened, hreply⟩ := echoStep_true hseen
      refine ⟨bytes, frame, rebuilt, hbytes, hframe, hopened.resolve_right fun hunopened => ?_, hreply⟩
      rw [(hfair bytes hbytes frame hframe).reply rebuilt hunopened] at hreply
      cases hreply

end sources

/-- On fair frames every lease and every ping comes from a frame the cipher accepted. -/
theorem lease_opened (sta key : List UInt8) (hsta : sta.length = 6) (sends : Bool × Bool) (sent : Bool)
    (leasePolls echoPolls : Polls) (hlease : FairPolls sta key leasePolls)
      (hecho : FairPolls sta key echoPolls) :
    (∀ addr gateway, (lease sta key sends leasePolls).Gives (some (addr, gateway)) →
      ∃ bytes frame, some bytes ∈ leasePolls ∧ (copyFrame bytes).Gives (some frame) ∧
        LeaseFrom sta key frame addr gateway) ∧
    ((echo sta key sent echoPolls).Gives true →
      ∃ bytes frame rebuilt, some bytes ∈ echoPolls ∧ (copyFrame bytes).Gives (some frame) ∧
        Opened sta key frame rebuilt ∧
        icmpReply rebuilt = true) :=
  ⟨fun _ _ h => lease_from hsta hlease h, echo_from hecho⟩

/-- A header, and an Ethernet frame with a reply to a ping. -/
def echoBody : List UInt8 := llcSnap ++ [0x08, 0x00] ++ zeros 9 ++ [1] ++ zeros 11

def plainEcho : List UInt8 := zeros 24 ++ (0x08 :: zeros 23) ++ echoBody

/-- The same, sealed with the packet number 1. -/
def sealedEcho : List UInt8 :=
  let nonce := ccmpNonce 0 (zeros 6) 1
  let aad := 0x08 :: zeros 21
  zeros 24 ++ (0x08 :: 0x40 :: zeros 22) ++ writeCcmpHdr 1 ++ ctrData (zeros 16) nonce echoBody ++
    ctrMic (zeros 16) nonce (ccmMic (zeros 16) nonce aad echoBody)

theorem plainEcho_taken :
    ¬Protected (plainEcho.drop 24) ∧ (copyFrame plainEcho).Gives (some (plainEcho.drop 24)) ∧
      (echo (zeros 6) (zeros 16) true [some plainEcho]).Gives true :=
  ⟨by decide, ⟨0, rfl⟩, ⟨0, rfl⟩⟩

/-- A short frame that says that it is protected is fair. -/
theorem fairFrame_short {sta key frame : List UInt8} (hsta : sta.length = 6) (h : Protected frame)
    (hlen : frame.length < 285) :
    FairFrame sta key frame := by
  refine ⟨?_, ?_, ?_⟩
  · rintro rebuilt ⟨_, hplain, -⟩
    exact absurd h hplain
  · rintro rebuilt ⟨_, hplain, -⟩
    exact absurd h hplain
  · rintro rebuilt ⟨body, -, hbody, hrebuilt⟩ hfixed
    have hbodyLen := ccmpDecrypt_length hbody
    have hhdr := hdrLen_cases (frame.getD 0 0)
    have hrebuiltLen : rebuilt.length ≤ body.length + 12 := by
      obtain ⟨payload, hpayload, hrest⟩ := Option.bind_eq_some_iff.mp hrebuilt
      unfold llcPayload at hpayload
      split at hpayload
      · cases hpayload
        split at hrest
        · cases hrest
        · cases hrest
          rw [List.length_append, List.length_append, List.length_replicate, hsta, List.length_drop]
          omega
      · cases hpayload
    have := hfixed.length
    omega

theorem copyFrame_plain {t : List UInt8} (h : 0 < t.length) :
    (copyFrame (zeros 24 ++ t)).Gives (some (t.take 1600)) := by
  have hoff : (frameOff (zeros 24 ++ t)).Gives (some 24) := by
    have hlong : ¬(zeros 24 ++ t).length < 24 := by
      rw [List.length_append, zeros_length]
      omega
    have hin : ¬(zeros 24 ++ t).length ≤ 24 := by
      rw [List.length_append, zeros_length]
      omega
    have hzero : ∀ i j, i ≤ j → j ≤ 24 → leValue (((zeros 24 ++ t).take j).drop i) = 0 := by
      intro i j _ hj
      rw [List.take_append_of_le_length (by rw [zeros_length]; exact hj), zeros,
        List.take_replicate, List.drop_replicate]
      exact leValue_zeros _
    rw [frameOff, if_neg hlong, (gives_leAt (by omega)).bind_iff, (gives_leAt (by omega)).bind_iff,
      hzero 4 8 (by omega)
      (by omega), hzero 8 12 (by omega) (by omega)]
    exact (gives_ite).mpr ⟨fun hle => absurd hle hin, fun _ => (gives_pure).mpr rfl⟩
  rw [copyFrame, hoff.bind_iff]
  exact (gives_pure).mpr rfl

theorem sealedEcho_fair : FairPolls (zeros 6) (zeros 16) [none, some sealedEcho] := by
  intro bytes hbytes frame hframe
  have heq : bytes = sealedEcho := by simpa using hbytes
  let sealed := writeCcmpHdr 1 ++ (ctrData (zeros 16) (ccmpNonce 0 (zeros 6) 1) echoBody ++
    ctrMic (zeros 16) (ccmpNonce 0 (zeros 6) 1)
      (ccmMic (zeros 16) (ccmpNonce 0 (zeros 6) 1) (0x08 :: zeros 21) echoBody))
  have hsplit : sealedEcho = zeros 24 ++ (0x08 :: 0x40 :: (zeros 22 ++ sealed)) := by
    simp [sealedEcho, sealed]
  have hlen : sealed.length ≤ 60 := by
    have hdata := ctrFrom_length_le (zeros 16) (ccmpNonce 0 (zeros 6) 1) echoBody.length 1 echoBody
    have hbody : echoBody.length = 29 := rfl
    have hmic : (ctrMic (zeros 16) (ccmpNonce 0 (zeros 6) 1)
      (ccmMic (zeros 16) (ccmpNonce 0 (zeros 6) 1) (0x08 :: zeros 21)
        echoBody)).length ≤ 8 := by
      rw [ctrMic, xorBytes_length, List.length_take]
      omega
    have hhdr : (writeCcmpHdr 1).length = 8 := rfl
    have hsealed : sealed.length = (writeCcmpHdr 1).length +
      ((ctrData (zeros 16) (ccmpNonce 0 (zeros 6) 1) echoBody).length +
        (ctrMic (zeros 16) (ccmpNonce 0 (zeros 6) 1)
          (ccmMic (zeros 16) (ccmpNonce 0 (zeros 6) 1) (0x08 :: zeros 21)
          echoBody)).length) := by
      rw [List.length_append, List.length_append]
    rw [ctrData] at hsealed
    omega
  rw [heq, hsplit] at hframe
  have hcopied := hframe.unique (copyFrame_plain (by rw [List.length_cons]; omega))
  cases hcopied
  refine fairFrame_short (zeros_length 6) ?_ ?_
  · show (0x40 : UInt8) &&& 0x40 ≠ 0
    decide
  · rw [List.length_take, List.length_cons, List.length_cons, List.length_append, zeros_length]
    omega

theorem lease_opened_sample :
    (∀ addr gateway, (lease (zeros 6) (zeros 16) (true, true) [none, some sealedEcho]).Gives
      (some (addr, gateway)) →
      ∃ bytes frame, some bytes ∈ [none, some sealedEcho] ∧ (copyFrame bytes).Gives (some frame) ∧
        LeaseFrom (zeros 6) (zeros 16) frame addr gateway) ∧
    ((echo (zeros 6) (zeros 16) true [none, some sealedEcho]).Gives true →
      ∃ bytes frame rebuilt, some bytes ∈ [none, some sealedEcho] ∧ (copyFrame bytes).Gives (some frame) ∧
        Opened (zeros 6) (zeros 16) frame rebuilt ∧ icmpReply rebuilt = true) :=
  lease_opened (zeros 6) (zeros 16) (zeros_length 6) (true, true) true [none, some sealedEcho]
    [none, some sealedEcho]
    sealedEcho_fair sealedEcho_fair

end Lerux.Swift
