import Lerux.Base.Check

/-!
# DHCP replies

`wifi.rs`: what is read of a reply. `dhcp_yiaddr` reads the offset 42 and the offsets of a message
type that comes first, with the server directly behind it; `dhcp_router` walks from item to item,
and takes a pad for an item with a length.
-/

namespace Lerux.Swift

open Check

/-! ### The readers -/

def zeroAddr : List UInt8 := [0, 0, 0, 0]

/-- The server of a reply, where its option is the second. -/
def serverId (boot : List UInt8) : Check (List UInt8) := do
  let tag ← byteAt boot 243
  if tag = 54 then
    let len ← byteAt boot 244
    if len = 4 then slice boot 245 249 else return zeroAddr
  else return zeroAddr

/-- The address and the server of a reply of a kind. -/
def dhcpYiaddr (frame : List UInt8) (kind : UInt8) : Check (Option (List UInt8 × List UInt8)) :=
  if frame.length < 42 + 243 then pure none
  else do
    let etherType ← beAt frame 12 14
    if etherType ≠ 0x0800 then return none
    else
      let boot := frame.drop 42
      let op ← byteAt boot 0
      let cookie ← beAt boot 236 240
      if op ≠ 2 ∨ cookie ≠ 0x63825363 then return none
      else
        let tag ← byteAt boot 240
        let value ← byteAt boot 242
        if tag ≠ 53 ∨ value ≠ kind then return none
        else
          let addr ← slice boot 16 20
          let server ← serverId boot
          return some (addr, server)

def routerFrom (boot : List UInt8) : Nat → Nat → Check (Option (List UInt8))
  | 0, _ => pure none
  | fuel + 1, at_ =>
    if at_ + 1 < boot.length then do
      let code ← byteAt boot at_
      if code = 255 then return none
      else
        let len ← byteAt boot (at_ + 1)
        if code = 3 ∧ len = 4 ∧ at_ + 6 ≤ boot.length then
          let router ← slice boot (at_ + 2) (at_ + 6)
          return some router
        else routerFrom boot fuel (at_ + 2 + len.toNat)
    else pure none

/-- Every turn takes 2 bytes at least, so that the length is turns enough. -/
def dhcpRouter (frame : List UInt8) : Check (Option (List UInt8)) :=
  if frame.length < 42 then pure none else routerFrom (frame.drop 42) (frame.drop 42).length 240

def icmpReply (frame : List UInt8) : Bool := 35 ≤ frame.length && frame[23]? = some 1 && frame[34]? = some 0

/-! ### Any frame -/

/-- The fields that `dhcp_yiaddr` looks at. -/
structure FixedReply (frame : List UInt8) (kind : UInt8) : Prop where
  length : 285 ≤ frame.length
  etherType : leValue ((frame.take 14).drop 12).reverse = 0x0800
  op : frame.getD 42 0 = 2
  cookie : leValue ((frame.take 282).drop 278).reverse = 0x63825363
  tag : frame.getD 282 0 = 53
  value : frame.getD 284 0 = kind

/-- The bytes where a second option is the server are in the frame. -/
def ServerReadable (frame : List UInt8) : Prop :=
  286 ≤ frame.length ∧ (frame.getD 285 0 = 54 → 287 ≤ frame.length ∧
    (frame.getD 286 0 = 4 → 291 ≤ frame.length))

def fixedServer (frame : List UInt8) : List UInt8 :=
  if frame.getD 285 0 = 54 ∧ frame.getD 286 0 = 4 then (frame.take 291).drop 287 else zeroAddr

def fixedYiaddr (frame : List UInt8) : List UInt8 := (frame.take 62).drop 58

section frames

variable {frame : List UInt8} {kind : UInt8}

theorem getD_drop (t : List UInt8) (n i : Nat) : (t.drop n).getD i 0 = t.getD (n + i) 0 := by
  rw [List.getD_eq_getElem?_getD, List.getD_eq_getElem?_getD, List.getElem?_drop]

theorem slice_drop (t : List UInt8) (n i j : Nat) : (((t.drop n).take j).drop i) =
    (t.take (n + j)).drop (n + i) := by
  rw [List.take_drop, List.drop_drop, Nat.add_comm n j, Nat.add_comm n i]

theorem serverId_runs (h : 42 ≤ frame.length) : (serverId (frame.drop 42)).Runs ↔ ServerReadable frame := by
  have hlen := @List.length_drop UInt8 42 frame
  unfold serverId ServerReadable
  by_cases h243 : 286 ≤ frame.length
  · rw [(gives_byteAt_getD (by omega)).runs_bind_iff, getD_drop]
    by_cases htag : frame.getD (42 + 243) 0 = 54
    · rw [if_pos htag]
      by_cases h244 : 287 ≤ frame.length
      · rw [(gives_byteAt_getD (by omega)).runs_bind_iff, getD_drop]
        by_cases hfour : frame.getD (42 + 244) 0 = 4
        · rw [if_pos hfour, runs_slice]
          constructor
          · exact fun hin => ⟨h243, fun _ => ⟨h244, fun _ => by omega⟩⟩
          · intro hread
            have := (hread.2 htag).2 hfour
            omega
        · rw [if_neg hfour]
          exact iff_of_true runs_pure ⟨h243, fun _ => ⟨h244, fun heq => absurd heq hfour⟩⟩
      · refine iff_of_false (fun hruns => ?_) fun hread => h244 (hread.2 htag).1
        obtain ⟨_, hlast, -⟩ := (runs_bind).mp hruns
        have := (runs_byteAt).mp hlast.runs
        omega
    · rw [if_neg htag]
      exact iff_of_true runs_pure ⟨h243, fun heq => absurd heq htag⟩
  · refine iff_of_false (fun hruns => ?_) fun hread => h243 hread.1
    obtain ⟨_, hlast, -⟩ := (runs_bind).mp hruns
    have := (runs_byteAt).mp hlast.runs
    omega

theorem serverId_gives (h : ServerReadable frame) :
    (serverId (frame.drop 42)).Gives (fixedServer frame) := by
  have hlen := @List.length_drop UInt8 42 frame
  obtain ⟨h243, hrest⟩ := h
  unfold serverId fixedServer
  rw [(gives_byteAt_getD (by omega)).bind_iff, getD_drop]
  by_cases htag : frame.getD (42 + 243) 0 = 54
  · obtain ⟨h244, hlast⟩ := hrest htag
    rw [if_pos htag, (gives_byteAt_getD (by omega)).bind_iff, getD_drop]
    by_cases hfour : frame.getD (42 + 244) 0 = 4
    · have := hlast hfour
      rw [if_pos hfour, if_pos ⟨htag, hfour⟩, gives_slice_iff, slice_drop]
      exact ⟨by omega, rfl⟩
    · rw [if_neg hfour, if_neg fun hboth => hfour hboth.2, gives_pure]
  · rw [if_neg htag, if_neg fun hboth => htag hboth.1, gives_pure]

/-- A frame without the fields is not a reply; of one with them the server is read. -/
theorem dhcpYiaddr_iff (r : Option (List UInt8 × List UInt8)) :
    (dhcpYiaddr frame kind).Gives r ↔ (¬FixedReply frame kind ∧ r = none) ∨
      (FixedReply frame kind ∧ ∃ server, (serverId (frame.drop 42)).Gives server ∧
        r = some (fixedYiaddr frame, server)) := by
  have hnone : ∀ {y : Check (Option (List UInt8 × List UInt8))}, (y.Gives r ↔ r = none) →
    ¬FixedReply frame kind →
      (y.Gives r ↔ (¬FixedReply frame kind ∧ r = none) ∨ (FixedReply frame kind ∧
        ∃ server, (serverId (frame.drop 42)).Gives server ∧ r = some (fixedYiaddr frame, server))) := by
    intro y hy hnot
    rw [hy]
    exact ⟨fun h => .inl ⟨hnot, h⟩, fun h => h.elim And.right fun h => absurd h.1 hnot⟩
  have hpure : (pure none : Check (Option (List UInt8 × List UInt8))).Gives r ↔ r = none := by
    rw [gives_pure]
    exact eq_comm
  unfold dhcpYiaddr
  by_cases hlen : frame.length < 42 + 243
  · rw [if_pos hlen]
    exact hnone hpure fun h => absurd h.length (by omega)
  · have hdrop := @List.length_drop UInt8 42 frame
    rw [if_neg hlen, (gives_beAt (by omega)).bind_iff]
    by_cases htype : leValue ((frame.take 14).drop 12).reverse ≠ 0x0800
    · rw [if_pos htype]
      exact hnone hpure fun h => htype h.etherType
    · rw [if_neg htype]
      dsimp only
      rw [(gives_byteAt_getD (by omega)).bind_iff, (gives_beAt (by omega)).bind_iff, getD_drop, slice_drop]
      by_cases hop : frame.getD (42 + 0) 0 ≠ 2 ∨
        leValue ((frame.take (42 + 240)).drop (42 + 236)).reverse ≠ 0x63825363
      · rw [if_pos hop]
        exact hnone hpure fun h => hop.elim (fun hne => hne h.op) fun hne => hne h.cookie
      · rw [if_neg hop, (gives_byteAt_getD (by omega)).bind_iff,
          (gives_byteAt_getD (by omega)).bind_iff, getD_drop, getD_drop]
        by_cases htag : frame.getD (42 + 240) 0 ≠ 53 ∨ frame.getD (42 + 242) 0 ≠ kind
        · rw [if_pos htag]
          exact hnone hpure fun h => htag.elim (fun hne => hne h.tag) fun hne => hne h.value
        · have hfixed : FixedReply frame kind := by
            rw [not_or, not_not, not_not] at hop htag
            exact ⟨by omega, not_not.mp htype, hop.1, hop.2, htag.1, htag.2⟩
          rw [if_neg htag, (gives_slice (by omega)).bind_iff, slice_drop, gives_bind]
          simp only [gives_pure, eq_comm, hfixed, not_true_eq_false, false_and, true_and, false_or]
          rfl

theorem dhcpYiaddr_runs : (dhcpYiaddr frame kind).Runs ↔
    (FixedReply frame kind → ServerReadable frame) := by
  by_cases h : FixedReply frame kind
  · have hlen := h.length
    rw [← serverId_runs (by omega)]
    constructor
    · rintro ⟨r, hr⟩ -
      obtain ⟨hnot, -⟩ | ⟨-, server, hserver, -⟩ := (dhcpYiaddr_iff r).mp hr
      · exact absurd h hnot
      · exact hserver.runs
    · intro hruns
      obtain ⟨server, hserver⟩ := hruns h
      exact ⟨_, (dhcpYiaddr_iff _).mpr (.inr ⟨h, server, hserver, rfl⟩)⟩
  · exact iff_of_true ⟨none, (dhcpYiaddr_iff none).mpr (.inl ⟨h, rfl⟩)⟩ fun hfixed => absurd hfixed h

/-- What is given of a frame with the fields. -/
theorem dhcpYiaddr_some {addr server : List UInt8} :
    (dhcpYiaddr frame kind).Gives (some (addr, server)) ↔
      FixedReply frame kind ∧ ServerReadable frame ∧ addr = fixedYiaddr frame ∧
        server = fixedServer frame := by
  rw [dhcpYiaddr_iff]
  constructor
  · intro h
    obtain ⟨-, heq⟩ | ⟨hfixed, server', hserver, heq⟩ := h
    · cases heq
    · have hlen := hfixed.length
      have hread := (serverId_runs (by omega)).mp hserver.runs
      cases heq
      exact ⟨hfixed, hread, rfl, hserver.unique (serverId_gives hread)⟩
  · rintro ⟨hfixed, hread, rfl, rfl⟩
    exact .inr ⟨hfixed, _, serverId_gives hread, rfl⟩

theorem dhcpYiaddr_none : (dhcpYiaddr frame kind).Gives none ↔ ¬FixedReply frame kind := by
  rw [dhcpYiaddr_iff]
  constructor
  · intro h
    obtain ⟨hnot, -⟩ | ⟨-, server, -, heq⟩ := h
    · exact hnot
    · cases heq
  · exact fun hnot => .inl ⟨hnot, rfl⟩

/-- Read as items with a length each, the bytes come to others. -/
inductive TlvFrom : List UInt8 → List UInt8 → Prop
  | here (t : List UInt8) : TlvFrom t t
  | next {code len : UInt8} {t u : List UInt8} (hend : code ≠ 255)
      (hrouter : ¬(code = 3 ∧ len = 4 ∧ 4 ≤ t.length))
    (hrest : TlvFrom (t.drop len.toNat) u) : TlvFrom (code :: len :: t) u

/-- An address is found where the walk comes to a router option with one address. -/
def TlvRouter (t addr : List UInt8) : Prop := ∃ rest, TlvFrom t (3 :: 4 :: rest) ∧ 4 ≤ rest.length ∧
    rest.take 4 = addr

theorem tlvRouter_cons {code len : UInt8} {t addr : List UInt8} :
    TlvRouter (code :: len :: t) addr ↔
      if code = 255 then False
      else if code = 3 ∧ len = 4 ∧ 4 ≤ t.length then t.take 4 = addr
      else TlvRouter (t.drop len.toNat) addr := by
  constructor
  · rintro ⟨rest, hfrom, hlen, haddr⟩
    cases hfrom with
    | here => rw [if_neg (by decide), if_pos ⟨rfl, rfl, hlen⟩]; exact haddr
    | next hend hrouter hrest =>
      rw [if_neg hend, if_neg hrouter]
      exact ⟨rest, hrest, hlen, haddr⟩
  · intro h
    split at h
    · exact absurd h not_false
    · next hend =>
      split at h
      · next hrouter =>
        obtain ⟨rfl, rfl, hlen⟩ := hrouter
        exact ⟨t, .here _, hlen, h⟩
      · next hrouter =>
        obtain ⟨rest, hrest, hlen, haddr⟩ := h
        exact ⟨rest, .next hend hrouter hrest, hlen, haddr⟩

theorem tlvRouter_end (rest addr : List UInt8) : ¬TlvRouter (255 :: rest) addr := by
  cases rest with
  | nil =>
    rintro ⟨rest, hfrom, -⟩
    cases hfrom
  | cons len t =>
    rw [tlvRouter_cons, if_pos rfl]
    exact not_false

theorem routerFrom_gives (boot : List UInt8) (fuel at_ : Nat) (h : boot.length < at_ + 2 * fuel + 2) :
    ∃ r, (routerFrom boot fuel at_).Gives r ∧ ∀ addr, r = some addr ↔ TlvRouter (boot.drop at_) addr := by
  have hshort : ∀ at_, ¬at_ + 1 < boot.length → ∀ addr, ¬TlvRouter (boot.drop at_) addr := by
    rintro at_ hlt addr ⟨rest, hfrom, -⟩
    have hlen := @List.length_drop UInt8 at_ boot
    generalize boot.drop at_ = t at hfrom hlen
    cases hfrom with
    | here =>
      rw [List.length_cons, List.length_cons] at hlen
      omega
    | next _ _ _ =>
      rw [List.length_cons, List.length_cons] at hlen
      omega
  induction fuel generalizing at_ with
  | zero => exact ⟨none, (gives_pure).mpr rfl, fun addr => iff_of_false (by simp)
    (hshort at_ (by omega) addr)⟩
  | succ fuel ih =>
    rw [routerFrom]
    by_cases hlt : at_ + 1 < boot.length
    · have hget : ∀ i (hi : i < boot.length), boot[i] = boot.getD i 0 := by
        intro i hi
        rw [List.getD_eq_getElem?_getD, List.getElem?_eq_getElem hi]
        rfl
      have hcons : boot.drop at_ = boot.getD at_ 0 :: boot.getD (at_ + 1) 0 :: boot.drop (at_ + 2) := by
        rw [List.drop_eq_getElem_cons (by omega), List.drop_eq_getElem_cons hlt, hget, hget]
      have hiff := fun addr => @tlvRouter_cons (boot.getD at_ 0) (boot.getD (at_ + 1) 0)
        (boot.drop (at_ + 2)) addr
      have hlen := @List.length_drop UInt8 (at_ + 2) boot
      rw [← hcons] at hiff
      rw [if_pos hlt]
      by_cases hend : boot.getD at_ 0 = 255
      · refine ⟨none, ?_, fun addr => ?_⟩
        · rw [(gives_byteAt_getD (by omega)).bind_iff, if_pos hend, gives_pure]
        · rw [hiff, if_pos hend]
          simp
      · by_cases hrouter : boot.getD at_ 0 = 3 ∧ boot.getD (at_ + 1) 0 = 4 ∧ at_ + 6 ≤ boot.length
        · refine ⟨some ((boot.take (at_ + 6)).drop (at_ + 2)), ?_, fun addr => ?_⟩
          · rw [(gives_byteAt_getD (by omega)).bind_iff, if_neg hend,
              (gives_byteAt_getD hlt).bind_iff, if_pos hrouter,
              (gives_slice (by omega)).bind_iff, gives_pure]
          · have htake : (boot.drop (at_ + 2)).take 4 = (boot.take (at_ + 6)).drop (at_ + 2) := by
              rw [List.take_drop]
            rw [hiff, if_neg hend, if_pos ⟨hrouter.1, hrouter.2.1, by omega⟩, htake, Option.some.injEq]
        · obtain ⟨r, hr, hspec⟩ := ih (at_ + 2 + (boot.getD (at_ + 1) 0).toNat) (by omega)
          refine ⟨r, ?_, fun addr => ?_⟩
          · rw [(gives_byteAt_getD (by omega)).bind_iff, if_neg hend,
              (gives_byteAt_getD hlt).bind_iff, if_neg hrouter]
            exact hr
          · rw [hspec, hiff, if_neg hend, if_neg fun h => hrouter ⟨h.1, h.2.1, by omega⟩, List.drop_drop]
    · refine ⟨none, ?_, fun addr => iff_of_false (by simp) (hshort at_ hlt addr)⟩
      rw [if_neg hlt]
      exact (gives_pure).mpr rfl

theorem dhcpRouter_gives (frame : List UInt8) :
    ∃ r, (dhcpRouter frame).Gives r ∧ ∀ addr, r = some addr ↔ TlvRouter (frame.drop 282) addr := by
  unfold dhcpRouter
  by_cases hlen : frame.length < 42
  · refine ⟨none, ?_, fun addr => iff_of_false (by simp) ?_⟩
    · rw [if_pos hlen]
      exact (gives_pure).mpr rfl
    · rw [List.drop_eq_nil_of_le (by omega)]
      rintro ⟨rest, hfrom, -⟩
      cases hfrom
  · obtain ⟨r, hr, hspec⟩ := routerFrom_gives (frame.drop 42) (frame.drop 42).length 240 (by omega)
    rw [List.drop_drop] at hspec
    refine ⟨r, ?_, hspec⟩
    rw [if_neg hlen]
    exact hr

theorem dhcpRouter_some {addr : List UInt8} : (dhcpRouter frame).Gives (some addr) ↔
    TlvRouter (frame.drop 282) addr := by
  obtain ⟨r, hr, hspec⟩ := dhcpRouter_gives frame
  rw [← hspec]
  exact ⟨fun h => hr.unique h, fun h => by rwa [h] at hr⟩

theorem dhcpRouter_runs (frame : List UInt8) : (dhcpRouter frame).Runs := by
  obtain ⟨r, hr, -⟩ := dhcpRouter_gives frame
  exact hr.runs

end frames

end Lerux.Swift
