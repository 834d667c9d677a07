import Lerux.Swift.Dhcp

/-!
# Replies with an option list

A reply has its options in any order, pads between them. The readers give what it says exactly where
`YiaddrFits` and `RouterFits` hold: the IP header has 20 bytes, the message type is the first option
and the server the second, and the walk over pads and other options comes to a router option with
one address.
-/

namespace Lerux.Swift

open Check

/-! ### Replies -/

inductive DhcpItem
  | pad
  | option (code : UInt8) (data : List UInt8)
deriving DecidableEq

namespace DhcpItem

def bytes : DhcpItem → List UInt8
  | pad => [0]
  | option code data => code :: UInt8.ofNat data.length :: data

def code? : DhcpItem → Option UInt8
  | pad => none
  | option code _ => some code

/-- The lengths of the message type, the server and the routers. -/
def WellFormed : DhcpItem → Prop
  | pad => True
  | option code data =>
    code ≠ 0 ∧ code ≠ 255 ∧ data.length < 256 ∧ (code = 53 → data.length = 1) ∧
      (code = 54 → data.length = 4) ∧
      (code = 3 → data.length % 4 = 0 ∧ 0 < data.length)

instance (item : DhcpItem) : Decidable item.WellFormed :=
  match item with
  | pad => inferInstanceAs (Decidable True)
  | option _ _ => inferInstanceAs (Decidable (_ ∧ _))

end DhcpItem

/-- The data of the first option of a code. -/
def optionData (code : UInt8) : List DhcpItem → Option (List UInt8)
  | [] => none
  | .pad :: items => optionData code items
  | .option c data :: items => if c = code then some data else optionData code items

/-- The bytes of the options, up to the end of the frame. -/
def optionText (items : List DhcpItem) (rest : List UInt8) : List UInt8 :=
  items.flatMap DhcpItem.bytes ++ 255 :: rest

def bootCookie : List UInt8 := [0x63, 0x82, 0x53, 0x63]

/-- A reply in an Ethernet frame: the addresses, the headers, the fixed fields, the options, and
what is behind them. -/
structure DhcpReply where
  addresses : List UInt8
  ipWords : Nat
  ip : List UInt8
  udp : List UInt8
  fixed : List UInt8
  items : List DhcpItem
  rest : List UInt8
  addresses_length : addresses.length = 12
  ipWords_le : 5 ≤ ipWords ∧ ipWords ≤ 15
  ip_length : ip.length = 4 * ipWords
  ip_version : ip.head? = some (UInt8.ofNat (0x40 + ipWords))
  ip_protocol : ip[9]? = some 17
  udp_length : udp.length = 8
  fixed_length : fixed.length = 236
  op : fixed.head? = some 2
  wellFormed : ∀ item ∈ items, item.WellFormed
  once : (items.filterMap DhcpItem.code?).Nodup

namespace DhcpReply

def headers (r : DhcpReply) : List UInt8 := r.addresses ++ [0x08, 0x00] ++ r.ip ++ r.udp

def frame (r : DhcpReply) : List UInt8 := r.headers ++
    (r.fixed ++ (bootCookie ++ optionText r.items r.rest))

def messageType (r : DhcpReply) : Option UInt8 := (optionData 53 r.items).bind List.head?

def yiaddr (r : DhcpReply) : List UInt8 := (r.fixed.take 20).drop 16

def server (r : DhcpReply) : List UInt8 := (optionData 54 r.items).getD zeroAddr

/-- The first router. -/
def router (r : DhcpReply) : Option (List UInt8) := (optionData 3 r.items).map (·.take 4)

/-- What a reply of a kind offers. -/
def offered (r : DhcpReply) (kind : UInt8) : Option (List UInt8 × List UInt8) :=
  if r.messageType = some kind then some (r.yiaddr, r.server) else none

/-- The message type is first and the server second, or there is no server. Behind a longer IP
header the bytes at the same offsets have to say the same. -/
def YiaddrFits (r : DhcpReply) (kind : UInt8) : Prop :=
  if r.ipWords = 5 then
    r.messageType = some kind → ∃ more, r.items = .option 53 [kind] :: more ∧
      (r.server = zeroAddr ∨ ∃ others, more = .option 54 r.server :: others)
  else if r.messageType = some kind then
    FixedReply r.frame kind ∧ ServerReadable r.frame ∧ r.yiaddr = fixedYiaddr r.frame ∧ r.server =
      fixedServer r.frame
  else ¬FixedReply r.frame kind

/-- The walk, to which a pad is an item with a length, comes to an option with one router. -/
def RouterFits (r : DhcpReply) : Prop := ∀ addr, r.router = some addr → TlvRouter (r.frame.drop 282) addr

end DhcpReply

section replies

variable {r : DhcpReply} {kind : UInt8} {items : List DhcpItem} {rest : List UInt8}

theorem getD_append (a b : List UInt8) (i : Nat) : (a ++ b).getD (a.length + i) 0 = b.getD i 0 := by
  rw [List.getD_eq_getElem?_getD, List.getD_eq_getElem?_getD, List.getElem?_append_right (by omega),
    Nat.add_sub_cancel_left]

theorem slice_append (a b : List UInt8) (i j : Nat) :
    ((a ++ b).take (a.length + j)).drop (a.length + i) = (b.take j).drop i := by
  rw [List.take_length_add_append, List.drop_length_add_append]

namespace DhcpReply

theorem headers_length (r : DhcpReply) : r.headers.length = 22 + 4 * r.ipWords := by
  rw [headers, List.length_append, List.length_append, List.length_append, r.addresses_length,
    r.ip_length, r.udp_length]
  show 12 + 2 + 4 * r.ipWords + 8 = _
  omega

theorem etherType (r : DhcpReply) : (r.frame.take 14).drop 12 = [0x08, 0x00] := by
  have hlen := r.addresses_length
  have hframe : r.frame =
      r.addresses ++ ([0x08, 0x00] ++ (r.ip ++
        (r.udp ++ (r.fixed ++ (bootCookie ++ optionText r.items r.rest))))) := by
    simp [frame, headers]
  rw [hframe, show 14 = r.addresses.length +
    2 by omega, show 12 = r.addresses.length + 0 by omega, slice_append]
  rfl

section plain

variable (h : r.ipWords = 5)

include h

theorem plain_length : r.headers.length = 42 := by rw [headers_length, h]

theorem plain_option (i : Nat) : r.frame.getD (282 + i) 0 = (optionText r.items r.rest).getD i 0 := by
  have hheaders := plain_length h
  have hfixed := r.fixed_length
  rw [frame, show 282 + i = r.headers.length + (r.fixed.length + (bootCookie.length + i)) by
    rw [hheaders, hfixed]
    show _ = 42 + (236 + (4 + i))
    omega, getD_append, getD_append, getD_append]

theorem plain_text : r.frame.drop 282 = optionText r.items r.rest := by
  have hheaders := plain_length h
  have hfixed := r.fixed_length
  rw [frame, show 282 = r.headers.length + (r.fixed.length + bootCookie.length) by
    rw [hheaders, hfixed]
    rfl, List.drop_length_add_append, List.drop_length_add_append, List.drop_left]

theorem plain_frame_length : r.frame.length = 282 + (optionText r.items r.rest).length := by
  have hheaders := plain_length h
  have hfixed := r.fixed_length
  have hcookie : bootCookie.length = 4 := rfl
  rw [frame, List.length_append, List.length_append, List.length_append]
  omega

theorem plain_slice (i j : Nat) :
    (r.frame.take (42 + j)).drop (42 + i) =
      ((r.fixed ++ (bootCookie ++ optionText r.items r.rest)).take j).drop i := by
  rw [frame, ← plain_length h, slice_append]

theorem plain_yiaddr : fixedYiaddr r.frame = r.yiaddr := by
  have hfixed := r.fixed_length
  rw [fixedYiaddr, yiaddr, show 62 = 42 + 20 from rfl, show 58 = 42 + 16 from rfl, plain_slice h,
    List.take_append_of_le_length (by omega)]

theorem plain_fixedReply :
    FixedReply r.frame kind ↔ 3 ≤ (optionText r.items r.rest).length ∧
      (optionText r.items r.rest).getD 0 0 = 53 ∧
      (optionText r.items r.rest).getD 2 0 = kind := by
  have hlen := plain_frame_length h
  have hfixed := r.fixed_length
  have hop : r.frame.getD 42 0 = 2 := by
    have hhead := r.op
    rw [frame, show 42 = r.headers.length + 0 by rw [plain_length h], getD_append]
    cases hcons : r.fixed with
    | nil =>
      rw [hcons] at hfixed
      cases hfixed
    | cons b t =>
      rw [hcons] at hhead
      cases hhead
      rfl
  have hcookie : (r.frame.take 282).drop 278 = bootCookie := by
    rw [show 282 = 42 + 240 from rfl, show 278 = 42 + 236 from rfl, plain_slice h,
      show 240 = r.fixed.length + 4 by omega, show 236 = r.fixed.length + 0 by omega, slice_append]
    rfl
  constructor
  · intro hreply
    have htag := hreply.tag
    have hvalue := hreply.value
    have hlong := hreply.length
    rw [show 282 = 282 + 0 from rfl, plain_option h] at htag
    rw [show 284 = 282 + 2 from rfl, plain_option h] at hvalue
    exact ⟨by omega, htag, hvalue⟩
  · rintro ⟨hlong, htag, hvalue⟩
    refine ⟨by omega, ?_, hop, ?_, ?_, ?_⟩
    · rw [etherType]
      rfl
    · rw [hcookie]
      rfl
    · rw [show 282 = 282 + 0 from rfl, plain_option h]
      exact htag
    · rw [show 284 = 282 + 2 from rfl, plain_option h]
      exact hvalue

theorem plain_readable :
    ServerReadable r.frame ↔ 4 ≤ (optionText r.items r.rest).length ∧
      ((optionText r.items r.rest).getD 3 0 = 54 →
      5 ≤ (optionText r.items r.rest).length ∧
        ((optionText r.items r.rest).getD 4 0 = 4 → 9 ≤ (optionText r.items r.rest).length)) := by
  have hlen := plain_frame_length h
  rw [ServerReadable, show 285 = 282 + 3 from rfl, show 286 = 282 + 4 from rfl, plain_option h,
    plain_option h, hlen]
  simp only [show 287 = 282 + 5 from rfl, show 291 = 282 + 9 from rfl, Nat.add_le_add_iff_left]

theorem plain_server :
    fixedServer r.frame =
      if (optionText r.items r.rest).getD 3 0 = 54 ∧ (optionText r.items r.rest).getD 4 0 = 4 then
        ((optionText r.items r.rest).take 9).drop 5
      else zeroAddr := by
  have htext := plain_text h
  have hslice : (r.frame.take 291).drop 287 = ((optionText r.items r.rest).take 9).drop 5 := by
    rw [← htext, List.take_drop, List.drop_drop]
  rw [fixedServer, show 285 = 282 + 3 from rfl, show 286 = 282 + 4 from rfl, plain_option h,
    plain_option h, hslice]

end plain

end DhcpReply

theorem optionText_pad : optionText (.pad :: items) rest = 0 :: optionText items rest := rfl

theorem optionText_option (code : UInt8) (data : List UInt8) :
    optionText (.option code data :: items) rest = code :: UInt8.ofNat data.length ::
      (data ++ optionText items rest) := by
  simp [optionText, DhcpItem.bytes]

theorem optionText_pos (items : List DhcpItem) (rest : List UInt8) :
    0 < (optionText items rest).length := by
  rw [optionText, List.length_append, List.length_cons]
  omega

/-- What stands where the server is read. -/
theorem secondOption (hitems : ∀ item ∈ items, item.WellFormed) :
    (∃ data others, items = .option 54 data :: others ∧ data.length = 4) ∨
      ((∀ data others, items ≠ .option 54 data :: others) ∧ (optionText items rest).getD 0 0 ≠ 54) := by
  cases items with
  | nil => exact .inr ⟨by simp, by simp [optionText]⟩
  | cons item items =>
    cases item with
    | pad => exact .inr ⟨by simp, by simp [optionText_pad]⟩
    | option code data =>
      obtain ⟨-, -, -, -, hserver, -⟩ := hitems _ List.mem_cons_self
      by_cases hcode : code = 54
      · exact .inl ⟨data, items, by rw [hcode], hserver hcode⟩
      · exact .inr ⟨by simp [hcode], by rw [optionText_option]; simpa using hcode⟩

namespace DhcpReply

/-- A plain reply whose first option is not the message type is not taken for one. -/
theorem plain_other (h : r.ipWords = 5) (hfirst : ∀ data more, r.items ≠ .option 53 data :: more) :
    ¬FixedReply r.frame kind := by
  rw [plain_fixedReply h]
  rintro ⟨-, htag, -⟩
  cases hitems : r.items with
  | nil =>
    rw [hitems] at htag
    exact absurd htag (by simp [optionText])
  | cons item more =>
    rw [hitems] at htag
    cases item with
    | pad => exact absurd htag (by simp [optionText_pad])
    | option code data =>
      rw [optionText_option] at htag
      have hcode : code = 53 := by simpa using htag
      exact hfirst data more (by rw [hitems, hcode])

/-- A plain reply with its message type first. -/
theorem plain_first (h : r.ipWords = 5) {value : UInt8} {more : List DhcpItem}
    (hitems : r.items = .option 53 [value] :: more) :
    (FixedReply r.frame kind ↔ value = kind) ∧ ServerReadable r.frame ∧
      (fixedServer r.frame = r.server ↔ r.server = zeroAddr ∨ ∃ others,
        more = .option 54 r.server :: others) := by
  have hmore : ∀ item ∈ more, item.WellFormed := fun item hitem =>
    r.wellFormed item (by rw [hitems]; exact List.mem_cons_of_mem _ hitem)
  have htext : optionText r.items r.rest = 53 :: 1 :: value :: optionText more r.rest := by
    rw [hitems, optionText_option]
    rfl
  have hpos := optionText_pos more r.rest
  have hserver : r.server = (optionData 54 more).getD zeroAddr := by
    rw [server, hitems]
    rfl
  have hlen : (optionText r.items r.rest).length = (optionText more r.rest).length + 3 := by rw [htext]; rfl
  have htag : (optionText r.items r.rest).getD 3 0 = (optionText more r.rest).getD 0 0 := by rw [htext]; rfl
  have hfour : (optionText r.items r.rest).getD 4 0 = (optionText more r.rest).getD 1 0 := by
    rw [htext]; rfl
  have hvalue : (optionText r.items r.rest).getD 2 0 = value := by rw [htext]; rfl
  have hslice : ((optionText r.items r.rest).take 9).drop 5 =
    ((optionText more r.rest).take 6).drop 2 := by rw [htext]; rfl
  refine ⟨?_, ?_, ?_⟩
  · rw [plain_fixedReply h, hvalue]
    refine ⟨fun hreply => hreply.2.2, fun heq => ⟨by omega, ?_, heq⟩⟩
    rw [htext]
    rfl
  · rw [plain_readable h, htag, hlen]
    obtain ⟨data, others, rfl, hdata⟩ | ⟨-, hnot⟩ := @secondOption more r.rest hmore
    · rw [optionText_option, List.length_cons, List.length_cons, List.length_append, hdata]
      exact ⟨by omega, fun _ => ⟨by omega, fun _ => by omega⟩⟩
    · exact ⟨by omega, fun heq => absurd heq hnot⟩
  · rw [plain_server h, htag, hfour, hslice, hserver]
    obtain ⟨data, others, rfl, hdata⟩ | ⟨hnone, hnot⟩ := @secondOption more r.rest hmore
    · have hbytes : optionText (.option 54 data :: others) r.rest =
        54 :: 4 :: (data ++ optionText others r.rest) := by
        rw [optionText_option, hdata]
        rfl
      have hdrop : ((54 :: 4 :: (data ++ optionText others r.rest)).take 6).drop 2 = data := by
        show (data ++ optionText others r.rest).take 4 = data
        rw [← hdata, List.take_left]
      rw [hbytes, if_pos ⟨rfl, rfl⟩, hdrop]
      exact iff_of_true rfl (.inr ⟨others, rfl⟩)
    · rw [if_neg fun hboth => hnot hboth.1]
      exact ⟨fun heq => .inl heq.symm, fun heq => heq.elim Eq.symm fun hex => absurd hex.choose_spec
        (hnone _ _)⟩

theorem yiaddr_reads (r : DhcpReply) (kind : UInt8) :
    (dhcpYiaddr r.frame kind).Gives (r.offered kind) ↔ r.YiaddrFits kind := by
  unfold YiaddrFits offered
  by_cases hwords : r.ipWords = 5
  · rw [if_pos hwords]
    by_cases hfirst : ∃ data more, r.items = .option 53 data :: more
    · obtain ⟨data, more, hitems⟩ := hfirst
      obtain ⟨-, -, -, hone, -⟩ := r.wellFormed (.option 53 data) (by rw [hitems]; exact List.mem_cons_self)
      obtain ⟨value, rfl⟩ := List.length_eq_one_iff.mp (hone rfl)
      have htype : r.messageType = some value := by
        rw [messageType, hitems]
        rfl
      obtain ⟨hfixed, hread, hserver⟩ := @plain_first r kind hwords value more hitems
      rw [htype]
      by_cases hkind : value = kind
      · subst hkind
        rw [if_pos rfl, dhcpYiaddr_some, plain_yiaddr hwords, @eq_comm _ _ (fixedServer _), hserver]
        refine ⟨fun hgives _ => ⟨more, hitems, hgives.2.2.2⟩, fun hfits => ⟨hfixed.mpr rfl, hread, rfl, ?_⟩⟩
        obtain ⟨more', heq, hserver'⟩ := hfits rfl
        rw [hitems] at heq
        cases heq
        exact hserver'
      · have hne : some value ≠ some kind := fun heq => hkind (by cases heq; rfl)
        rw [if_neg hne, dhcpYiaddr_none, hfixed]
        exact iff_of_true hkind fun heq => absurd heq hne
    · have hother := @plain_other r kind hwords fun data more heq => hfirst ⟨data, more, heq⟩
      by_cases htype : r.messageType = some kind
      · rw [if_pos htype, dhcpYiaddr_some]
        refine iff_of_false (fun hgives => hother hgives.1) fun hfits => ?_
        obtain ⟨more, heq, -⟩ := hfits htype
        exact hfirst ⟨_, more, heq⟩
      · rw [if_neg htype, dhcpYiaddr_none]
        exact iff_of_true hother fun heq => absurd heq htype
  · rw [if_neg hwords]
    by_cases htype : r.messageType = some kind
    · rw [if_pos htype, if_pos htype, dhcpYiaddr_some]
    · rw [if_neg htype, if_neg htype, dhcpYiaddr_none]

end DhcpReply

theorem optionData_none {code : UInt8} (h : code ∉ items.filterMap DhcpItem.code?) :
    optionData code items = none := by
  induction items with
  | nil => rfl
  | cons item items ih =>
    cases item with
    | pad => exact ih h
    | option c data =>
      rw [List.filterMap_cons_some (by rfl : DhcpItem.code? (.option c data) = some c),
        List.mem_cons, not_or] at h
      rw [optionData, if_neg (Ne.symm h.1)]
      exact ih h.2

theorem tlvRouter_option {code : UInt8} {data addr : List UInt8}
    (h : (DhcpItem.option code data).WellFormed) :
    TlvRouter (optionText (.option code data :: items) rest) addr ↔
      if code = 3 ∧ data.length = 4 then data = addr else TlvRouter (optionText items rest) addr := by
  obtain ⟨-, hend, hlen, -⟩ := h
  have hnat : (UInt8.ofNat data.length).toNat = data.length := by
    rw [UInt8.toNat_ofNat']
    exact Nat.mod_eq_of_lt hlen
  rw [optionText_option, tlvRouter_cons, if_neg hend, hnat, List.drop_left]
  by_cases hrouter : code = 3 ∧ data.length = 4
  · have hfour : UInt8.ofNat data.length = 4 := by rw [hrouter.2]; rfl
    rw [if_pos hrouter, if_pos ⟨hrouter.1, hfour, by rw [List.length_append]; omega⟩, ← hrouter.2,
      List.take_left]
  · have hnot : ¬(code = 3 ∧ UInt8.ofNat data.length = 4 ∧ 4 ≤ (data ++ optionText items rest).length) := by
      rintro ⟨hcode, hfour, -⟩
      rw [hfour] at hnat
      exact hrouter ⟨hcode, hnat.symm⟩
    rw [if_neg hrouter, if_neg hnot]

/-- Without pads the walk comes to the router option. -/
theorem tlvRouter_items (hitems : ∀ item ∈ items, item.WellFormed) (hpads : .pad ∉ items)
    (honce : (items.filterMap DhcpItem.code?).Nodup) (addr : List UInt8) :
    TlvRouter (optionText items rest) addr ↔ optionData 3 items = some addr ∧ addr.length = 4 := by
  induction items with
  | nil => exact iff_of_false (tlvRouter_end rest addr) (by simp [optionData])
  | cons item items ih =>
    have hrest := ih (fun i hi => hitems i (List.mem_cons_of_mem _ hi)) fun hi => hpads
      (List.mem_cons_of_mem _ hi)
    cases item with
    | pad => exact absurd List.mem_cons_self hpads
    | option code data =>
      rw [List.filterMap_cons_some (by rfl : DhcpItem.code? (.option code data) = some code),
        List.nodup_cons] at honce
      rw [tlvRouter_option (hitems _ List.mem_cons_self), optionData, hrest honce.2]
      by_cases hcode : code = 3
      · have hnone : optionData 3 items = none := by
          rw [hcode] at honce
          exact optionData_none honce.1
        rw [if_pos hcode, hnone]
        by_cases hfour : data.length = 4
        · rw [if_pos ⟨hcode, hfour⟩, Option.some.injEq]
          exact ⟨fun heq => ⟨heq, by rw [← heq, hfour]⟩, And.left⟩
        · rw [if_neg fun hboth => hfour hboth.2, Option.some.injEq]
          exact ⟨fun h => absurd h.1 (by simp), fun h => absurd (by rw [h.1, h.2]) hfour⟩
      · rw [if_neg hcode, if_neg fun hboth => hcode hboth.1]

/-- Behind a plain header and without pads the first router is read exactly if it is the only one. -/
theorem DhcpReply.routerFits_iff (h : r.ipWords = 5) (hpads : .pad ∉ r.items) :
    r.RouterFits ↔ ∀ data, optionData 3 r.items = some data → data.length = 4 := by
  unfold DhcpReply.RouterFits DhcpReply.router
  rw [plain_text h]
  simp only [tlvRouter_items r.wellFormed hpads r.once]
  constructor
  · intro hfits data hdata
    obtain ⟨heq, hlen⟩ := hfits (data.take 4) (by rw [hdata]; rfl)
    rw [hdata, Option.some.injEq] at heq
    rw [heq, hlen]
  · intro hdata addr haddr
    obtain ⟨data, hsome, rfl⟩ := Option.map_eq_some_iff.mp haddr
    have hlen := hdata data hsome
    rw [← hlen, List.take_length]
    exact ⟨hsome, rfl⟩

end replies

/-- A reply is read as it is exactly where it fits. -/
theorem dhcpReply_reads (r : DhcpReply) (kind : UInt8) :
    ((dhcpYiaddr r.frame kind).Gives (r.offered kind) ↔ r.YiaddrFits kind) ∧
      ((∀ addr, r.router = some addr → (dhcpRouter r.frame).Gives (some addr)) ↔ r.RouterFits) := by
  refine ⟨r.yiaddr_reads kind, ?_⟩
  unfold DhcpReply.RouterFits
  simp only [dhcpRouter_some]

/-- The server before the message type, and two routers. -/
def serverFirst : DhcpReply where
  addresses := List.replicate 12 0
  ipWords := 5
  ip := 0x45 :: List.replicate 8 0 ++ 17 :: List.replicate 10 0
  udp := List.replicate 8 0
  fixed := 2 :: List.replicate 15 0 ++ [10, 0, 0, 7] ++ List.replicate 216 0
  items := [.option 54 [10, 0, 0, 1], .option 53 [5], .option 3 [10, 0, 0, 1, 10, 0, 0, 2]]
  rest := []
  addresses_length := rfl
  ipWords_le := by decide
  ip_length := rfl
  ip_version := rfl
  ip_protocol := rfl
  udp_length := rfl
  fixed_length := rfl
  op := rfl
  wellFormed := by simp [DhcpItem.WellFormed]
  once := by decide

theorem serverFirst_missed :
    serverFirst.offered 5 = some ([10, 0, 0, 7], [10, 0, 0, 1]) ∧
      ¬(dhcpYiaddr serverFirst.frame 5).Gives (serverFirst.offered 5) ∧
      serverFirst.router = some [10, 0, 0, 1] ∧
        ¬(dhcpRouter serverFirst.frame).Gives (some [10, 0, 0, 1]) := by
  have hwords : serverFirst.ipWords = 5 := rfl
  refine ⟨rfl, fun h => ?_, rfl, fun h => ?_⟩
  · have hother := @DhcpReply.plain_other serverFirst 5 hwords fun data more heq => by cases heq
    have hnone := (dhcpYiaddr_none).mpr hother
    exact absurd (hnone.unique h)
      (by simp [serverFirst, DhcpReply.offered, DhcpReply.messageType, optionData])
  · rw [dhcpRouter_some, DhcpReply.plain_text hwords,
      tlvRouter_items serverFirst.wellFormed (by simp [serverFirst]) serverFirst.once] at h
    exact absurd h.1 (by simp [serverFirst, optionData])

end Lerux.Swift
