import Lerux.Cli.Channels

/-!
# Priorities of protected calls

`validate_qos_sdf`: the priorities of the protection domains and the channels are read from the text
of a system description with regular expressions, and the caller of a protected call must have the
lower priority.

What the expressions read from a text that is written with the domains and channels of a
`Description` is what was written (`captures_domains`, `blocks_described`). A channel counts as a
call where exactly one of its ends has the flag. One with the flag on both ends never obeys the rule
and is not looked at: `validateQosSdf_exact` says on which descriptions the report is right.
-/

namespace Lerux.Cli

open Pattern
open scoped Along

structure PdPriority where
  name : List Char
  priority : UInt32
  deriving DecidableEq

structure PpcEdge where
  caller : List Char
  callee : List Char
  deriving DecidableEq

structure QosReport where
  pds : List PdPriority
  ppcEdges : List PpcEdge
  errors : List (List Char)
  notes : List (List Char)
  deriving DecidableEq

inductive QosError
  | parsePriority
  deriving DecidableEq

/-- `\d`: the decimal digits of Unicode, which those of ASCII are among. -/
structure Digits where
  digit : Char → Bool
  ascii : ∀ c, c.isDigit = true → digit c = true
  quote : digit '"' = false

/-- The two attributes that are read of a domain. -/
inductive Key
  | name
  | priority
  deriving DecidableEq

def Key.other : Key → Key
  | .name => .priority
  | .priority => .name

def Key.text : Key → List Char
  | .name => "name".toList
  | .priority => "priority".toList

def Key.value (D : Digits) : Key → Char → Bool
  | .name => (· ≠ '"')
  | .priority => D.digit

/-- `[^>]*key="(value+)"` -/
def keyPattern (D : Digits) (k : Key) : List Piece :=
  [.run (· ≠ '>') 0 true false, .lit (k.text ++ ['=', '"']), .run (k.value D) 1 true true, .lit ['"']]

/-- `<protection_domain\s+[^>]*name="([^"]+)"[^>]*priority="(\d+)"[^>]*>` with `k` as the first attribute -/
def pdPattern (D : Digits) (k : Key) : List Piece :=
  .lit "<protection_domain".toList :: .run isWhitespace 1 true false ::
    (keyPattern D k ++ (keyPattern D k.other ++ [.run (· ≠ '>') 0 true false, .lit ['>']]))

/-- `str::parse::<u32>` on a text without a sign. -/
def parseU32 (t : List Char) : Option UInt32 :=
  if t ≠ [] ∧ (∀ c ∈ t, c.isDigit = true) ∧ Nat.ofDigitChars 10 t 0 < 2 ^ 32 then
    some (UInt32.ofNat (Nat.ofDigitChars 10 t 0))
  else none

/-- One turn of the loops of `parse_pd_priorities`. The names in `out` are those in `seen`. -/
def addPd (out : List PdPriority) (name priority : List Char) : Except QosError (List PdPriority) :=
  if (out.map PdPriority.name).contains name then .ok out
  else
    match parseU32 priority with
    | some p => .ok (out ++ [⟨name, p⟩])
    | none => .error .parsePriority

def parsePdPriorities (D : Digits) (sdf : List Char) : Except QosError (List PdPriority) := do
  let out ← (captures (pdPattern D .name) sdf).foldlM (fun out cap => addPd out (cap.getD 0 [])
    (cap.getD 1 [])) []
  let out ← (captures (pdPattern D .priority) sdf).foldlM (fun out cap => addPd out (cap.getD 1 [])
    (cap.getD 0 [])) out
  return out.mergeSort fun a b => a.name ≤ b.name

/-- `(?s)<channel>(.*?)</channel>` -/
def channelPattern : List Piece := [.lit "<channel>".toList, .run (fun _ => true) 0 false true,
    .lit "</channel>".toList]

/-- `<end\s+([^>]*?)/\s*>` -/
def endPattern : List Piece :=
  [.lit "<end".toList, .run isWhitespace 1 true false, .run (· ≠ '>') 0 false true, .lit ['/'],
    .run isWhitespace 0 true false,
    .lit ['>']]

/-- `pd="([^"]+)"` -/
def endPdPattern : List Piece := [.lit "pd=\"".toList, .run (· ≠ '"') 1 true true, .lit ['"']]

/-- The ends in the body of a channel block, each with its flag. -/
def blockEnds (body : List Char) : List (List Char × Bool) :=
  (captures endPattern body).filterMap fun cap =>
    (captures endPdPattern (cap.getD 0 [])).head?.map fun pd =>
      (pd.getD 0 [], decide ("pp=\"true\"".toList <:+: cap.getD 0 []))

def blockEdge (ends : List (List Char × Bool)) : Option PpcEdge :=
  if ends.length ≠ 2 then none
  else
    match (ends.filter (·.2)).map Prod.fst, (ends.filter (!·.2)).map Prod.fst with
    | [caller], [callee] => some ⟨caller, callee⟩
    | _, _ => none

def edgeLe (a b : PpcEdge) : Bool := a.caller < b.caller || (a.caller = b.caller && a.callee ≤ b.callee)

def parsePpcEdges (sdf : List Char) : List PpcEdge :=
  sorted edgeLe ((captures channelPattern sdf).filterMap fun cap => blockEdge (blockEnds (cap.getD 0 [])))

/-- Of two entries under one name a map keeps the last. -/
def prioOf (pds : List PdPriority) (name : List Char) : Option UInt32 :=
  (pds.reverse.find? (·.name = name)).map (·.priority)

/-- What the loop over the edges says of one. -/
def edgeError (prio : List Char → Option UInt32) (edge : PpcEdge) : Option (List Char) :=
  match prio edge.caller with
  | none => some ("PPC caller ".toList ++ edge.caller ++ " not found among protection domains".toList)
  | some callerPriority =>
    match prio edge.callee with
    | none => some ("PPC callee ".toList ++ edge.callee ++ " not found among protection domains".toList)
    | some targetPriority =>
      if targetPriority ≤ callerPriority then
        some ("PPC priority abuse: ".toList ++ edge.caller ++ " (prio ".toList ++
          decimal callerPriority.toNat ++
          ") must be < ".toList ++ edge.callee ++ " (prio ".toList ++
            decimal targetPriority.toNat ++ ")".toList)
      else none

def requireMinPriority (prio : List Char → Option UInt32) (name : List Char) (min : UInt32) :
    Option (List Char) :=
  match prio name with
  | none => none
  | some p =>
    if p < min then
      some ("service-class band: ".toList ++ name ++ " priority ".toList ++ decimal p.toNat ++
        " < minimum ".toList ++
        decimal min.toNat ++ " (docs/qos.md)".toList)
    else none

def requireExactPriority (prio : List Char → Option UInt32) (name : List Char) (exact : UInt32) :
    Option (List Char) :=
  match prio name with
  | none => none
  | some p =>
    if p ≠ exact then
      some ("service-class band: ".toList ++ name ++ " priority ".toList ++ decimal p.toNat ++
        " expected ".toList ++
        decimal exact.toNat ++ " (docs/qos.md)".toList)
    else none

def platformBand : List String :=
  ["serial_driver", "serial_virt", "virtio_blk_driver", "virtio_net_driver", "virtio_pci_driver",
    "genet_driver",
    "emmc2_driver", "pl031_driver", "sp804_driver", "goldfish_rtc_driver", "rdtime_timer_driver",
      "cmos_rtc_driver",
    "tsc_timer_driver"]

def serviceBand : List (String × UInt32) := [("log_server", 5), ("fs_server", 4), ("net_server", 4)]

def interactiveBand : List (String × UInt32) :=
  [("config_server", 3), ("supervisor", 2), ("edit", 2), ("chat_client", 2),
    ("http_file_browser", 2), ("backup", 2),
    ("agent", 2), ("browser_ui", 2), ("web_content", 2), ("request_server", 3), ("tls_proxy", 4),
      ("display_server", 4)]

/-- The errors of `check_workstation_bands`, in the order of the checks. -/
def bandErrors (prio : List Char → Option UInt32) : List (List Char) :=
  (platformBand.map fun name => (name, (6 : UInt32))) ++ serviceBand ++ interactiveBand
    |>.filterMap (fun check => requireMinPriority prio check.1.toList check.2)
    |>.append (requireExactPriority prio "shell".toList 1).toList

def shellNote (prio : List Char → Option UInt32) (edges : List PpcEdge) : List (List Char) :=
  ((prio "shell".toList).map fun shell => "shell priority=".toList ++ decimal shell.toNat ++ "; ".toList ++
    decimal edges.length ++ " PPC edges checked".toList).toList

def validateQosSdf (D : Digits) (sdf : List Char) (enforceWorkstationBands : Bool) :
    Except QosError QosReport := do
  let pds ← parsePdPriorities D sdf
  let edges := parsePpcEdges sdf
  let prio := prioOf pds
  if pds = [] then return ⟨pds, edges, [], ["no protection_domain priorities found in SDF".toList]⟩
  let errors := edges.filterMap (edgeError prio)
  if enforceWorkstationBands then return ⟨pds, edges, errors ++ bandErrors prio, shellNote prio edges⟩
  return ⟨pds, edges, errors, []⟩

/-! ### Written descriptions -/

/-- A name as descriptions have them: not empty, and without the marks of a tag. -/
abbrev IsName (n : List Char) : Prop := n ≠ [] ∧ ∀ c ∈ n, c ∉ ['"', '=', '<', '>']

structure Domain where
  name : List Char
  priority : UInt32
  first : Key
  isName : IsName name

def Domain.value (d : Domain) : Key → List Char
  | .name => d.name
  | .priority => decimal d.priority.toNat

def Domain.keyText (d : Domain) (k : Key) : List Char :=
  ' ' :: (k.text ++ '=' :: '"' :: (d.value k ++ ['"']))

def Domain.tag (d : Domain) : List Char :=
  "<protection_domain".toList ++ (d.keyText d.first ++ (d.keyText d.first.other ++ ['>']))

def Domain.text (d : Domain) : List Char :=
  "    ".toList ++ (d.tag ++ "\n    </protection_domain>\n".toList)

inductive Element
  | domain (d : Domain)
  | channel (c : ChannelSpec) (two : c.ends.length = 2) (names : ∀ e ∈ c.ends, IsName e.pd)

def Element.text : Element → List Char
  | .domain d => d.text
  | .channel c _ _ => c.toXml

def Element.domain? : Element → Option Domain
  | .domain d => some d
  | .channel .. => none

def Element.channel? : Element → Option ChannelSpec
  | .domain _ => none
  | .channel c _ _ => some c

/-- A system description: domains and channels, in any order. -/
structure Description where
  elements : List Element
  domains_ne_nil : elements.filterMap Element.domain? ≠ []
  nodup : ((elements.filterMap Element.domain?).map Domain.name).Nodup

def Description.domains (s : Description) : List Domain := s.elements.filterMap Element.domain?

def Description.channels (s : Description) : List ChannelSpec := s.elements.filterMap Element.channel?

def Description.text (s : Description) : List Char := s.elements.flatMap Element.text

/-- Both are domains, and the caller is strictly below the callee. -/
def Description.Below (s : Description) (caller callee : List Char) : Prop :=
  ∃ a ∈ s.domains, ∃ b ∈ s.domains, a.name = caller ∧ b.name = callee ∧ a.priority < b.priority

/-- `x` is an end of the channel and `y` the other one. -/
def ChannelSpec.Joins (c : ChannelSpec) (x y : ChannelEnd) : Prop := c.ends = [x, y] ∨ c.ends = [y, x]

/-- The rule of protected calls, for each end with the flag. -/
def Description.Obeys (s : Description) : Prop :=
  ∀ c ∈ s.channels, ∀ x y, c.Joins x y → x.pp = true → s.Below x.pd y.pd

theorem parseU32_decimal (n : UInt32) : parseU32 (decimal n.toNat) = some n := by
  have hvalue : Nat.ofDigitChars 10 (decimal n.toNat) 0 = n.toNat := Nat.ofDigitChars_ten_toDigits
  rw [parseU32, hvalue, if_pos ⟨decimal_ne_nil _, fun _ => isDigit_of_mem_decimal, n.toNat_lt⟩]
  exact congrArg some (UInt32.ofNat_toNat)

/-! ### The tags of domains -/

section tags

variable {D : Digits} {d : Domain} {k k' : Key} {t rest : List Char} {caught : List (List Char)}

theorem IsName.not_mem {n : List Char} (h : IsName n) {c : Char} (hc : c ∈ ['"', '=', '<', '>']) : c ∉ n :=
  fun hn => h.2 c hn hc

theorem Domain.value_ne_nil (d : Domain) (k : Key) : d.value k ≠ [] := by
  cases k with
  | name => exact d.isName.1
  | priority => exact decimal_ne_nil _

theorem Domain.not_mem_value (d : Domain) (k : Key) {c : Char} (h : c ∈ ['"', '=', '<', '>']) :
    c ∉ d.value k := by
  cases k with
  | name => exact d.isName.not_mem h
  | priority =>
    apply not_mem_decimal
    revert c
    decide

theorem Domain.value_fits (D : Digits) (d : Domain) (k : Key) : ∀ c ∈ d.value k, k.value D c = true := by
  intro c hc
  cases k with
  | name => exact decide_eq_true fun h => d.isName.not_mem (by decide) (h ▸ hc)
  | priority => exact D.ascii c (isDigit_of_mem_decimal hc)

theorem Key.not_mem_value {a : List Char} (h : ∀ c ∈ a, k.value D c = true) : '"' ∉ a := by
  intro ha
  have hquote := h _ ha
  cases k with
  | name => exact absurd hquote (by simp [Key.value])
  | priority => exact absurd hquote (by rw [Key.value, D.quote]; decide)

/-- What ends in the text of a key is the text of that key. -/
theorem Key.eq_of_suffix {a : List Char} (h : a ++ (k.text ++ ['=']) = ' ' :: (k'.text ++ ['='])) :
    k = k' := by
  have hsuffix : k.text ++ ['='] <:+ ' ' :: (k'.text ++ ['=']) := ⟨a, h⟩
  revert hsuffix
  cases k <;> cases k' <;> decide

theorem Key.not_mem_text {c : Char} (h : c ∈ ['"', '>', '<']) : c ∉ k.text ++ ['='] := by
  revert c
  cases k <;> decide

theorem Domain.not_suffix_value {a : List Char} : a ++ (k.text ++ ['=']) ≠ d.value k' := by
  intro h
  apply d.not_mem_value k' (c := '=') (by decide)
  rw [← h]
  simp

/-- The attribute that is read at a quotation mark in the text of one. -/
theorem mark_keyText {a r v : List Char} (h : a ++ ((k.text ++ ['=']) ++ '"' :: r) = d.keyText k' ++ v) :
    (k = k' ∧ a = [' '] ∧ r = d.value k' ++ '"' :: v) ∨ ∃ a', (∀ c, c ∉ a → c ∉ a') ∧
      a' ++ ((k.text ++ ['=']) ++ '"' :: r) = v := by
  have htext : d.keyText k' ++ v = (' ' :: (k'.text ++ ['='])) ++ '"' :: (d.value k' ++ '"' :: v) := by
    simp [Domain.keyText]
  rw [htext] at h
  obtain ⟨hkey, hr⟩ | ⟨b, rfl, hb⟩ := append_mark (Key.not_mem_text (by decide)) (fun hq => by
    cases hq with
    | tail _ hq => exact Key.not_mem_text (by decide) hq) h
  · obtain rfl := Key.eq_of_suffix hkey
    exact .inl ⟨rfl, List.append_cancel_right (show a ++ _ = [' '] ++ _ from hkey), hr⟩
  · obtain ⟨hvalue, -⟩ | ⟨b', rfl, hb'⟩ :=
      append_mark (Key.not_mem_text (by decide)) (d.not_mem_value k' (by decide)) hb
    · exact absurd hvalue Domain.not_suffix_value
    · exact .inr ⟨b', fun c hc hb => hc (by simp [hb]), hb'⟩

theorem fits_keyPattern {ps : List Piece} : Fits (keyPattern D k ++ ps) t caught rest ↔ ∃ a v t' caught',
    t = a ++ ((k.text ++ ['=']) ++ '"' :: (v ++ '"' :: t')) ∧ '>' ∉ a ∧ v ≠ [] ∧
      (∀ c ∈ v, k.value D c = true) ∧
      caught = v :: caught' ∧ Fits ps t' caught' rest := by
  rw [show keyPattern D k ++ ps = .run (· ≠ '>') 0 true false :: .lit (k.text ++ ['=', '"']) ::
    .run (k.value D) 1 true true :: .lit ['"'] :: ps from rfl]
  constructor
  · intro h
    obtain ⟨a, t₁, caught₁, rfl, ha, -, rfl, h₁⟩ := (fits_run).mp h
    obtain ⟨t₂, rfl, h₂⟩ := (fits_lit).mp h₁
    obtain ⟨v, t₃, caught', rfl, hv, hleast, rfl, h₃⟩ := (fits_run).mp h₂
    obtain ⟨t', rfl, h₄⟩ := (fits_lit).mp h₃
    refine ⟨a, v, t', caught', ?_, fun hmem => absurd (ha _ hmem) (by decide),
      List.ne_nil_of_length_pos hleast, hv, rfl, h₄⟩
    simp
  · rintro ⟨a, v, t', caught', rfl, ha, hv, hfits, rfl, h⟩
    have hlit : (k.text ++ ['=']) ++ '"' :: (v ++ '"' :: t') = (k.text ++ ['=', '"']) ++
      (v ++ (['"'] ++ t')) := by simp
    rw [hlit]
    exact .run true false (fun c hc => decide_eq_true fun h => ha (h ▸ hc)) (Nat.zero_le _)
      (.lit _ (.run true true hfits (List.length_pos_iff.mpr hv) (.lit ['"'] h)))

theorem Domain.tag_append (d : Domain) (t : List Char) :
    d.tag ++ t = "<protection_domain".toList ++
      (d.keyText d.first ++ (d.keyText d.first.other ++ '>' :: t)) := by
  show ("<protection_domain".toList ++ (d.keyText d.first ++ (d.keyText d.first.other ++ ['>']))) ++ t = _
  rw [List.append_assoc, List.append_assoc, List.append_assoc, List.singleton_append]

/-- Behind the last attribute of a tag no other one is read. -/
theorem not_mark_stop {a r : List Char} (ha : '>' ∉ a) : a ++ ((k.text ++ ['=']) ++ '"' :: r) ≠ '>' :: t :=
  append_stop ha (Key.not_mem_text (by decide)) (by decide)

/-- The first attribute that is read is the first of the tag, and the second the second. -/
theorem keys_of_tag {a₁ a₂ v₁ v₂ t₁ : List Char} (ha₁ : '>' ∉ a₁)
    (hv₁ : ∀ c ∈ v₁, k.value D c = true) (ha₂ : '>' ∉ a₂)
    (hv₂ : ∀ c ∈ v₂, k.other.value D c = true)
    (h : a₁ ++ ((k.text ++ ['=']) ++ '"' ::
      (v₁ ++ '"' :: (a₂ ++ ((k.other.text ++ ['=']) ++ '"' :: (v₂ ++ '"' :: t₁))))) =
      d.keyText d.first ++ (d.keyText d.first.other ++ '>' :: t)) :
    k = d.first ∧ v₁ = d.value k ∧ v₂ = d.value k.other ∧ t₁ = '>' :: t := by
  obtain ⟨hk, -, hrest⟩ | ⟨b, hb, hlater⟩ := mark_keyText h
  · obtain ⟨rfl, hsecond⟩ := (append_mark_inj (Key.not_mem_value hv₁)
      (d.not_mem_value _ (by decide))).mp hrest
    obtain ⟨hk', -, hrest'⟩ | ⟨b', hb', hlater'⟩ := mark_keyText hsecond
    · obtain ⟨rfl, hlast⟩ := (append_mark_inj (Key.not_mem_value hv₂)
        (d.not_mem_value _ (by decide))).mp hrest'
      exact ⟨hk, by rw [hk], by rw [hk], hlast⟩
    · exact absurd hlater' (not_mark_stop (hb' _ ha₂))
  · obtain ⟨hk, -, hrest⟩ | ⟨b', hb', hlater'⟩ := mark_keyText hlater
    · obtain ⟨-, hsecond⟩ := (append_mark_inj (Key.not_mem_value hv₁)
        (d.not_mem_value _ (by decide))).mp hrest
      exact absurd hsecond (not_mark_stop ha₂)
    · exact absurd hlater' (not_mark_stop (hb' _ (hb _ ha₁)))

/-- A domain is read by the pattern of its own order of attributes, in one way. -/
theorem fits_tag : Fits (pdPattern D k) (d.tag ++ t) caught rest ↔
    k = d.first ∧ caught = [d.value k, d.value k.other] ∧ rest = t := by
  rw [pdPattern, Domain.tag_append, fits_lit]
  generalize "<protection_domain".toList = s
  constructor
  · rintro ⟨t₀, ht₀, h⟩
    obtain ⟨a₀, t₁, caught₁, rfl, ha₀, -, rfl, h₁⟩ := (fits_run).mp h
    obtain ⟨a₁, v₁, t₂, caught₂, rfl, ha₁, -, hv₁, rfl, h₂⟩ := (fits_keyPattern).mp h₁
    obtain ⟨a₂, v₂, t₃, caught₃, rfl, ha₂, -, hv₂, rfl, h₃⟩ := (fits_keyPattern).mp h₂
    obtain ⟨a₃, t₄, caught₄, rfl, ha₃, -, rfl, h₄⟩ := (fits_run).mp h₃
    obtain ⟨t₅, rfl, h₅⟩ := (fits_lit).mp h₄
    cases h₅
    have ha : '>' ∉ a₀ ++ a₁ := by
      rw [List.mem_append, not_or]
      exact ⟨fun hmem => absurd (ha₀ _ hmem) (by decide), ha₁⟩
    have hkeys := List.append_cancel_left ht₀
    rw [← List.append_assoc a₀] at hkeys
    obtain ⟨hk, hname, hvalue, hlast⟩ := keys_of_tag ha hv₁ ha₂ hv₂ hkeys.symm
    have hend := (append_mark_inj (fun hmem => absurd (ha₃ _ hmem) (by decide)) List.not_mem_nil).mp
      (show a₃ ++ '>' :: rest = [] ++ '>' :: t from hlast)
    exact ⟨hk, by rw [hname, hvalue], hend.2⟩
  · rintro ⟨rfl, rfl, rfl⟩
    refine ⟨_, rfl, ?_⟩
    have htag : d.keyText d.first ++ (d.keyText d.first.other ++ '>' :: rest) =
      [' '] ++ ([] ++ ((d.first.text ++ ['=']) ++ '"' ::
        (d.value d.first ++ '"' :: ([' '] ++ ((d.first.other.text ++ ['=']) ++ '"' ::
          (d.value d.first.other ++ '"' :: ([] ++ (['>'] ++ rest)))))))) := by
      simp [Domain.keyText]
    rw [htag]
    refine .run true false (by decide) (by decide)
      ((fits_keyPattern).mpr ⟨[], _, _, _, rfl, List.not_mem_nil, d.value_ne_nil _,
      d.value_fits D _, rfl, (fits_keyPattern).mpr ⟨[' '], _, _, _, rfl,
        by decide, d.value_ne_nil _, d.value_fits D _, rfl, ?_⟩⟩)
    exact .run true false (fun c hc => absurd hc List.not_mem_nil) (Nat.zero_le _) (.lit ['>'] (.nil rest))

theorem Domain.not_mem_keyText (d : Domain) (k : Key) : '<' ∉ d.keyText k := by
  have hkey : '<' ∉ ' ' :: (k.text ++ ['=', '"']) := by cases k <;> decide
  have hvalue := d.not_mem_value k (c := '<') (by decide)
  rw [Domain.keyText]
  simp_all

theorem Domain.silent_tag {x : Char} {s : List Char} {ps : List Piece} (h : x ≠ 'p') (d : Domain)
    (t : List Char) :
    Silent (.lit ('<' :: x :: s) :: ps) d.tag t := by
  have hend : '<' ∉ "protection_domain".toList ++
    (d.keyText d.first ++ (d.keyText d.first.other ++ ['>'])) := by
    have hword : '<' ∉ "protection_domain".toList := by decide
    have hfirst := d.not_mem_keyText d.first
    have hother := d.not_mem_keyText d.first.other
    simp_all
  exact silent_of_second h hend

theorem silent_close {x : Char} {s : List Char} {ps : List Piece} (h : x ≠ '/') (t : List Char) :
    Silent (.lit ('<' :: x :: s) :: ps) "\n    </protection_domain>\n".toList t :=
  silent_cons (u := "\n    ".toList) (by decide) h (by decide)

theorem captures_domain_other {x : Char} {s : List Char} {ps : List Piece} (hp : x ≠ 'p')
    (hclose : x ≠ '/') (d : Domain)
    (t : List Char) : captures (.lit ('<' :: x :: s) :: ps) (d.text ++ t) =
      captures (.lit ('<' :: x :: s) :: ps) t :=
  captures_of_silent ((silent_of_not_mem (by decide)).append
    ((d.silent_tag hp _).append (silent_close hclose t)))

theorem captures_domain (D : Digits) (k : Key) (d : Domain) (t : List Char) :
    captures (pdPattern D k) (d.text ++ t) =
    (if k = d.first then [[d.value k, d.value k.other]] else []) ++ captures (pdPattern D k) t := by
  have hblanks : captures (pdPattern D k) (d.text ++ t) =
      captures (pdPattern D k) (d.tag ++ ("\n    </protection_domain>\n".toList ++ t)) := by
    rw [← List.append_assoc d.tag]
    exact captures_of_silent (u := "    ".toList) (silent_of_not_mem (by decide))
  rw [hblanks]
  generalize htail : "\n    </protection_domain>\n".toList ++ t = u
  have hclose : captures (pdPattern D k) u = captures (pdPattern D k) t := by
    rw [← htail]
    exact captures_of_silent (silent_close (by decide) t)
  by_cases h : k = d.first
  · have hmatch : matchAt (pdPattern D k) (d.tag ++ u) = some ([d.value k, d.value k.other], u) := by
      apply matchAt_of_unique
      intro caught rest
      rw [fits_tag, and_iff_right h]
    rw [captures_of_match hmatch (List.cons_ne_nil _ _), hclose, if_pos h]
    rfl
  · have hnone : matchAt (pdPattern D k) (d.tag ++ u) = none :=
      matchAt_eq_none fun caught rest hfits => h ((fits_tag).mp hfits).1
    have hend : '<' ∉ d.tag.tail := by
      have hword : '<' ∉ "protection_domain".toList := by decide
      have hfirst := d.not_mem_keyText d.first
      have hother := d.not_mem_keyText d.first.other
      show '<' ∉ "protection_domain".toList ++ (d.keyText d.first ++ (d.keyText d.first.other ++ ['>']))
      simp_all
    have hsilent : Silent (pdPattern D k) d.tag u := ⟨hnone, silent_of_not_mem hend⟩
    rw [captures_of_silent hsilent, hclose, if_neg h]
    rfl

end tags

/-! ### The blocks of channels -/

section blocks

variable {e : ChannelEnd} {c : ChannelSpec} {t rest : List Char} {caught : List (List Char)}

/-- What stands between the name of an end tag and its slash is read in one way. -/
theorem fits_end (h : IsName e.pd) : Fits endPattern
    ("<end ".toList ++ (e.attrs ++ '/' :: '>' :: t)) caught rest ↔
    caught = [e.attrs] ∧ rest = t := by
  have hstart : e.attrs = 'p' :: e.attrs.tail := rfl
  have hclass : ∀ {a : List Char}, (∀ c ∈ a, isWhitespace c = true) → ∀ {x : Char},
    isWhitespace x = false → x ∉ a := by
    intro a ha x hx hmem
    rw [ha x hmem] at hx
    cases hx
  rw [show "<end ".toList ++ (e.attrs ++ '/' :: '>' :: t) = "<end".toList ++
    (' ' :: (e.attrs ++ '/' :: '>' :: t)) from rfl,
    endPattern, fits_lit]
  generalize "<end".toList = s
  constructor
  · rintro ⟨t₀, ht₀, h₀⟩
    obtain ⟨a₀, t₁, caught₁, rfl, ha₀, hleast, rfl, h₁⟩ := (fits_run).mp h₀
    obtain ⟨a₁, t₂, caught₂, rfl, ha₁, -, rfl, h₂⟩ := (fits_run).mp h₁
    obtain ⟨t₃, rfl, h₃⟩ := (fits_lit).mp h₂
    obtain ⟨a₂, t₄, caught₄, rfl, ha₂, -, rfl, h₄⟩ := (fits_run).mp h₃
    obtain ⟨t₅, rfl, h₅⟩ := (fits_lit).mp h₄
    cases h₅
    have hends := List.append_cancel_left ht₀
    have hcut : ((' ' :: e.attrs) ++ ['/']) ++ '>' :: t = (a₀ ++ (a₁ ++ '/' :: a₂)) ++ '>' ::
      rest := by simpa using hends
    have hleft : '>' ∉ (' ' :: e.attrs) ++ ['/'] := by
      rw [List.mem_append, List.mem_cons, not_or, not_or]
      exact ⟨⟨by decide, e.not_mem_attrs (by decide) (h.not_mem (by decide))⟩, by decide⟩
    have hright : '>' ∉ a₀ ++ (a₁ ++ '/' :: a₂) := by
      rw [List.mem_append, List.mem_append, List.mem_cons, not_or, not_or, not_or]
      exact ⟨hclass ha₀ (by decide), fun hmem => absurd (ha₁ _ hmem) (by decide),
        by decide, hclass ha₂ (by decide)⟩
    obtain ⟨hattrs, rfl⟩ := (append_mark_inj hleft hright).mp hcut
    -- the last character before the mark is the slash, so that no white space is behind it
    obtain rfl | ⟨b, x, rfl⟩ := List.eq_nil_or_concat a₂
    · rw [← List.append_assoc] at hattrs
      have hboth := List.append_cancel_right hattrs
      cases a₀ with
      | nil => exact absurd hleast (by decide)
      | cons y b =>
        have htail := (List.cons.inj hboth).2
        cases b with
        | nil => exact ⟨by rw [htail]; rfl, rfl⟩
        | cons z b =>
          rw [hstart] at htail
          have hz : z = 'p' := (List.head_eq_of_cons_eq htail).symm
          exact absurd (by rw [hz]; simp) (hclass ha₀ (x := 'p') (by decide))
    · have hlast : ['/'] = [x] := by
        have hright' : a₀ ++ (a₁ ++ '/' :: b.concat x) = (a₀ ++ (a₁ ++ '/' :: b)) ++ [x] := by simp
        exact (List.append_inj' (hattrs.trans hright') rfl).2
      exact absurd (by rw [List.head_eq_of_cons_eq hlast]; simp) (hclass ha₂ (x := '/') (by decide))
  · rintro ⟨rfl, rfl⟩
    refine ⟨_, rfl, ?_⟩
    have hslash : ' ' :: (e.attrs ++ '/' :: '>' :: rest) =
      [' '] ++ (e.attrs ++ (['/'] ++ ([] ++ (['>'] ++ rest)))) := rfl
    rw [hslash]
    refine .run true false (by decide) (by decide)
      (.run false true (fun c hc => decide_eq_true fun hx => ?_) (Nat.zero_le _)
      (.lit ['/'] (.run true false (by decide) (by decide) (.lit ['>'] (.nil rest)))))
    exact e.not_mem_attrs (x := '>') (by decide) (h.not_mem (by decide)) (hx ▸ hc)

theorem captures_end (h : IsName e.pd) (t : List Char) :
    captures endPattern (e.toXml ++ t) = [e.attrs] :: captures endPattern t := by
  have htext : e.toXml ++ t = "        ".toList ++
    (("<end ".toList ++ (e.attrs ++ "/>".toList)) ++ '\n' :: t) := by
    rw [e.toXml_eq]
    simp
  have hblanks (u : List Char) : captures endPattern ("        ".toList ++ u) = captures endPattern u :=
    captures_of_silent (silent_of_not_mem (by decide))
  have hnewline : captures endPattern ('\n' :: t) = captures endPattern t :=
    captures_of_silent (u := ['\n']) (silent_of_not_mem (by decide))
  have hmatch : matchAt endPattern (("<end ".toList ++ (e.attrs ++ "/>".toList)) ++ '\n' :: t) =
    some ([e.attrs], '\n' :: t) := by
    apply matchAt_of_unique
    intro caught rest
    rw [List.append_assoc, List.append_assoc]
    exact fits_end h
  rw [htext, hblanks, captures_of_match hmatch (List.cons_ne_nil _ _), hnewline]

theorem captures_ends (h : ∀ e ∈ c.ends, IsName e.pd) : captures endPattern c.body =
    c.ends.map fun e => [e.attrs] := by
  have hends : ∀ ends : List ChannelEnd, (∀ e ∈ ends, IsName e.pd) →
      captures endPattern (ends.flatMap ChannelEnd.toXml ++ "    ".toList) =
        ends.map fun e => [e.attrs] := by
    intro ends
    induction ends with
    | nil => exact fun h => captures_of_silent (u := "    ".toList) (t := []) (silent_of_not_mem (by decide))
    | cons e ends ih =>
      intro h
      rw [List.flatMap_cons, List.append_assoc, captures_end (h e List.mem_cons_self),
        ih fun e he => h e (List.mem_cons_of_mem _ he)]
      rfl
  have hbody : captures endPattern c.body =
    captures endPattern (c.ends.flatMap ChannelEnd.toXml ++ "    ".toList) :=
    captures_of_silent (u := ['\n']) (silent_of_not_mem (by decide))
  rw [hbody, hends c.ends h]

theorem ChannelEnd.attrs_pd (e : ChannelEnd) :
    ∃ t, e.attrs = "pd=\"".toList ++ (e.pd ++ (['"'] ++ t)) := ⟨_, rfl⟩

theorem fits_pd (h : IsName e.pd) :
    Fits endPdPattern ("pd=\"".toList ++ (e.pd ++ (['"'] ++ t))) caught rest ↔ caught = [e.pd] ∧
      rest = t := by
  have hpd := h.not_mem (c := '"') (by decide)
  rw [endPdPattern, fits_lit]
  generalize "pd=\"".toList = s
  constructor
  · rintro ⟨t₀, ht₀, h₀⟩
    obtain ⟨a, t₁, caught₁, rfl, ha, -, rfl, h₁⟩ := (fits_run).mp h₀
    obtain ⟨t₂, rfl, h₂⟩ := (fits_lit).mp h₁
    cases h₂
    have hquote : '"' ∉ a := fun hmem => absurd (ha _ hmem) (by decide)
    obtain ⟨hname, hrest⟩ := (append_mark_inj hpd hquote).mp (List.append_cancel_left ht₀)
    exact ⟨by rw [hname, if_pos rfl], hrest.symm⟩
  · rintro ⟨rfl, rfl⟩
    exact ⟨_, rfl, .run true true (fun c hc => decide_eq_true fun hx => hpd (hx ▸ hc))
      (List.length_pos_iff.mpr h.1)
      (.lit ['"'] (.nil rest))⟩

theorem captures_pd (h : IsName e.pd) : (captures endPdPattern e.attrs).head? = some [e.pd] := by
  obtain ⟨t, ht⟩ := e.attrs_pd
  have hmatch : matchAt endPdPattern ("pd=\"".toList ++ (e.pd ++ (['"'] ++ t))) = some ([e.pd], t) :=
    matchAt_of_unique fun caught rest => fits_pd h
  rw [← List.append_assoc, ← List.append_assoc] at ht hmatch
  rw [ht, captures_of_match hmatch (List.append_ne_nil_of_right_ne_nil _ (List.cons_ne_nil _ _))]
  rfl

/-- The flag of an end is seen in its attributes, and no name or number looks like one. -/
theorem flag_attrs (h : IsName e.pd) : "pp=\"true\"".toList <:+: e.attrs ↔ e.pp = true := by
  constructor
  · rintro ⟨a, r, hinside⟩
    by_contra hpp
    have hmark : a ++ ("pp=".toList ++ '"' :: ("true\"".toList ++ r)) = "pd=".toList ++ '"' ::
      (e.pd ++ '"' ::
        (" id=".toList ++ '"' :: (decimal e.id.toNat ++ '"' :: [' ']))) := by
      rw [ChannelEnd.attrs, if_neg hpp] at hinside
      rw [← hinside]
      simp
    have hno {x a' : List Char} (hx : '=' ∉ x) : a' ++ "pp=".toList ≠ x := fun h => hx (by rw [← h]; simp)
    have hflag : '"' ∉ "pp=".toList := by decide
    have hsuffix {x a' : List Char} (hx : ¬ "pp=".toList <:+ x) : a' ++ "pp=".toList ≠ x :=
      fun h => hx ⟨a', h⟩
    obtain ⟨hpd, -⟩ | ⟨a₁, -, h₁⟩ := append_mark hflag (by decide) hmark
    · exact hsuffix (by decide) hpd
    obtain ⟨hname, -⟩ | ⟨a₂, -, h₂⟩ := append_mark hflag (h.not_mem (by decide)) h₁
    · exact hno (h.not_mem (by decide)) hname
    obtain ⟨hid, -⟩ | ⟨a₃, -, h₃⟩ := append_mark hflag (by decide) h₂
    · exact hsuffix (by decide) hid
    obtain ⟨hnumber, -⟩ | ⟨a₄, -, h₄⟩ := append_mark hflag (not_mem_decimal rfl) h₃
    · exact hno (not_mem_decimal rfl) hnumber
    have hlast : '"' ∈ [' '] := by
      rw [← h₄]
      simp
    exact absurd hlast (by decide)
  · intro hpp
    rw [ChannelEnd.attrs, if_pos hpp]
    exact ⟨"pd=".toList ++ '"' :: (e.pd ++ '"' ::
      (" id=".toList ++ '"' :: (decimal e.id.toNat ++ "\" ".toList))), [' '], by simp⟩

theorem blockEnds_body (h : ∀ e ∈ c.ends, IsName e.pd) :
    blockEnds c.body = c.ends.map fun e => (e.pd, e.pp) := by
  rw [blockEnds, captures_ends h, List.filterMap_map]
  apply List.filterMap_eq_map_iff_forall_eq_some.mpr
  intro e he
  show (captures endPdPattern e.attrs).head?.map
    (fun pd => (pd.getD 0 [], decide ("pp=\"true\"".toList <:+: e.attrs))) = _
  have hflag : decide ("pp=\"true\"".toList <:+: e.attrs) = e.pp := by
    rw [Bool.eq_iff_iff, decide_eq_true_iff]
    exact flag_attrs (h e he)
  rw [captures_pd (h e he), Option.map_some, hflag]
  rfl

theorem captures_channel (h : ∀ e ∈ c.ends, IsName e.pd) (t : List Char) :
    captures channelPattern (c.toXml ++ t) = [c.body] :: captures channelPattern t := by
  have hmatch : matchAt channelPattern (("<channel>".toList ++ (c.body ++ "</channel>".toList)) ++
    '\n' :: t) =
      some ([c.body], '\n' :: t) := by
    have hclose : matchAt [.lit "</channel>".toList] ("</channel>".toList ++ '\n' :: t) =
      some ([], '\n' :: t) := matchAt_lit ..
    have hsilent : Silent [.lit "</channel>".toList] c.body ("</channel>".toList ++ '\n' :: t) :=
      c.silent_body (x := '/') (s := "channel>".toList) (by decide)
        (fun e he => (h e he).not_mem (by decide)) _
    rw [List.append_assoc, List.append_assoc, channelPattern, matchAt_lit,
      matchAt_lazy (fun _ _ => rfl) hsilent hclose]
    rfl
  have hblanks (u : List Char) : captures channelPattern ("    ".toList ++ u) = captures channelPattern u :=
    captures_of_silent (silent_of_not_mem (by decide))
  have hnewline : captures channelPattern ('\n' :: t) = captures channelPattern t :=
    captures_of_silent (u := ['\n']) (silent_of_not_mem (by decide))
  have htext : c.toXml ++ t = "    ".toList ++
    (("<channel>".toList ++ (c.body ++ "</channel>".toList)) ++ '\n' :: t) := by
    rw [c.toXml_append, List.append_assoc, List.append_assoc]
  rw [htext, hblanks, captures_of_match hmatch (List.cons_ne_nil _ _), hnewline]

theorem captures_channel_other {x : Char} {s : List Char} {ps : List Piece} (hc : x ≠ 'c')
    (he : x ≠ 'e') (hclose : x ≠ '/')
    (h : ∀ e ∈ c.ends, IsName e.pd) (t : List Char) :
    captures (.lit ('<' :: x :: s) :: ps) (c.toXml ++ t) = captures (.lit ('<' :: x :: s) :: ps) t := by
  rw [c.toXml_append, ← List.append_assoc, ← List.append_assoc, show "</channel>".toList ++ '\n' :: t =
    "</channel>\n".toList ++ t from rfl, ← List.append_assoc]
  refine captures_of_silent (((silent_cons (u := "    ".toList) (by decide) hc (by decide)).append
    (c.silent_body he (fun e he => (h e he).not_mem (by decide)) _)).append
      (silent_of_second hclose (by decide)))

end blocks

/-! ### What is read of a description -/

section described

variable (D : Digits) (s : Description)

theorem captures_domains (k : Key) : captures (pdPattern D k) s.text =
    (s.domains.filter (k = ·.first)).map fun d => [d.value k, d.value k.other] := by
  unfold Description.text Description.domains
  induction s.elements with
  | nil => rfl
  | cons x l ih =>
    rw [List.flatMap_cons]
    cases x with
    | domain d =>
      show captures _ (d.text ++ _) = ((d :: l.filterMap Element.domain?).filter (k = ·.first)).map _
      rw [captures_domain, ih, List.filter_cons]
      by_cases h : k = d.first
      · rw [if_pos h, if_pos (decide_eq_true h), List.map_cons, List.singleton_append]
      · rw [if_neg h, if_neg (by simpa using h), List.nil_append]
    | channel c two names => exact (captures_channel_other (by decide) (by decide)
      (by decide) names _).trans ih

theorem blocks_described : (captures channelPattern s.text).map (fun cap => blockEnds (cap.getD 0 [])) =
    s.channels.map fun c => c.ends.map fun e => (e.pd, e.pp) := by
  unfold Description.text Description.channels
  induction s.elements with
  | nil => rfl
  | cons x l ih =>
    rw [List.flatMap_cons]
    cases x with
    | domain d =>
      have hskip : captures channelPattern (d.text ++ l.flatMap Element.text) =
        captures channelPattern (l.flatMap Element.text) :=
        captures_domain_other (x := 'c') (s := "hannel>".toList) (by decide) (by decide) d _
      exact (congrArg (List.map _) hskip).trans ih
    | channel c two names =>
      show (captures channelPattern (c.toXml ++ _)).map _ = (c.ends.map fun e => (e.pd, e.pp)) :: _
      rw [captures_channel names, List.map_cons, ih]
      exact congrArg (· :: _) (blockEnds_body names)

variable {D s}

def Domain.entry (d : Domain) : PdPriority := ⟨d.name, d.priority⟩

/-- The domains of either order of attributes are added where no name comes twice. -/
theorem foldlM_addPd {ds : List Domain} (out : List PdPriority)
    (h : (out.map PdPriority.name ++ ds.map Domain.name).Nodup) :
    ds.foldlM (fun out d => addPd out d.name (decimal d.priority.toNat)) out =
      .ok (out ++ ds.map Domain.entry) := by
  induction ds generalizing out with
  | nil =>
    rw [List.map_nil, List.append_nil]
    rfl
  | cons d ds ih =>
    have hnew : d.name ∉ out.map PdPriority.name := fun hmem =>
      (List.nodup_append.mp h).2.2 _ hmem _ List.mem_cons_self rfl
    have hadd : addPd out d.name (decimal d.priority.toNat) = .ok (out ++ [d.entry]) := by
      rw [addPd, if_neg fun hin => hnew (List.contains_iff_mem.mp hin), parseU32_decimal]
      rfl
    have hrest : ((out ++ [d.entry]).map PdPriority.name ++ ds.map Domain.name).Nodup := by
      simpa [Domain.entry] using h
    rw [List.foldlM_cons, hadd]
    show List.foldlM _ (out ++ [d.entry]) ds = _
    rw [ih _ hrest, List.append_assoc]
    rfl

theorem parsePdPriorities_described :
    ∃ pds, parsePdPriorities D s.text = .ok pds ∧ pds.Perm (s.domains.map Domain.entry) := by
  have hsplit : (s.domains.filter (Key.name = ·.first) ++
    s.domains.filter (Key.priority = ·.first)).Perm s.domains := by
    have hother : s.domains.filter (Key.priority = ·.first) =
      s.domains.filter (fun d => !decide (Key.name = d.first)) := by
      apply List.filter_congr
      intro d _
      cases d.first <;> rfl
    rw [hother]
    exact List.filter_append_perm ..
  have hnodup := (hsplit.map Domain.name).nodup_iff.mpr s.nodup
  rw [List.map_append] at hnodup
  have hfirst : (captures (pdPattern D .name) s.text).foldlM
    (fun out cap => addPd out (cap.getD 0 []) (cap.getD 1 [])) [] =
      .ok ((s.domains.filter (Key.name = ·.first)).map Domain.entry) := by
    rw [captures_domains, List.foldlM_map]
    exact foldlM_addPd [] (List.nodup_append.mp hnodup).1
  have hsecond : (captures (pdPattern D .priority) s.text).foldlM
    (fun out cap => addPd out (cap.getD 1 []) (cap.getD 0 []))
      ((s.domains.filter (Key.name = ·.first)).map Domain.entry) =
        .ok ((s.domains.filter (Key.name = ·.first)).map Domain.entry ++
        (s.domains.filter (Key.priority = ·.first)).map Domain.entry) := by
    rw [captures_domains, List.foldlM_map]
    apply foldlM_addPd
    rw [List.map_map]
    exact hnodup
  rw [← List.map_append] at hsecond
  refine ⟨_, ?_, (List.mergeSort_perm _ fun a b => decide (a.name ≤ b.name)).trans
    (hsplit.map Domain.entry)⟩
  rw [parsePdPriorities, hfirst]
  show Except.bind (List.foldlM _ _ _) _ = _
  rw [hsecond]
  rfl

theorem prioOf_eq_some {pds : List PdPriority} (h : (pds.map PdPriority.name).Nodup) {n : List Char}
    {p : UInt32} :
    prioOf pds n = some p ↔ ⟨n, p⟩ ∈ pds := by
  rw [prioOf, Option.map_eq_some_iff]
  constructor
  · rintro ⟨entry, hfind, rfl⟩
    have hname : entry.name = n := by simpa using List.find?_some hfind
    rw [← hname]
    exact List.mem_reverse.mp (List.mem_of_find?_eq_some hfind)
  · intro hmem
    have hsome : (pds.reverse.find? (·.name = n)).isSome := by
      rw [List.find?_isSome]
      exact ⟨_, List.mem_reverse.mpr hmem, decide_eq_true rfl⟩
    obtain ⟨entry, hfind⟩ := Option.isSome_iff_exists.mp hsome
    have hname : entry.name = n := by simpa using List.find?_some hfind
    have hentry : entry = ⟨n, p⟩ :=
      List.inj_on_of_nodup_map h (List.mem_reverse.mp (List.mem_of_find?_eq_some hfind)) hmem hname
    exact ⟨entry, hfind, by rw [hentry]⟩

theorem edgeError_eq_none {prio : List Char → Option UInt32} {edge : PpcEdge} : edgeError prio edge = none ↔
    ∃ a b, prio edge.caller = some a ∧ prio edge.callee = some b ∧ a < b := by
  rw [edgeError]
  split
  · next h => simp [h]
  · next a h =>
    split
    · next h' => simp [h']
    · next b h' =>
      split
      · next hle => simpa [h, h'] using hle
      · next hle => simpa [h, h'] using hle

theorem blockEdge_eq_some {c : ChannelSpec} (h : c.ends.length = 2) {edge : PpcEdge} :
    blockEdge (c.ends.map fun e => (e.pd, e.pp)) = some edge ↔
      ∃ x y, c.Joins x y ∧ x.pp = true ∧ y.pp = false ∧ edge = ⟨x.pd, y.pd⟩ := by
  obtain ⟨a, b, hends⟩ := List.length_eq_two.mp h
  unfold ChannelSpec.Joins
  rw [hends]
  constructor
  · intro hedge
    cases ha : a.pp <;> cases hb : b.pp <;> simp [blockEdge, ha, hb] at hedge
    · exact ⟨b, a, .inr rfl, hb, ha, hedge.symm⟩
    · exact ⟨a, b, .inl rfl, ha, hb, hedge.symm⟩
  · rintro ⟨x, y, hxy | hxy, hx, hy, rfl⟩
    · cases hxy
      simp [blockEdge, hx, hy]
    · cases hxy
      simp [blockEdge, hx, hy]

theorem two_of_mem_channels {c : ChannelSpec} (h : c ∈ s.channels) : c.ends.length = 2 := by
  obtain ⟨x, -, hx⟩ := List.mem_filterMap.mp h
  cases x with
  | domain d => cases hx
  | channel c' two names =>
    cases hx
    exact two

theorem priorities_described {pds : List PdPriority} (h : pds.Perm (s.domains.map Domain.entry))
    {caller callee : List Char} :
    edgeError (prioOf pds) ⟨caller, callee⟩ = none ↔ s.Below caller callee := by
  have hnames : (s.domains.map Domain.entry).map PdPriority.name = s.domains.map Domain.name := by
    rw [List.map_map]
    rfl
  have hnodup : (pds.map PdPriority.name).Nodup := by
    rw [(h.map _).nodup_iff, hnames]
    exact s.nodup
  have hprio (n : List Char) (p : UInt32) : prioOf pds n = some p ↔ ∃ d ∈ s.domains, d.name = n ∧
    d.priority = p := by
    rw [prioOf_eq_some hnodup, h.mem_iff, List.mem_map]
    exact exists_congr fun d => and_congr_right fun _ => PdPriority.mk.injEq .. ▸ Iff.rfl
  rw [edgeError_eq_none]
  constructor
  · rintro ⟨p, q, hp, hq, hlt⟩
    obtain ⟨a, ha, hname, rfl⟩ := (hprio _ _).mp hp
    obtain ⟨b, hb, hname', rfl⟩ := (hprio _ _).mp hq
    exact ⟨a, ha, b, hb, hname, hname', hlt⟩
  · rintro ⟨a, ha, b, hb, hname, hname', hlt⟩
    exact ⟨_, _, (hprio _ _).mpr ⟨a, ha, hname, rfl⟩, (hprio _ _).mpr ⟨b, hb, hname', rfl⟩, hlt⟩

theorem mem_edges {edge : PpcEdge} : edge ∈ parsePpcEdges s.text ↔
    ∃ c ∈ s.channels, ∃ x y, c.Joins x y ∧ x.pp = true ∧ y.pp = false ∧ edge = ⟨x.pd, y.pd⟩ := by
  have hblocks : (captures channelPattern s.text).filterMap
    (fun cap => blockEdge (blockEnds (cap.getD 0 []))) =
      (s.channels.map fun c => c.ends.map fun e => (e.pd, e.pp)).filterMap blockEdge := by
    rw [← blocks_described, List.filterMap_map]
    rfl
  rw [parsePpcEdges, mem_sorted, hblocks, List.filterMap_map, List.mem_filterMap]
  exact exists_congr fun c => and_congr_right fun hc => blockEdge_eq_some (two_of_mem_channels hc)

/-- What the check says of a written description: the rule holds for each channel with the flag on
just one end. -/
theorem validateQosSdf_described (D : Digits) (s : Description) :
    ∃ report, validateQosSdf D s.text false = .ok report ∧
    (report.errors = [] ↔ ∀ c ∈ s.channels, ∀ x y, c.Joins x y → x.pp = true → y.pp = false →
      s.Below x.pd y.pd) := by
  obtain ⟨pds, hpds, hperm⟩ := parsePdPriorities_described (D := D) (s := s)
  have hne : pds ≠ [] := by
    intro h
    rw [h] at hperm
    exact s.domains_ne_nil (List.map_eq_nil_iff.mp hperm.nil_eq.symm)
  refine ⟨⟨pds, parsePpcEdges s.text, (parsePpcEdges s.text).filterMap (edgeError (prioOf pds)),
    []⟩, ?_, ?_⟩
  · rw [validateQosSdf, hpds]
    show (if pds = [] then _ else _) = _
    rw [if_neg hne]
    rfl
  · rw [List.filterMap_eq_nil_iff]
    constructor
    · intro h c hc x y hjoins hx hy
      exact (priorities_described hperm).mp (h _ ((mem_edges).mpr ⟨c, hc, x, y, hjoins, hx, hy, rfl⟩))
    · intro h edge hedge
      obtain ⟨c, hc, x, y, hjoins, hx, hy, rfl⟩ := (mem_edges).mp hedge
      exact (priorities_described hperm).mpr (h c hc x y hjoins hx hy)

end described

/-- A channel with the flag on both ends never obeys the rule. -/
theorem Description.not_below_both (s : Description) {x y : List Char} (h : s.Below x y) :
    ¬ s.Below y x := by
  obtain ⟨a, ha, b, hb, rfl, rfl, hlt⟩ := h
  rintro ⟨b', hb', a', ha', hb'', ha'', hlt'⟩
  have hab := List.inj_on_of_nodup_map s.nodup ha' ha ha''
  have hbb := List.inj_on_of_nodup_map s.nodup hb' hb hb''
  subst hab hbb
  exact absurd hlt' (by rw [UInt32.lt_iff_toNat_lt] at *; omega)

/-- The rule for the ends with the flag is the rule for the channels with one of them, where no
channel has two. -/
theorem Description.obeys_iff {s : Description} : s.Obeys ↔
    (∀ c ∈ s.channels, ∀ x y, c.Joins x y → x.pp = true → y.pp = false → s.Below x.pd y.pd) ∧
      ∀ c ∈ s.channels, ∃ e ∈ c.ends, e.pp = false := by
  constructor
  · intro h
    refine ⟨fun c hc x y hjoins hx _ => h c hc x y hjoins hx, fun c hc => ?_⟩
    by_contra hboth
    obtain ⟨a, b, hends⟩ := List.length_eq_two.mp (two_of_mem_channels hc)
    have hflag : ∀ e ∈ c.ends, e.pp = true := fun e he => by
      cases hpp : e.pp with
      | false => exact absurd ⟨e, he, hpp⟩ hboth
      | true => rfl
    rw [hends] at hflag
    exact s.not_below_both (h c hc a b (.inl hends) (hflag a (by simp)))
      (h c hc b a (.inr hends) (hflag b (by simp)))
  · rintro ⟨hsingle, hopen⟩ c hc x y hjoins hx
    obtain ⟨e, he, hpp⟩ := hopen c hc
    have hy : y.pp = false := by
      have hxy : e = x ∨ e = y := by
        obtain hends | hends := hjoins
        · simpa [hends] using he
        · simpa [hends, or_comm] using he
      obtain rfl | rfl := hxy
      · rw [hx] at hpp
        cases hpp
      · exact hpp
    exact hsingle c hc x y hjoins hx hy

/-- The check reports no error just where the rule is kept, unless the flag stands on both ends of a
channel. Then the rule is broken, and it is only noticed where another channel, with the flag on one
end, breaks it too. -/
theorem validateQosSdf_exact (D : Digits) (s : Description) :
    (∃ report, validateQosSdf D s.text false = .ok report ∧ (report.errors = [] ↔ s.Obeys)) ↔
      (∀ c ∈ s.channels, ∃ e ∈ c.ends, e.pp = false) ∨
        ∃ c ∈ s.channels, ∃ x y, c.Joins x y ∧ x.pp = true ∧ y.pp = false ∧ ¬ s.Below x.pd y.pd := by
  obtain ⟨report, hreport, herrors⟩ := validateQosSdf_described D s
  have hsame : (∃ report, validateQosSdf D s.text false = .ok report ∧ (report.errors = [] ↔ s.Obeys)) ↔
      (report.errors = [] ↔ s.Obeys) := by
    rw [hreport]
    simp
  rw [hsame, herrors, Description.obeys_iff]
  constructor
  · intro h
    by_cases hsingle : ∀ c ∈ s.channels, ∀ x y, c.Joins x y → x.pp = true → y.pp = false → s.Below x.pd y.pd
    · exact .inl (h.mp hsingle).2
    · push Not at hsingle
      exact .inr hsingle
  · rintro (hopen | ⟨c, hc, x, y, hjoins, hx, hy, hbelow⟩)
    · exact ⟨fun h => ⟨h, hopen⟩, fun h => h.1⟩
    · have hbad : ¬ ∀ c ∈ s.channels, ∀ x y, c.Joins x y → x.pp = true → y.pp = false → s.Below x.pd y.pd :=
        fun h => hbelow (h c hc x y hjoins hx hy)
      exact ⟨fun h => absurd h hbad, fun h => absurd h.1 hbad⟩

def asciiDigits : Digits := ⟨Char.isDigit, fun _ h => h, rfl⟩

/-- Two domains that call each other on one channel. -/
def mutualCalls : Description where
  elements :=
    [.domain ⟨"a".toList, 1, .name, by decide⟩, .domain ⟨"b".toList, 2, .priority, by decide⟩,
      .channel ⟨none, [⟨"a".toList, 0, true⟩, ⟨"b".toList, 1, true⟩]⟩ rfl (by decide)]
  domains_ne_nil := List.cons_ne_nil _ _
  nodup := by decide

/-- The check lets the two pass, though the second must not call the first. -/
theorem mutualCalls_accepted :
    (∃ report, validateQosSdf asciiDigits mutualCalls.text false = .ok report ∧
      report.errors = []) ∧ ¬ mutualCalls.Obeys := by
  constructor
  · obtain ⟨report, hreport, herrors⟩ := validateQosSdf_described asciiDigits mutualCalls
    refine ⟨report, hreport, herrors.mpr ?_⟩
    intro c hc x y hjoins hx hy
    have hboth : ∀ c ∈ mutualCalls.channels, ∀ e ∈ c.ends, e.pp = true := by decide
    have hmem : y ∈ c.ends := by
      obtain hends | hends := hjoins
      · simp [hends]
      · simp [hends]
    rw [hboth c hc y hmem] at hy
    cases hy
  · intro h
    obtain ⟨c, hc, hopen⟩ : ∃ c ∈ mutualCalls.channels, ¬ ∃ e ∈ c.ends, e.pp = false := by decide
    exact hopen (((Description.obeys_iff).mp h).2 c hc)

end Lerux.Cli
