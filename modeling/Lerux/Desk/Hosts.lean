import Lerux.Desk.Url

/-!
# The host of a normal address

What `normalize` leaves is `https://`, a canonical authority and the tail it was given
(`normalizeStructure_inv`), and normalizing that again changes nothing
(`normalizeStructure_canonical`). A canonical authority is a host the checks let through, in lower
case, and a port in plain decimal.

The label loop of `is_dns_name` returns at the first label of one character, so the labels behind it are not
checked: `host_law_iff`.
-/

namespace Lerux.Desk

open scoped Along

/-! ### Buffers and numbers -/

theorem push_eq_some {out bytes r : List Char} :
    push out bytes = some r ↔ byteLen (out ++ bytes) ≤ lineCap ∧ r = out ++ bytes := by
  rw [push, byteLen_append]
  split
  · next h => simp [h, eq_comm]
  · next h => simp [h]

theorem fromBytes_eq_some {t : List Char} {url : HttpsUrl} : HttpsUrl.fromBytes t = some url ↔
    url.text = t := by
  unfold HttpsUrl.fromBytes
  constructor
  · intro h
    split at h
    · cases h
      rfl
    · cases h
  · rintro rfl
    rw [dif_pos url.fits]

theorem decimalValue_append (t : List Char) (c : Char) : decimalValue (t ++ [c]) =
    decimalValue t * 10 + (c.toNat - 48) := by
  simp [decimalValue]

/-- The digits of a number, in front of those already there. -/
theorem decimalGo_eq (fuel : Nat) : ∀ rest acc, decimalGo fuel rest acc = decimalGo fuel rest [] ++
    acc := by
  induction fuel with
  | zero =>
    intro rest acc
    rfl
  | succ fuel ih =>
    intro rest acc
    rw [decimalGo, decimalGo]
    split
    · rfl
    · rw [ih _ (_ :: acc), ih _ [_], List.append_assoc]
      rfl

theorem toNat_digit {d : Nat} (h : d < 10) : (Char.ofNat (48 + d)).toNat = 48 + d := by
  have hvalid : (48 + d).isValidChar := Or.inl (by omega)
  rw [Char.ofNat, dif_pos hvalid]
  rfl

/-- What the loop over the digits of a number leaves: `fuel + 1` is enough of them. -/
structure Digits (n fuel : Nat) (t : List Char) : Prop where
  value : decimalValue t = n
  digit : ∀ c ∈ t, c.isDigit = true
  ne_nil : t ≠ []
  length : t.length ≤ fuel + 1

theorem decimalGo_digits (fuel : Nat) : ∀ rest, rest < 10 ^ (fuel + 1) →
    Digits rest fuel (decimalGo (fuel + 1) rest []) := by
  have hlast : ∀ n, (Char.ofNat (48 + n % 10)).isDigit = true := by
    intro n
    rw [isDigit_iff, toNat_digit (Nat.mod_lt _ (by decide))]
    omega
  have hone : ∀ n k, n < 10 → Digits n k [Char.ofNat (48 + n % 10)] := by
    intro n k hn
    refine ⟨?_, fun c hc => ?_, List.cons_ne_nil _ _, by simp⟩
    · change 0 * 10 + ((Char.ofNat (48 + n % 10)).toNat - 48) = n
      rw [toNat_digit (Nat.mod_lt _ (by decide))]
      omega
    · rw [List.mem_singleton.mp hc]
      exact hlast n
  induction fuel with
  | zero =>
    intro rest hrest
    have hdiv : rest / 10 = 0 := by omega
    rw [decimalGo, if_pos hdiv]
    exact hone rest 0 (by omega)
  | succ fuel ih =>
    intro rest hrest
    rw [decimalGo]
    split
    · exact hone rest _ (by omega)
    · have hdigits := ih (rest / 10) (by rw [pow_succ] at hrest; omega)
      rw [decimalGo_eq]
      refine ⟨?_, fun c hc => ?_, by simp, ?_⟩
      · rw [decimalValue_append, hdigits.value, toNat_digit (Nat.mod_lt _ (by decide))]
        omega
      · rcases List.mem_append.mp hc with hc | hc
        · exact hdigits.digit c hc
        · rw [List.mem_singleton.mp hc]
          exact hlast rest
      · have := hdigits.length
        rw [List.length_append, List.length_singleton]
        omega

theorem decimal_digits {port : Nat} (h : port ≤ 65535) : Digits port 4 (decimal port) :=
  decimalGo_digits 4 port (by omega)

theorem Digits.ascii {n fuel : Nat} {t : List Char} (h : Digits n fuel t) : ∀ c ∈ t, c.toNat < 128 := by
  intro c hc
  have := (isDigit_iff c).mp (h.digit c hc)
  omega

theorem parsePort_decimal {port : Nat} (hpos : 0 < port) (hle : port ≤ 65535) :
    parsePort (decimal port) = some port := by
  have hdigits := decimal_digits hle
  have hlen := byteLen_of_ascii _ hdigits.ascii
  have hshort := hdigits.length
  unfold parsePort
  rw [if_neg, hdigits.value]
  · dsimp only
    rw [if_neg (by omega)]
  · have hall : (decimal port).all Char.isDigit = true := List.all_eq_true.mpr hdigits.digit
    have hne : (decimal port).isEmpty = false := List.isEmpty_eq_false_iff.mpr hdigits.ne_nil
    rw [hall, hne]
    simp only [Bool.false_or, Bool.not_true, Bool.or_false, decide_eq_true_eq]
    omega

theorem parsePort_eq_some {text : List Char} {port : Nat} (h : parsePort text = some port) :
    0 < port ∧ port ≤ 65535 := by
  unfold parsePort at h
  split at h
  · cases h
  · dsimp only at h
    split at h
    · cases h
    · cases h
      omega

/-! ### Canonical authorities -/

/-- A host that the checks of `normalize_structure` let through, in lower case. -/
structure HostOk (host : List Char) : Prop where
  ne_nil : host ≠ []
  len : byteLen host ≤ 253
  notIpv4 : isIpv4 host = false
  dns : isDnsName host = true
  lower : host.map Char.toLower = host
  inside : ∀ c ∈ host, endsAuthority c = false
  user : '@' ∉ host
  literal : host.head? ≠ some '['

/-- A canonical authority with its host. -/
inductive Canonical : List Char → List Char → Prop
  | bare {host : List Char} (h : HostOk host) (plain : ':' ∉ host) : Canonical host host
  | port {host : List Char} (h : HostOk host) (port : Nat) (pos : 0 < port) (le : port ≤ 65535) :
      Canonical (host ++ ':' :: decimal port) host

/-- The tail of an address: what stands behind the authority. -/
def IsTail (tail : List Char) : Prop := ∀ c ∈ tail.head?, endsAuthority c = true

section canonical

variable {authority host tail : List Char}

theorem Canonical.hostOk (h : Canonical authority host) : HostOk host := by
  cases h with
  | bare h => exact h
  | port h => exact h

theorem Canonical.inside (h : Canonical authority host) : ∀ c ∈ authority, endsAuthority c = false := by
  cases h with
  | bare h => exact h.inside
  | port h port pos le =>
    intro c hc
    rw [List.mem_append, List.mem_cons] at hc
    rcases hc with hc | rfl | hc
    · exact h.inside c hc
    · rfl
    · have hdigit := (isDigit_iff c).mp ((decimal_digits le).digit c hc)
      simp only [endsAuthority, Bool.or_eq_false_iff, decide_eq_false_iff_not]
      refine ⟨⟨?_, ?_⟩, ?_⟩
      all_goals
        rintro rfl
        revert hdigit
        decide

theorem colon_not_mem_decimal {port : Nat} (le : port ≤ 65535) : ':' ∉ decimal port := by
  intro hc
  have hdigit := (decimal_digits le).digit ':' hc
  cases hdigit

/-- The port as it stands in an authority. -/
def portText : Option Nat → List Char
  | some port => ':' :: decimal port
  | none => []

theorem pushPort_eq_some {out r : List Char} {port : Option Nat} (hout : byteLen out ≤ lineCap) :
    pushPort out port = some r ↔ byteLen (out ++ portText port) ≤ lineCap ∧ r = out ++ portText port := by
  cases port with
  | none => simp [pushPort, portText, hout, eq_comm]
  | some port =>
    have hsplit : out ++ [':'] ++ decimal port = out ++ portText (some port) := by
      rw [List.append_assoc]
      rfl
    simp only [pushPort, pushU16, Option.bind_eq_bind, Option.bind_eq_some_iff, push_eq_some]
    constructor
    · rintro ⟨r₁, ⟨-, rfl⟩, hfit, rfl⟩
      rw [hsplit] at hfit ⊢
      exact ⟨hfit, rfl⟩
    · rintro ⟨hfit, rfl⟩
      rw [← hsplit] at hfit ⊢
      refine ⟨_, ⟨?_, rfl⟩, hfit, rfl⟩
      rw [byteLen_append] at hfit
      omega

theorem Canonical.hostPort (h : Canonical authority host) : (hostPort authority).1 = host ∧
    ∃ port, portOf (Desk.hostPort authority).2 = some port ∧ authority = host ++ portText port := by
  cases h with
  | bare h plain =>
    rw [Desk.hostPort, (rsplitOnce_eq_none).mpr plain]
    exact ⟨rfl, none, rfl, (List.append_nil _).symm⟩
  | port h port pos le =>
    rw [Desk.hostPort, rsplitOnce_append _ (colon_not_mem_decimal le)]
    refine ⟨rfl, some port, ?_, rfl⟩
    dsimp only
    rw [portOf, parsePort_decimal pos le]
    rfl

theorem Canonical.head_ne (h : Canonical authority host) : authority ≠ [] ∧ '@' ∉ authority ∧
    authority.head? ≠ some '[' := by
  cases h with
  | bare h plain => exact ⟨h.ne_nil, h.user, h.literal⟩
  | port h port pos le =>
    refine ⟨by simp, fun hat => ?_, ?_⟩
    · rw [List.mem_append, List.mem_cons] at hat
      rcases hat with hat | hat | hat
      · exact h.user hat
      · cases hat
      · have hdigit := (decimal_digits le).digit '@' hat
        cases hdigit
    · have hliteral := h.literal
      have hne := h.ne_nil
      cases host with
      | nil => exact absurd rfl hne
      | cons c host => exact hliteral

theorem httpsRest_front (rest : List Char) : httpsRest (httpsPrefix ++ rest) = some rest := rfl

/-- The address of a canonical authority is normal. -/
theorem normalizeStructure_canonical {url : HttpsUrl} (h : Canonical authority host) (ht : IsTail tail)
    (htext : url.text = httpsPrefix ++ (authority ++ tail)) : normalizeStructure url.text = some url := by
  obtain ⟨htake, hdrop⟩ := takeWhile_append_tail h.inside ht
  obtain ⟨hhost, port, hport, hauthority⟩ := h.hostPort
  obtain ⟨hne, huser, hliteral⟩ := h.head_ne
  have hok := h.hostOk
  have hfits := url.fits
  rw [htext] at hfits
  unfold normalizeStructure
  rw [htext, httpsRest_front, Option.bind_eq_bind, Option.bind_some, htake, hdrop]
  dsimp only
  rw [if_neg (by simp [hne, huser, hliteral]), hhost, if_neg (by simp [hok.ne_nil, hok.len]), hok.lower,
    if_neg (by simp [hok.notIpv4, hok.dns]), hport]
  have hall : byteLen (httpsPrefix ++ host ++ portText port ++ tail) ≤ lineCap := by
    rw [hauthority] at hfits
    simpa [List.append_assoc] using hfits
  simp only [Option.bind_eq_bind, Option.bind_some, Option.bind_eq_some_iff, push_eq_some,
    fromBytes_eq_some]
  have hfit₂ : byteLen (httpsPrefix ++ host) ≤ lineCap := by
    simp only [byteLen_append] at hall ⊢
    omega
  have hfit₃ : byteLen (httpsPrefix ++ host ++ portText port) ≤ lineCap := by
    simp only [byteLen_append] at hall ⊢
    omega
  refine ⟨httpsPrefix, ⟨by decide, rfl⟩, _, ⟨hfit₂, rfl⟩, _,
    (pushPort_eq_some hfit₂).mpr ⟨hfit₃, rfl⟩, _, ⟨hall, rfl⟩, ?_⟩
  rw [htext, hauthority]
  simp [List.append_assoc]

theorem endsAuthority_toLower (c : Char) : endsAuthority c.toLower = endsAuthority c := by
  have h : ∀ d : Char, d.isAlpha = false → decide (c.toLower = d) = decide (c = d) := fun d hd => by
    rw [decide_eq_decide, toLower_eq_iff hd]
  simp only [endsAuthority]
  rw [h _ (by decide), h _ (by decide), h _ (by decide)]

/-- The host of an authority is its beginning. -/
theorem hostPort_prefix (authority : List Char) : ∃ rest, authority = (hostPort authority).1 ++ rest := by
  cases hsplit : rsplitOnce ':' authority with
  | none => exact ⟨[], by rw [hostPort, hsplit]; simp⟩
  | some pair =>
    obtain ⟨heq, -⟩ := rsplitOnce_eq_some hsplit
    exact ⟨':' :: pair.2, by rw [hostPort, hsplit]; exact heq⟩

/-- The checks on an authority, and on its host in lower case, are those of a canonical host. -/
theorem hostOk_of_checks {authority : List Char} (hinside : ∀ c ∈ authority, endsAuthority c = false)
    (huser : '@' ∉ authority) (hliteral : authority.head? ≠ some '[') (hne : (hostPort authority).1 ≠ [])
    (hlen : byteLen (hostPort authority).1 ≤ 253)
      (hipv4 : isIpv4 ((hostPort authority).1.map Char.toLower) = false)
    (hdns : isDnsName ((hostPort authority).1.map Char.toLower) = true) :
    HostOk ((hostPort authority).1.map Char.toLower) := by
  obtain ⟨rest, heq⟩ := hostPort_prefix authority
  have hmem : ∀ c ∈ (hostPort authority).1, c ∈ authority := by
    intro c hc
    rw [heq]
    exact List.mem_append_left _ hc
  refine ⟨fun hnil => hne (List.map_eq_nil_iff.mp hnil),
    by rw [byteLen_lower]; exact hlen, hipv4, hdns, lower_lower _, ?_, ?_, ?_⟩
  · intro c hc
    obtain ⟨d, hd, rfl⟩ := List.mem_map.mp hc
    rw [endsAuthority_toLower]
    exact hinside d (hmem d hd)
  · intro hat
    exact huser (hmem _ ((mem_lower (by decide) _).mp hat))
  · cases hhost : (hostPort authority).1 with
    | nil => exact absurd hhost hne
    | cons c host =>
      rw [heq, hhost] at hliteral
      rw [List.map_cons, List.head?_cons, ne_eq, Option.some_inj, toLower_eq_iff (by decide)]
      intro hc
      exact hliteral (congrArg some hc)

theorem canonical_of_checks {authority : List Char} {port : Option Nat}
    (hok : HostOk ((hostPort authority).1.map Char.toLower))
      (hport : portOf (hostPort authority).2 = some port) :
    Canonical ((hostPort authority).1.map Char.toLower ++ portText port)
      ((hostPort authority).1.map Char.toLower) := by
  cases hsplit : rsplitOnce ':' authority with
  | none =>
    have hcut : hostPort authority = (authority, none) := by rw [hostPort, hsplit]
    rw [hcut] at hok hport ⊢
    cases hport
    rw [portText, List.append_nil]
    refine .bare hok ?_
    rw [mem_lower (by decide)]
    exact (rsplitOnce_eq_none).mp hsplit
  | some pair =>
    have hcut : hostPort authority = (pair.1, some pair.2) := by rw [hostPort, hsplit]
    rw [hcut] at hok hport ⊢
    obtain ⟨value, hvalue, rfl⟩ := Option.map_eq_some_iff.mp hport
    obtain ⟨hpos, hle⟩ := parsePort_eq_some hvalue
    exact .port hok value hpos hle

/-- The host that was typed. -/
def typedHost (text : List Char) : Option (List Char) :=
  (httpsRest text).map fun rest => (hostPort (rest.takeWhile (!endsAuthority ·))).1

theorem normalizeStructure_inv {text : List Char} {url : HttpsUrl}
    (h : normalizeStructure text = some url) :
    ∃ raw authority tail, typedHost text = some raw ∧ Canonical authority (raw.map Char.toLower) ∧
      IsTail tail ∧
      url.text = httpsPrefix ++ (authority ++ tail) := by
  unfold normalizeStructure at h
  rw [Option.bind_eq_bind, Option.bind_eq_some_iff] at h
  obtain ⟨rest, hrest, h⟩ := h
  dsimp only at h
  split at h
  · cases h
  next hauthority =>
  split at h
  · cases h
  next hhost =>
  split at h
  · cases h
  next hchecks =>
  simp only [Option.bind_eq_bind, Option.bind_eq_some_iff, push_eq_some, fromBytes_eq_some] at h
  obtain ⟨port, hport, out₁, ⟨-, rfl⟩, out₂, ⟨hfit₂, rfl⟩, out₃, hpush, out₄, ⟨-, rfl⟩, htext⟩ := h
  obtain ⟨-, rfl⟩ := (pushPort_eq_some hfit₂).mp hpush
  simp only [Bool.or_eq_true, decide_eq_true_eq, not_or, Bool.not_eq_true, Bool.not_eq_true',
    Bool.not_eq_false, Nat.not_lt] at hauthority hhost hchecks
  obtain ⟨⟨hempty, huser⟩, hliteral⟩ := hauthority
  have hok := hostOk_of_checks (fun c hc => mem_takeWhile_not hc) (by simpa using huser) hliteral
    (by simpa using hhost.1)
    hhost.2 hchecks.1 hchecks.2
  refine ⟨_, _, rest.dropWhile (!endsAuthority ·),
    by rw [typedHost, hrest]; rfl, canonical_of_checks hok hport,
    head_dropWhile_not, ?_⟩
  rw [htext]
  simp [List.append_assoc]

/-- Normalizing again changes nothing. -/
theorem normalizeStructure_idem {text : List Char} {url : HttpsUrl}
    (h : normalizeStructure text = some url) :
    normalizeStructure url.text = some url := by
  obtain ⟨raw, authority, tail, -, hcanonical, htail, htext⟩ := normalizeStructure_inv h
  exact normalizeStructure_canonical hcanonical htail htext

theorem normalize_eq_some {text : List Char} {policy : NamePolicy} {url : HttpsUrl} :
    normalize text policy = some url ↔ normalizeStructure text = some url ∧
      policyAllows url policy = true := by
  unfold normalize
  rw [Option.bind_eq_bind, Option.bind_eq_some_iff]
  constructor
  · rintro ⟨url', hurl, hallows⟩
    split at hallows
    · next hp =>
      cases hallows
      exact ⟨hurl, hp⟩
    · cases hallows
  · rintro ⟨hurl, hp⟩
    exact ⟨url, hurl, if_pos hp⟩

theorem normalize_idem {text : List Char} {policy : NamePolicy} {url : HttpsUrl}
    (h : normalize text policy = some url) :
    normalize url.text policy = some url := by
  obtain ⟨hurl, hallows⟩ := (normalize_eq_some).mp h
  exact (normalize_eq_some).mpr ⟨normalizeStructure_idem hurl, hallows⟩

theorem hostFromUrl_canonical (h : Canonical authority host) (ht : IsTail tail) :
    hostFromUrl (httpsPrefix ++ (authority ++ tail)) = some host := by
  have hpre : httpsPrefix.isPrefixOf (httpsPrefix ++ (authority ++ tail)) = true := by simp
  unfold hostFromUrl
  rw [if_neg (by simp [hpre]), List.drop_left, (takeWhile_append_tail h.inside ht).1, h.hostPort.1]
  have hne := h.hostOk.ne_nil
  simp [hne]

end canonical

/-! ### The law for hosts -/

/-- A label of a host name: letters, digits and inner hyphens, 1 to 63 of them. -/
structure LabelOk (label : List Char) : Prop where
  pos : 1 ≤ label.length
  le : label.length ≤ 63
  chars : ∀ c ∈ label, c.isAlphanum = true ∨ c = '-'
  first : label.head? ≠ some '-'
  last : label.getLast? ≠ some '-'

/-- A decimal number from 0 to 255. -/
structure Octet (part : List Char) : Prop where
  pos : 1 ≤ part.length
  le : part.length ≤ 3
  digits : ∀ c ∈ part, c.isDigit = true
  value : decimalValue part ≤ 255

/-- A dotted-decimal address. -/
def Ipv4 (host : List Char) : Prop := ∃ parts : List (List Char), parts.length = 4 ∧
    (∀ part ∈ parts, Octet part) ∧
  host = ['.'].intercalate parts

/-- What the host of an address must be. -/
structure HostLaw (policy : NamePolicy) (host : List Char) : Prop where
  labels : ∀ label ∈ host.splitOn '.', LabelOk label
  notIpv4 : ¬Ipv4 host
  notIpv4Dot : ∀ front, host = front ++ ['.'] → ¬Ipv4 front
  name : host = hostName ↔ policy = .demoHost

/-- The labels behind the first one of one character. -/
def behindShort (labels : List (List Char)) : List (List Char) := (labels.dropWhile (·.length ≠ 1)).tail

section labels

variable {label : List Char} {labels : List (List Char)}

theorem labelOk_lower : LabelOk (label.map Char.toLower) ↔ LabelOk label := by
  have hchar : ∀ c : Char, (c.toLower.isAlphanum = true ∨ c.toLower = '-') ↔
    (c.isAlphanum = true ∨ c = '-') := fun c => by
    rw [isAlphanum_toLower, toLower_eq_iff (by decide)]
  have hmap : ∀ o : Option Char, o.map Char.toLower ≠ some '-' ↔ o ≠ some '-' := fun o => by
    cases o with
    | none => simp
    | some c => simp [toLower_eq_iff (show ('-').isAlpha = false by decide)]
  constructor
  · rintro ⟨hpos, hle, hchars, hfirst, hlast⟩
    rw [List.length_map] at hpos hle
    rw [List.head?_map, hmap] at hfirst
    rw [List.getLast?_map, hmap] at hlast
    exact ⟨hpos, hle, fun c hc => (hchar c).mp (hchars _ (List.mem_map_of_mem hc)), hfirst, hlast⟩
  · rintro ⟨hpos, hle, hchars, hfirst, hlast⟩
    refine ⟨by rwa [List.length_map], by rwa [List.length_map], fun c hc => ?_, ?_, ?_⟩
    · obtain ⟨d, hd, rfl⟩ := List.mem_map.mp hc
      exact (hchar d).mpr (hchars d hd)
    · rw [List.head?_map, hmap]
      exact hfirst
    · rw [List.getLast?_map, hmap]
      exact hlast

/-- What the loop checks of a label before it goes on or returns. -/
theorem isDnsLabels_cons {any : Bool} (h : isDnsLabels (label :: labels) any = true) :
    LabelOk label ∧ (label.length ≠ 1 → isDnsLabels labels true = true) := by
  unfold isDnsLabels at h
  split at h
  · cases h
  next hlen =>
  have hle := length_le_byteLen label
  cases label with
  | nil => cases h
  | cons first tail =>
  have hdash : ∀ c : Char, c.isAlphanum = true → c ≠ '-' := by
    rintro c hc rfl
    cases hc
  dsimp only at h
  cases hlast : tail.getLast? with
  | none =>
    rw [hlast] at h
    obtain rfl := List.getLast?_eq_none_iff.mp hlast
    have hne := hdash first h
    refine ⟨⟨le_rfl, by simp, fun c hc => ?_, by simpa using hne, by simpa using hne⟩,
      fun hone => absurd rfl hone⟩
    rw [List.mem_singleton.mp hc]
    exact Or.inl h
  | some last =>
    rw [hlast] at h
    dsimp only at h
    split at h
    · cases h
    next hends =>
    split at h
    · cases h
    next hmiddle =>
    simp only [Bool.or_eq_true, Bool.not_eq_true', not_or, Bool.not_eq_false, List.all_eq_true,
      decide_eq_true_eq] at hends hmiddle
    obtain ⟨middle, rfl⟩ := List.getLast?_eq_some_iff.mp hlast
    rw [List.dropLast_concat] at hmiddle
    refine ⟨⟨by simp, by omega, fun c hc => ?_, by simpa using hdash first hends.1, ?_⟩, fun _ => h⟩
    · rw [List.mem_cons, List.mem_append, List.mem_singleton] at hc
      rcases hc with rfl | hc | rfl
      · exact Or.inl hends.1
      · exact hmiddle c hc
      · exact Or.inl hends.2
    · have hend : (first :: (middle ++ [last])).getLast? = some last := by
        rw [← List.cons_append, List.getLast?_concat]
      rw [hend]
      simpa using hdash last hends.2

/-- Of a name that `is_dns_name` lets through, only the labels behind the first short one may be bad. -/
theorem labelsOk_iff {any : Bool} (h : isDnsLabels labels any = true) :
    (∀ label ∈ labels, LabelOk label) ↔ ∀ label ∈ behindShort labels, LabelOk label := by
  induction labels generalizing any with
  | nil => simp [behindShort]
  | cons label labels ih =>
    obtain ⟨hok, hrest⟩ := isDnsLabels_cons h
    by_cases hone : label.length = 1
    · have hbehind : behindShort (label :: labels) = labels := by simp [behindShort, hone]
      rw [hbehind, List.forall_mem_cons]
      exact and_iff_right hok
    · have hbehind : behindShort (label :: labels) = behindShort labels := by simp [behindShort, hone]
      rw [hbehind, ← ih (hrest hone), List.forall_mem_cons]
      exact and_iff_right hok

end labels

theorem splitOn_lower (host : List Char) :
    (host.map Char.toLower).splitOn '.' = (host.splitOn '.').map (List.map Char.toLower) := by
  induction host with
  | nil => rfl
  | cons c host ih =>
    have hdot : (c.toLower == '.') = (c == '.') := by
      rw [Bool.eq_iff_iff, beq_iff_eq, beq_iff_eq, toLower_eq_iff (by decide)]
    rw [List.map_cons, List.splitOn_cons_eq_if_modifyHead, List.splitOn_cons_eq_if_modifyHead, hdot, ih]
    split
    · rfl
    · cases host.splitOn '.' with
      | nil => rfl
      | cons label labels => rfl

theorem isOctet_of_octet {part : List Char} (h : Octet part) : isOctet part = true := by
  have hascii : ∀ c ∈ part, c.toNat < 128 := by
    intro c hc
    have := (isDigit_iff c).mp (h.digits c hc)
    omega
  have hlen := byteLen_of_ascii part hascii
  have hpos := h.pos
  have hle := h.le
  have hne : part ≠ [] := by
    rintro rfl
    exact absurd hpos (by decide)
  have hall : part.all Char.isDigit = true := List.all_eq_true.mpr h.digits
  unfold isOctet
  rw [if_neg, decide_eq_true_eq]
  · exact h.value
  · simp [hne, hall]
    omega

theorem isIpv4_of_ipv4 {host : List Char} (h : Ipv4 host) : isIpv4 host = true := by
  obtain ⟨parts, hlen, hoctets, rfl⟩ := h
  have hdot : ∀ part ∈ parts, '.' ∉ part := by
    intro part hpart hmem
    have hdigit := (hoctets part hpart).digits '.' hmem
    cases hdigit
  have hne : parts ≠ [] := by
    rintro rfl
    cases hlen
  rw [isIpv4, List.splitOn_intercalate _ hdot hne]
  obtain ⟨a, b, c, d, rfl⟩ := List.length_eq_four.mp hlen
  simp only [List.mem_cons, List.not_mem_nil, or_false, forall_eq_or_imp, forall_eq] at hoctets
  obtain ⟨ha, hb, hc, hd⟩ := hoctets
  simp [isIpv4Parts, isOctet_of_octet ha, isOctet_of_octet hb, isOctet_of_octet hc, isOctet_of_octet hd]

/-- The labels of the typed host behind its first short one are host labels. -/
def RestChecked (text : List Char) : Prop :=
  ∀ host, typedHost text = some host → ∀ label ∈ behindShort (host.splitOn '.'), LabelOk label

/-- A normal address has a lawful host exactly when the labels that the check skips are host labels. -/
theorem host_law_iff {text : List Char} {policy : NamePolicy} {url : HttpsUrl}
    (h : normalize text policy = some url) :
    (∃ host, hostFromUrl url.text = some host ∧ HostLaw policy host) ↔ RestChecked text := by
  obtain ⟨hurl, hallows⟩ := (normalize_eq_some).mp h
  obtain ⟨raw, authority, tail, htyped, hcanonical, htail, htext⟩ := normalizeStructure_inv hurl
  have hhost := hostFromUrl_canonical hcanonical htail
  rw [← htext] at hhost
  have hok := hcanonical.hostOk
  have hdns := hok.dns
  unfold isDnsName at hdns
  split at hdns
  · cases hdns
  -- the labels of the host are those typed, in lower case
  have hlabels : (∀ label ∈ (raw.map Char.toLower).splitOn '.', LabelOk label) ↔ RestChecked text := by
    rw [labelsOk_iff hdns, splitOn_lower]
    have hbehind : behindShort ((raw.splitOn '.').map (List.map Char.toLower)) =
        (behindShort (raw.splitOn '.')).map (List.map Char.toLower) := by
      unfold behindShort
      rw [List.map_tail, List.dropWhile_map]
      simp [Function.comp_def]
    rw [hbehind, RestChecked, htyped]
    simp [labelOk_lower]
  constructor
  · rintro ⟨host, heq, hlaw⟩
    rw [hhost] at heq
    cases heq
    exact hlabels.mp hlaw.labels
  · intro hrest
    have hall := hlabels.mpr hrest
    refine ⟨_, hhost, hall, fun hip => ?_, fun front heq hip => ?_, ?_⟩
    · have := isIpv4_of_ipv4 hip
      rw [hok.notIpv4] at this
      cases this
    · -- a trailing dot leaves an empty label
      have hempty : [] ∈ (raw.map Char.toLower).splitOn '.' := by
        rw [heq, List.splitOn_append_cons_self]
        simp
      have := (hall _ hempty).pos
      cases this
    · unfold policyAllows at hallows
      rw [hhost] at hallows
      cases policy with
      | demoHost => simpa using hallows
      | publicName => simpa using hallows

/-- The text `w3.x.org/a`, with a label of one character. -/
def plainName : List Char := ['w', '3', '.', 'x', '.', 'o', 'r', 'g', '/', 'a']

theorem host_law_plainName : ∃ url, normalize plainName .publicName = some url ∧
    ∃ host, hostFromUrl url.text = some host ∧ HostLaw .publicName host := by
  have hrun : normalize plainName .publicName = some ⟨httpsPrefix ++ plainName, by decide⟩ := by
    decide +kernel
  refine ⟨_, hrun, (host_law_iff hrun).mpr fun host htyped label hlabel => ?_⟩
  have heq : typedHost plainName = some ['w', '3', '.', 'x', '.', 'o', 'r', 'g'] := by decide +kernel
  rw [heq] at htyped
  cases htyped
  have hbehind : behindShort (['w', '3', '.', 'x', '.', 'o', 'r', 'g'].splitOn '.') =
    [['o', 'r', 'g']] := by decide +kernel
  rw [hbehind, List.mem_singleton] at hlabel
  subst hlabel
  exact ⟨by decide, by decide, by decide, by decide, by decide⟩

/-- The text `1.2.3.4.`. -/
def dottedLiteral : List Char := ['1', '.', '2', '.', '3', '.', '4', '.']

/-- It is let through, and its host is an address with a dot behind it. -/
theorem dottedLiteral_not_lawful : ∃ url, normalize dottedLiteral .publicName = some url ∧
    hostFromUrl url.text = some dottedLiteral ∧ Ipv4 dottedLiteral.dropLast ∧
    ¬∃ host, hostFromUrl url.text = some host ∧ HostLaw .publicName host := by
  have hrun : normalize dottedLiteral .publicName =
    some ⟨httpsPrefix ++ dottedLiteral, by decide⟩ := by decide +kernel
  have hhost : hostFromUrl (httpsPrefix ++ dottedLiteral) = some dottedLiteral := by decide +kernel
  have hip : Ipv4 dottedLiteral.dropLast := by
    refine ⟨[['1'], ['2'], ['3'], ['4']], rfl, fun part hpart => ?_, rfl⟩
    simp only [List.mem_cons, List.not_mem_nil, or_false] at hpart
    rcases hpart with rfl | rfl | rfl | rfl
    all_goals exact ⟨by decide, by decide, by decide, by decide⟩
  refine ⟨_, hrun, hhost, hip, ?_⟩
  rintro ⟨host, heq, hlaw⟩
  rw [hhost] at heq
  cases heq
  exact hlaw.notIpv4Dot _ rfl hip

end Lerux.Desk
