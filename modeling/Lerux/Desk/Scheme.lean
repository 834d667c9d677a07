import Lerux.Base.Text
import Lerux.Desk.Resolve

/-!
# Names without a scheme

`normalize` finds the scheme at the first `://` of the text, wherever that is. A text without a
scheme is an `https` address but where there is such a mark behind the authority (`scheme_exact`).
-/

namespace Lerux.Desk

open scoped Along

/-- A text that is not cut at a mark does not have it. -/
theorem not_infix_of_breakOn {sep t : List Char} (h : breakOn sep t = none) (hsep : sep ≠ []) :
    ¬sep <:+: t := by
  induction t with
  | nil => exact fun hinside => hsep (List.infix_nil.mp hinside)
  | cons c t ih =>
    rw [breakOn] at h
    split at h
    · cases h
    · next hpre =>
      intro hinside
      obtain hfront | hinside := List.infix_cons_iff.mp hinside
      · exact hpre (List.isPrefixOf_iff_prefix.mpr hfront)
      · exact ih (Option.map_eq_none_iff.mp h) hinside

/-! ### Schemes -/

/-- A letter, and letters, digits and the signs `+`, `-` and `.` behind it. -/
def RfcScheme : List Char → Prop
  | [] => False
  | c :: rest => c.isAlpha = true ∧ ∀ d ∈ rest, schemeChar d = true

def HasScheme (t : List Char) : Prop := ∃ scheme rest, RfcScheme scheme ∧ t = scheme ++ (schemeEnd ++ rest)

/-- The authority of a text that stands behind `https://`. -/
def authorityOf (t : List Char) : List Char := t.takeWhile (!endsAuthority ·)

def hostOf (t : List Char) : List Char := (hostPort (authorityOf t)).1.map Char.toLower

/-- A text that is an address behind `https://`: its authority has a name and a port that pass their
checks, the whole fits, and the policy has the name. -/
structure Accepted (t : List Char) (policy : NamePolicy) : Prop where
  authority : authorityOf t ≠ [] ∧ '@' ∉ authorityOf t ∧ (authorityOf t).head? ≠ some '['
  host : hostOf t ≠ [] ∧ byteLen (hostOf t) ≤ 253
  name : isIpv4 (hostOf t) = false ∧ isDnsName (hostOf t) = true
  port : ∃ port, portOf (hostPort (authorityOf t)).2 = some port ∧
    byteLen (httpsPrefix ++ hostOf t ++ portText port ++ t.dropWhile (!endsAuthority ·)) ≤ lineCap
  policy : hostOf t = hostName ↔ policy = .demoHost

section scheme

variable {t : List Char} {policy : NamePolicy} {url : HttpsUrl}

theorem rfcScheme_https {scheme : List Char}
    (h : eqIgnoreAsciiCase scheme ['h', 't', 't', 'p', 's'] = true) : RfcScheme scheme := by
  have hmap : scheme.map Char.toLower = ['h', 't', 't', 'p', 's'] := of_decide_eq_true h
  have halpha : ∀ c ∈ scheme, c.isAlpha = true := by
    intro c hc
    have hmem : c.toLower ∈ ['h', 't', 't', 'p', 's'] := hmap ▸ List.mem_map_of_mem hc
    rw [← isAlpha_toLower]
    revert hmem
    generalize c.toLower = d
    revert d
    decide
  cases scheme with
  | nil => cases hmap
  | cons c rest =>
    refine ⟨halpha c (List.mem_cons_self ..), fun d hd => ?_⟩
    rw [schemeChar, Char.isAlphanum, halpha d (List.mem_cons_of_mem _ hd)]
    rfl

/-- A scheme ends before the first character that is none of a scheme. -/
theorem dropWhile_schemeChar (h : HasScheme t) : ∃ rest, t.dropWhile schemeChar = schemeEnd ++ rest := by
  obtain ⟨scheme, rest, hscheme, rfl⟩ := h
  have hall : ∀ c ∈ scheme, schemeChar c = true := by
    cases scheme with
    | nil => exact hscheme.elim
    | cons c scheme =>
      rw [List.forall_mem_cons]
      refine ⟨?_, hscheme.2⟩
      rw [schemeChar, Char.isAlphanum, hscheme.1]
      rfl
  refine ⟨rest, (takeWhile_append_stop hall ?_).2⟩
  rintro c ⟨⟩
  decide

/-- A mark behind no scheme is taken for the end of one that is not `https`. -/
theorem httpsRest_of_inside (hscheme : ¬HasScheme t) (hinside : schemeEnd <:+: t) : httpsRest t = none := by
  rw [httpsRest]
  cases hbreak : breakOn schemeEnd t with
  | none => exact absurd hinside (not_infix_of_breakOn hbreak (by decide))
  | some p =>
    obtain ⟨scheme, rest⟩ := p
    dsimp only
    split
    · rfl
    · split
      · next hhttps => exact absurd ⟨scheme, rest, rfcScheme_https hhttps, breakOn_eq_some hbreak⟩ hscheme
      · rfl

theorem httpsRest_of_outside (hinside : ¬schemeEnd <:+: t) : httpsRest t = some t := by
  rw [httpsRest]
  cases hbreak : breakOn schemeEnd t with
  | none => rfl
  | some p =>
    refine absurd ⟨p.1, p.2, ?_⟩ hinside
    rw [List.append_assoc]
    exact (breakOn_eq_some hbreak).symm

theorem normalize_congr {t' : List Char} (h : httpsRest t = httpsRest t') :
    normalize t policy = normalize t' policy := by
  rw [normalize, normalize, normalizeStructure, normalizeStructure, h]

theorem normalize_of_none (h : httpsRest t = none) : normalize t policy = none := by
  rw [normalize, normalizeStructure, h]
  rfl

/-- The address of a text behind `https://`, and the checks on the way to it. -/
theorem normalizeStructure_https : normalizeStructure (httpsPrefix ++ t) = some url ↔
    (authorityOf t ≠ [] ∧ '@' ∉ authorityOf t ∧ (authorityOf t).head? ≠ some '[') ∧
      (hostOf t ≠ [] ∧ byteLen (hostOf t) ≤ 253) ∧
      (isIpv4 (hostOf t) = false ∧ isDnsName (hostOf t) = true) ∧ ∃ port,
        portOf (hostPort (authorityOf t)).2 = some port ∧
        url.text = httpsPrefix ++ hostOf t ++ portText port ++ t.dropWhile (!endsAuthority ·) := by
  unfold normalizeStructure
  rw [httpsRest_front, Option.bind_eq_bind, Option.bind_some]
  constructor
  · intro h
    dsimp only at h
    split at h
    · cases h
    next hauthority =>
    split at h
    · cases h
    next hhost =>
    split at h
    · cases h
    next hname =>
    simp only [Option.bind_eq_bind, Option.bind_eq_some_iff, push_eq_some, fromBytes_eq_some] at h
    obtain ⟨port, hport, out₁, ⟨-, rfl⟩, out₂, ⟨hfit₂, rfl⟩, out₃, hpush, out₄, ⟨-, rfl⟩, htext⟩ := h
    obtain ⟨-, rfl⟩ := (pushPort_eq_some hfit₂).mp hpush
    simp only [Bool.or_eq_true, decide_eq_true_eq, not_or, Bool.not_eq_true, Bool.not_eq_true',
      Bool.not_eq_false, Nat.not_lt,
      List.isEmpty_eq_false_iff, List.contains_iff_mem] at hauthority hhost hname
    refine ⟨⟨hauthority.1.1, by simpa [authorityOf] using hauthority.1.2, hauthority.2⟩,
      ⟨fun hnil => hhost.1 (List.map_eq_nil_iff.mp hnil), ?_⟩,
      hname, port, hport, htext⟩
    rw [hostOf, byteLen_lower]
    exact hhost.2
  · rintro ⟨⟨hne, huser, hliteral⟩, ⟨hhost, hlen⟩, ⟨hipv4, hdns⟩, port, hport, htext⟩
    have hfits := url.fits
    rw [htext] at hfits
    have hhost' : (hostPort (authorityOf t)).1 ≠ [] := fun hnil => hhost (List.map_eq_nil_iff.mpr hnil)
    have hlen' : byteLen (hostPort (authorityOf t)).1 ≤ 253 := by rwa [hostOf, byteLen_lower] at hlen
    unfold authorityOf at hne huser hliteral hhost' hlen'
    unfold hostOf authorityOf at hipv4 hdns
    dsimp only
    rw [if_neg (by simp [hne, huser, hliteral]), if_neg (by simp [hhost', hlen']),
      if_neg (by simp [hipv4, hdns])]
    have hfit₂ : byteLen (httpsPrefix ++ hostOf t) ≤ lineCap := by
      simp only [byteLen_append] at hfits ⊢
      omega
    have hfit₃ : byteLen (httpsPrefix ++ hostOf t ++ portText port) ≤ lineCap := by
      simp only [byteLen_append] at hfits ⊢
      omega
    simp only [Option.bind_eq_bind, Option.bind_eq_some_iff, push_eq_some, fromBytes_eq_some]
    exact ⟨port, hport, httpsPrefix, ⟨by decide, rfl⟩, _, ⟨hfit₂, rfl⟩, _,
      (pushPort_eq_some hfit₂).mpr ⟨hfit₃, rfl⟩, _, ⟨hfits, rfl⟩, htext⟩

/-- The policy looks at the host of the text. -/
theorem policyAllows_https (h : normalizeStructure (httpsPrefix ++ t) = some url) :
    policyAllows url policy = true ↔ (hostOf t = hostName ↔ policy = .demoHost) := by
  obtain ⟨⟨hne, huser, hliteral⟩, ⟨hhost, hlen⟩, ⟨hipv4, hdns⟩, port, hport, htext⟩ :=
    (normalizeStructure_https).mp h
  have hhost' : (hostPort (authorityOf t)).1 ≠ [] := fun hnil => hhost (List.map_eq_nil_iff.mpr hnil)
  have hlen' : byteLen (hostPort (authorityOf t)).1 ≤ 253 := by rwa [hostOf, byteLen_lower] at hlen
  have hok : HostOk (hostOf t) := hostOk_of_checks
    (fun c hc => mem_takeWhile_not hc) huser hliteral hhost' hlen' hipv4 hdns
  have hfrom : hostFromUrl url.text = some (hostOf t) := by
    rw [htext, List.append_assoc, List.append_assoc, ← List.append_assoc (hostOf t)]
    exact hostFromUrl_canonical (canonical_of_checks hok hport) head_dropWhile_not
  unfold policyAllows
  rw [hfrom]
  cases policy with
  | demoHost => simp
  | publicName => simp

/-- A text is an address behind `https://` if and only if it is accepted. -/
theorem accepted_iff : Accepted t policy ↔ ∃ url, normalize (httpsPrefix ++ t) policy = some url := by
  constructor
  · rintro ⟨hauthority, hhost, hname, ⟨port, hport, hfits⟩, hpolicy⟩
    have hurl : normalizeStructure (httpsPrefix ++ t) = some ⟨_, hfits⟩ :=
      (normalizeStructure_https).mpr ⟨hauthority, hhost, hname, port, hport, rfl⟩
    exact ⟨_, (normalize_eq_some).mpr ⟨hurl, (policyAllows_https hurl).mpr hpolicy⟩⟩
  · rintro ⟨url, h⟩
    obtain ⟨hurl, hallows⟩ := (normalize_eq_some).mp h
    obtain ⟨hauthority, hhost, hname, port, hport, htext⟩ := (normalizeStructure_https).mp hurl
    exact ⟨hauthority, hhost, hname, ⟨port, hport, htext ▸ url.fits⟩, (policyAllows_https hurl).mp hallows⟩

/-- What is asked of a text: without a scheme it is an `https` address, and its address is its own. -/
def Lawful (t : List Char) (policy : NamePolicy) : Prop :=
  (¬HasScheme t → normalize t policy = normalize (httpsPrefix ++ t) policy) ∧
    ∀ url, normalize t policy = some url → normalize url.text policy = some url

/-- A text is so if and only if it has a scheme, or has no mark, or would be no address anyway. -/
theorem scheme_exact (t : List Char) (policy : NamePolicy) :
    Lawful t policy ↔ HasScheme t ∨ ¬schemeEnd <:+: t ∨ ¬Accepted t policy := by
  constructor
  · rintro ⟨h, -⟩
    by_contra hnot
    rw [not_or, not_or, not_not, not_not] at hnot
    obtain ⟨hscheme, hinside, haccepted⟩ := hnot
    obtain ⟨url, hurl⟩ := (accepted_iff).mp haccepted
    cases (normalize_of_none (httpsRest_of_inside hscheme hinside)).symm.trans ((h hscheme).trans hurl)
  · intro h
    refine ⟨fun hscheme => ?_, fun url hurl => normalize_idem hurl⟩
    by_cases hinside : schemeEnd <:+: t
    · obtain hhas | hnone | hrefused := h
      · exact absurd hhas hscheme
      · exact absurd hinside hnone
      · rw [normalize_of_none (httpsRest_of_inside hscheme hinside)]
        cases hurl : normalize (httpsPrefix ++ t) policy with
        | none => rfl
        | some url => exact absurd ((accepted_iff).mpr ⟨url, hurl⟩) hrefused
    · exact normalize_congr ((httpsRest_of_outside hinside).trans (httpsRest_front t).symm)

/-- The text `w3.org/?u=a://b`. -/
def markBehindName : List Char := ['w', '3', '.', 'o', 'r', 'g', '/', '?', 'u', '=', 'a', ':', '/',
    '/', 'b']

/-- A name with an address in its query is refused, though it is an address behind `https://`. -/
theorem scheme_inside : ¬Lawful markBehindName .publicName := by
  intro h
  have hbare : normalize markBehindName .publicName = none := by decide +kernel
  have hhttps : normalize (httpsPrefix ++ markBehindName) .publicName =
    some ⟨httpsPrefix ++ markBehindName, by decide⟩ := by
    decide +kernel
  have hscheme : ¬HasScheme markBehindName := by
    intro hhas
    obtain ⟨rest, hrest⟩ := dropWhile_schemeChar hhas
    have hdrop : markBehindName.dropWhile schemeChar =
      '/' :: ['?', 'u', '=', 'a', ':', '/', '/', 'b'] := by decide +kernel
    cases hdrop.symm.trans hrest
  cases hbare.symm.trans ((h.1 hscheme).trans hhttps)

end scheme

end Lerux.Desk
