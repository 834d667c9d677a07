import Lerux.Base.Reference
import Lerux.Desk.Hosts

/-!
# The parts of an address

`split_url` takes an address apart and `render_url` puts one together. `splitUrl_text` and
`renderUrl_eq_some` are the two in terms of the text, and `splitPathQueryFragment_text` says that
the parts of what was put together are the parts it was put together from.
-/

namespace Lerux.Desk

open Reference (queryText fragmentText queryFragment queryFragment_head queryFragment_text
  exists_queryFragment)

/-- An empty fragment is none. -/
def shownFragment (fragment : Option (List Char)) : Option (List Char) := fragment.filter (!·.isEmpty)

section render

variable {authority path : List Char} {query fragment : Option (List Char)} {url : HttpsUrl}

/-- Two pushes in a row. -/
theorem push_push {out a b r : List Char} :
    ((push out a).bind fun out => push out b) = some r ↔ byteLen (out ++ (a ++ b)) ≤ lineCap ∧
      r = out ++ (a ++ b) := by
  simp only [Option.bind_eq_some_iff, push_eq_some, ← List.append_assoc]
  constructor
  · rintro ⟨r₁, ⟨-, rfl⟩, hfit, rfl⟩
    exact ⟨hfit, rfl⟩
  · rintro ⟨hfit, rfl⟩
    refine ⟨_, ⟨?_, rfl⟩, hfit, rfl⟩
    rw [byteLen_append] at hfit
    omega

theorem pushQuery_eq_some {out r : List Char} (hout : byteLen out ≤ lineCap) :
    pushQuery out query = some r ↔ byteLen (out ++ queryText query) ≤ lineCap ∧
      r = out ++ queryText query := by
  cases query with
  | none => simp [pushQuery, queryText, hout, eq_comm]
  | some q => exact push_push

theorem pushFragment_eq_some {out r : List Char} (hout : byteLen out ≤ lineCap) :
    pushFragment out fragment = some r ↔ byteLen (out ++ fragmentText (shownFragment fragment)) ≤ lineCap ∧
      r = out ++ fragmentText (shownFragment fragment) := by
  cases fragment with
  | none => simp [pushFragment, fragmentText, shownFragment, hout, eq_comm]
  | some f =>
    cases f with
    | nil =>
      have hnone : fragmentText (shownFragment (some [])) = [] := rfl
      simp [pushFragment, hnone, hout, eq_comm]
    | cons c f => exact push_push

theorem renderUrl_eq_some : renderUrl authority path query fragment = some url ↔
    url.text = httpsPrefix ++ (authority ++
      (path ++ (queryText query ++ fragmentText (shownFragment fragment)))) := by
  unfold renderUrl
  simp only [Option.bind_eq_bind, Option.bind_eq_some_iff]
  constructor
  · rintro ⟨out₁, h₁, out₂, h₂, out₃, h₃, out₄, h₄, out₅, h₅, hurl⟩
    obtain ⟨-, rfl⟩ := (push_eq_some).mp h₁
    obtain ⟨-, rfl⟩ := (push_eq_some).mp h₂
    obtain ⟨hfit₃, rfl⟩ := (push_eq_some).mp h₃
    obtain ⟨hfit₄, rfl⟩ := (pushQuery_eq_some hfit₃).mp h₄
    obtain ⟨hfit₅, rfl⟩ := (pushFragment_eq_some hfit₄).mp h₅
    rw [(fromBytes_eq_some).mp hurl]
    simp [List.append_assoc]
  · intro htext
    have hfits := url.fits
    rw [htext] at hfits
    simp only [byteLen_append] at hfits
    have hfit₂ : byteLen (httpsPrefix ++ authority) ≤ lineCap := by
      simp only [byteLen_append]
      omega
    have hfit₃ : byteLen (httpsPrefix ++ authority ++ path) ≤ lineCap := by
      simp only [byteLen_append]
      omega
    have hfit₄ : byteLen (httpsPrefix ++ authority ++ path ++ queryText query) ≤ lineCap := by
      simp only [byteLen_append]
      omega
    have hfit₅ : byteLen (httpsPrefix ++ authority ++ path ++ queryText query ++
      fragmentText (shownFragment fragment)) ≤
        lineCap := by
      simp only [byteLen_append]
      omega
    refine ⟨httpsPrefix, (push_eq_some).mpr ⟨by decide, rfl⟩, _, (push_eq_some).mpr ⟨hfit₂, rfl⟩, _,
      (push_eq_some).mpr ⟨hfit₃, rfl⟩,
      _, (pushQuery_eq_some hfit₃).mpr ⟨hfit₄, rfl⟩, _, (pushFragment_eq_some hfit₄).mpr ⟨hfit₅, rfl⟩, ?_⟩
    rw [fromBytes_eq_some, htext]
    simp [List.append_assoc]

end render

section split

variable {path : List Char} {query fragment : Option (List Char)}

theorem splitQueryFragment_eq (rest : List Char) : splitQueryFragment rest = queryFragment rest := rfl

theorem splitPathQueryFragment_text (hpath : ∀ c ∈ path, endsPath c = false) (hq : ∀ q ∈ query, '#' ∉ q) :
    splitPathQueryFragment (path ++ (queryText query ++ fragmentText fragment)) =
      (if path = [] then ['/'] else path, query, fragment) := by
  obtain ⟨htake, hdrop⟩ := takeWhile_append_tail hpath (queryFragment_head query fragment)
  unfold splitPathQueryFragment
  split
  · next hempty =>
    rw [List.isEmpty_iff, List.append_eq_nil_iff, List.append_eq_nil_iff] at hempty
    obtain ⟨rfl, hquery, hfragment⟩ := hempty
    cases query with
    | some q => cases hquery
    | none =>
      cases fragment with
      | some f => cases hfragment
      | none => rfl
  · rw [htake, hdrop, splitQueryFragment_eq, queryFragment_text hq]
    simp [List.isEmpty_iff]

end split

/-! ### Normal addresses by their parts -/

/-- An address with a canonical authority, and its other parts as they stand in it. -/
structure Address (url : HttpsUrl) (authority path : List Char)
    (query fragment : Option (List Char)) : Prop where
  canonical : ∃ host, Canonical authority host
  slash : path = [] ∨ path.head? = some '/'
  pathChars : ∀ c ∈ path, endsPath c = false
  queryChars : ∀ q ∈ query, '#' ∉ q
  text : url.text = httpsPrefix ++ (authority ++ (path ++ (queryText query ++ fragmentText fragment)))

section address

variable {url : HttpsUrl} {authority path : List Char} {query fragment : Option (List Char)}

theorem isTail_parts (hslash : path = [] ∨ path.head? = some '/') (query fragment : Option (List Char)) :
    IsTail (path ++ (queryText query ++ fragmentText fragment)) := by
  intro c hc
  rcases hslash with rfl | hslash
  · have hends : endsPath c = true := queryFragment_head query fragment c hc
    simp only [endsPath, Bool.or_eq_true, decide_eq_true_eq] at hends
    rcases hends with rfl | rfl
    · rfl
    · rfl
  · cases path with
    | nil => cases hslash
    | cons d path =>
      cases hslash
      cases hc
      rfl

theorem Address.normal (h : Address url authority path query fragment) :
    normalizeStructure url.text = some url := by
  obtain ⟨host, hcanonical⟩ := h.canonical
  exact normalizeStructure_canonical hcanonical (isTail_parts h.slash query fragment) h.text

theorem Address.split (h : Address url authority path query fragment) :
    splitUrl url.text = some ⟨authority, if path = [] then ['/'] else path, query, fragment⟩ := by
  obtain ⟨host, hcanonical⟩ := h.canonical
  obtain ⟨htake, hdrop⟩ := takeWhile_append_tail hcanonical.inside (isTail_parts h.slash query fragment)
  have hpre : httpsPrefix.isPrefixOf url.text = true := by
    rw [h.text]
    simp
  unfold splitUrl
  rw [if_neg (by simp [hpre]), h.text, List.drop_left]
  dsimp only
  rw [htake, hdrop, splitPathQueryFragment_text h.pathChars h.queryChars]

theorem address_of_normal {text : List Char} (h : normalizeStructure text = some url) :
    ∃ authority path query fragment, Address url authority path query fragment := by
  obtain ⟨raw, authority, tail, -, hcanonical, htail, htext⟩ := normalizeStructure_inv h
  obtain ⟨query, fragment, hrest, hquery⟩ :=
    exists_queryFragment (head_dropWhile_not (p := endsPath) (t := tail))
  have hcut := List.takeWhile_append_dropWhile (p := (!endsPath ·)) (l := tail)
  refine ⟨authority, tail.takeWhile (!endsPath ·), query, fragment, ⟨_, hcanonical⟩, ?_,
    fun c hc => mem_takeWhile_not hc, hquery, ?_⟩
  · cases tail with
    | nil => exact Or.inl rfl
    | cons c tail =>
      have hc := htail c rfl
      simp only [endsAuthority, Bool.or_eq_true, decide_eq_true_eq] at hc
      rcases hc with (rfl | rfl) | rfl
      · exact Or.inr rfl
      · exact Or.inl rfl
      · exact Or.inl rfl
  · rw [htext, ← hrest, hcut]

end address

end Lerux.Desk
