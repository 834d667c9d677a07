import Lerux.Ladybird.Url
import Mathlib.Data.List.Basic

/-!
# Addresses written out

`Display` for `Url`: the port of an address is left out when it is the default of its scheme. What
every chain of parses keeps of an address is `Url.Canonical`, and an address with it is read back
from its text (`Url.Canonical.parse_display`).
-/

namespace Lerux.Ladybird

open Reference (abs climb dots queryOrHash queryText fragmentText)
open scoped Along

def defaultPort (scheme : List Char) : Option Nat := (schemeSpec scheme).bind (·.defaultPort)

def writePathAndQuery (path : List Char) (query : Option (List Char)) : List Char := path ++ queryText query

def portText (url : Url) : List Char :=
  if defaultPort url.scheme ≠ some url.port then ':' :: Nat.toDigits 10 url.port else []

def Url.display (url : Url) : List Char :=
  url.scheme ++ [':', '/', '/'] ++ url.host ++ portText url ++
    writePathAndQuery url.path url.query ++ fragmentText url.fragment

/-- A character that a host keeps. -/
def hostChar (c : Char) : Prop := endsAuthority c = false ∧ c ∉ ['@', '[', ']', ':'] ∧ c.toLower = c

/-- A path that begins at the root and has no segment of dots, no query and no fragment. -/
structure PlainPath (path : List Char) : Prop where
  root : path.head? = some '/'
  segments : ∀ s ∈ path.splitOn '/', ¬dots s
  chars : ∀ c ∈ path, queryOrHash c = false

structure Url.Canonical (url : Url) : Prop where
  scheme : url.scheme = https
  host : url.host ≠ []
  hostChars : ∀ c ∈ url.host, hostChar c
  port : url.port ≤ 65535
  path : PlainPath url.path
  query : ∀ q ∈ url.query, '#' ∉ q

/-! ### Paths -/

section paths

variable {path : List Char} {segments : List (List Char)}

/-- The segments of a path that was written from a stack. -/
theorem splitOn_written (hplain : ∀ s ∈ segments, '/' ∉ s) :
    ('/' :: ['/'].intercalate segments).splitOn '/' = [] :: (if segments = [] then [[]] else segments) := by
  rw [List.splitOn_cons_eq_if_modifyHead, if_pos (beq_self_eq_true _)]
  by_cases hnil : segments = []
  · rw [if_pos hnil, hnil]
    rfl
  · rw [if_neg hnil, List.splitOn_intercalate '/' hplain hnil]

theorem mem_pushDirectorySlash {s : List Char} (h : s ∈ pushDirectorySlash segments) :
    s ∈ segments ∨ s = [] := by
  unfold pushDirectorySlash at h
  split at h
  · exact (List.mem_append.mp h).imp_right List.mem_singleton.mp
  · exact Or.inl h

theorem mem_intercalate {c : Char} (h : c ∈ ['/'].intercalate segments) : c = '/' ∨ ∃ s ∈ segments,
    c ∈ s := by
  have hne : segments ≠ [] := by
    rintro rfl
    cases h
  have habs := List.mem_cons_of_mem '/' h
  rw [← Reference.abs_eq_intercalate hne, mem_abs] at habs
  obtain ⟨s, hs, hc⟩ := habs
  exact hc.imp_right fun hc => ⟨s, hs, hc⟩

/-- What is written of a path is plain. -/
theorem removeDotSegments_plain (hroot : path.head? = some '/')
    (hchars : ∀ c ∈ path, queryOrHash c = false) :
    PlainPath (removeDotSegments path) := by
  obtain ⟨init, last, rfl, hsplit, hinit, hlast⟩ := Reference.exists_segments hroot
  have hall : ∀ s ∈ init ++ [last], '/' ∉ s := by
    intro s hs
    rcases List.mem_append.mp hs with hs | hs
    · exact hinit s hs
    · rwa [List.mem_singleton.mp hs]
  obtain ⟨written, hwritten, hkept⟩ : ∃ written : List (List Char),
      removeDotSegments (abs (init ++ [last])) = '/' :: ['/'].intercalate written ∧
        ∀ s ∈ written, s = [] ∨ (s ∈ init ++ [last] ∧ ¬dots s) := by
    rw [removeDotSegments_source hinit hlast]
    have hstack : ∀ s ∈ (init ++ [last]).foldl climb [], s ∈ init ++ [last] ∧ ¬dots s := fun s hs =>
      (Reference.mem_climb _ _ s hs).resolve_left List.not_mem_nil
    refine ⟨_, rfl, fun s hs => ?_⟩
    split at hs
    · exact (mem_pushDirectorySlash hs).symm.imp_right (hstack s)
    · exact Or.inr (hstack s hs)
  have hplain : ∀ s ∈ written, '/' ∉ s := by
    intro s hs
    rcases hkept s hs with rfl | ⟨hs, -⟩
    · exact List.not_mem_nil
    · exact hall s hs
  have hempty : ¬dots [] := by decide
  refine ⟨removeDotSegments_head _, fun s hs => ?_, fun c hc => ?_⟩
  · rw [hwritten, splitOn_written hplain] at hs
    rcases List.mem_cons.mp hs with rfl | hs
    · exact hempty
    split at hs
    · rw [List.mem_singleton.mp hs]
      exact hempty
    · rcases hkept s hs with rfl | ⟨-, hs⟩
      · exact hempty
      · exact hs
  · rw [hwritten] at hc
    have hslash : queryOrHash '/' = false := rfl
    rcases List.mem_cons.mp hc with rfl | hc
    · exact hslash
    rcases mem_intercalate hc with rfl | ⟨s, hs, hc⟩
    · exact hslash
    rcases hkept s hs with rfl | ⟨hs, -⟩
    · cases hc
    · exact hchars c ((mem_abs).mpr ⟨s, hs, Or.inr hc⟩)

theorem foldl_climb_plain (hdots : ∀ s ∈ segments, ¬dots s) (stack : List (List Char)) :
    segments.foldl climb stack = stack ++ segments := by
  induction segments generalizing stack with
  | nil => exact (List.append_nil stack).symm
  | cons s rest ih =>
    have hs := hdots s List.mem_cons_self
    rw [List.foldl_cons, ih fun s' hs' => hdots s' (List.mem_cons_of_mem s hs'), climb,
      if_neg fun h => hs (Or.inl h),
      if_neg fun h => hs (Or.inr h), List.append_assoc]
    rfl

/-- A plain path is left as it is. -/
theorem PlainPath.removeDotSegments (h : PlainPath path) : Ladybird.removeDotSegments path = path := by
  obtain ⟨init, last, rfl, hsplit, hinit, hlast⟩ := Reference.exists_segments h.root
  have hdots : ∀ s ∈ init ++ [last], ¬dots s := by
    intro s hs
    apply h.segments
    rw [hsplit]
    exact List.mem_cons_of_mem [] hs
  rw [removeDotSegments_source hinit hlast, foldl_climb_plain hdots, List.nil_append,
    sourceText_plain (hdots last (by simp)) (by simp)]

end paths

/-! ### Authorities -/

section authorities

variable {authority host text : List Char} {port default : Nat}

theorem endsAuthority_toLower (c : Char) : endsAuthority c.toLower = endsAuthority c := by
  unfold endsAuthority
  rw [decide_eq_decide.mpr (toLower_eq_iff (c := c) (d := '/') rfl),
    decide_eq_decide.mpr (toLower_eq_iff (c := c) (d := '?') rfl),
    decide_eq_decide.mpr (toLower_eq_iff (c := c) (d := '#') rfl)]

/-- The lower case of a host is one. -/
theorem hostChar_lower (hends : ∀ c ∈ host, endsAuthority c = false)
    (hplain : ∀ c ∈ host, c ∉ ['@', '[', ']', ':']) :
    ∀ c ∈ host.map Char.toLower, hostChar c := by
  intro c hc
  obtain ⟨d, hd, rfl⟩ := List.mem_map.mp hc
  refine ⟨(endsAuthority_toLower d).trans (hends d hd), fun h => hplain d hd ?_, toLower_toLower d⟩
  simpa [toLower_eq_iff] using h

theorem parsePort_le (h : parsePort text = some port) : port ≤ 65535 := by
  unfold parsePort at h
  split at h
  · cases h
  split at h
  · next hle =>
    cases h
    exact hle
  · cases h

theorem parsePort_toDigits (h : port ≤ 65535) : parsePort (Nat.toDigits 10 port) = some port := by
  have hvalue : decimal (Nat.toDigits 10 port) = port := Nat.ofDigitChars_ten_toDigits
  have hdigits : (Nat.toDigits 10 port).all Char.isDigit = true :=
    List.all_eq_true.mpr fun c hc => Nat.isDigit_of_mem_toDigits (by decide) (by decide) hc
  have hne : (Nat.toDigits 10 port).isEmpty = false := by
    rw [List.isEmpty_eq_false_iff]
    exact Nat.toDigits_ne_nil
  rw [parsePort, hne, hdigits, hvalue]
  exact if_pos h

/-- The host and the port as they stand in the authority. -/
def hostAndPort (authority : List Char) (default : Nat) : Option (List Char × Nat) :=
  match rsplitOnce ':' authority with
  | some (host, text) => (parsePort text).map (host, ·)
  | none => some (authority, default)

theorem parseAuthority_eq (authority : List Char) (default : Nat) : parseAuthority authority default =
    if authority.isEmpty || authority.any (fun c => c = '@' || c = '[' || c = ']') then none
    else (hostAndPort authority default).bind fun p =>
      if p.1.isEmpty || p.1.contains ':' then none else some (p.1.map Char.toLower, p.2) := by
  unfold parseAuthority hostAndPort
  split
  · rfl
  · cases rsplitOnce ':' authority with
    | none => rfl
    | some cut => rfl

/-- A host and a port that were read from an authority. -/
theorem parseAuthority_host (h : parseAuthority authority default = some (host, port))
    (hdefault : default ≤ 65535)
    (hends : ∀ c ∈ authority, endsAuthority c = false) : host ≠ [] ∧ (∀ c ∈ host, hostChar c) ∧
      port ≤ 65535 := by
  rw [parseAuthority_eq] at h
  split at h
  · cases h
  next hplain =>
  rw [Bool.not_eq_true, Bool.or_eq_false_iff, List.any_eq_false] at hplain
  obtain ⟨⟨raw, port'⟩, hraw, h⟩ := Option.bind_eq_some_iff.mp h
  have hsub : (∀ c ∈ raw, c ∈ authority) ∧ port' ≤ 65535 := by
    unfold hostAndPort at hraw
    split at hraw
    · next before digits hcut =>
      obtain ⟨p, hp, heq⟩ := Option.map_eq_some_iff.mp hraw
      cases heq
      obtain ⟨hauthority, -⟩ := rsplitOnce_eq_some hcut
      refine ⟨fun c hc => ?_, parsePort_le hp⟩
      rw [hauthority]
      exact List.mem_append_left _ hc
    · cases hraw
      exact ⟨fun c hc => hc, hdefault⟩
  dsimp only at h
  split at h
  · cases h
  next hhost =>
  rw [Bool.not_eq_true, Bool.or_eq_false_iff, List.contains_eq_mem, decide_eq_false_iff_not,
    List.isEmpty_eq_false_iff] at hhost
  cases h
  refine ⟨fun hnil => hhost.1 (List.map_eq_nil_iff.mp hnil),
    hostChar_lower (fun c hc => hends c (hsub.1 c hc)) fun c hc hmem => ?_,
    hsub.2⟩
  have hmarks := hplain.2 c (hsub.1 c hc)
  simp only [List.mem_cons, List.not_mem_nil, or_false] at hmem
  rcases hmem with rfl | rfl | rfl | rfl
  · exact hmarks rfl
  · exact hmarks rfl
  · exact hmarks rfl
  · exact hhost.2 hc

end authorities

/-! ### What every parse keeps -/

section parses

variable {base url : Url} {input tail : List Char}

/-- What is cut off behind an authority. -/
theorem splitTail_cases (tail : List Char) : ∃ path query fragment,
    splitTail tail = (path, query, fragment) ∧
    (∀ c ∈ path, queryOrHash c = false) ∧ ∀ q ∈ query, '#' ∉ q := by
  obtain ⟨path, query, fragment, htail, hpath, hquery, -⟩ := Reference.exists_behind tail
  refine ⟨path, query, fragment, ?_, hpath, hquery⟩
  rw [htail, splitTail_text hpath hquery]

theorem acceptedDefaultPort_some {scheme : List Char} {port : Nat} (h : acceptedDefaultPort scheme =
    some port) :
    scheme = https ∧ port = 443 := by
  unfold acceptedDefaultPort schemeSpec at h
  by_cases hs : scheme = https
  · subst hs
    cases h
    exact ⟨rfl, rfl⟩
  · by_cases hp : scheme = ['h', 't', 't', 'p']
    · subst hp
      cases h
    · simp [schemes, Ne.symm hs, Ne.symm hp] at h

/-- An absolute address from its parts. -/
def addressOf (scheme host : List Char) (port : Nat)
    (tail : List Char × Option (List Char) × Option (List Char)) : Option Url :=
  if !tail.1.isEmpty && !(List.isPrefixOf ['/'] tail.1) then none
  else some ⟨scheme, host, port, Ladybird.removeDotSegments (if tail.1.isEmpty then ['/']
    else tail.1), tail.2.1, tail.2.2⟩

theorem parseAbsolute_eq (schemeRaw afterSlashes : List Char) :
    parseAbsolute schemeRaw ('/' :: '/' :: afterSlashes) =
    (acceptedDefaultPort (schemeRaw.map Char.toLower)).bind fun default =>
      (Ladybird.parseAuthority (splitAuthority afterSlashes).1 default).bind fun p =>
        addressOf (schemeRaw.map Char.toLower) p.1 p.2 (splitTail (splitAuthority afterSlashes).2) :=
  rfl

/-- Without two slashes there is no authority. -/
theorem parseAbsolute_slashes {schemeRaw rest : List Char} (h : parseAbsolute schemeRaw rest = some url) :
    ∃ afterSlashes, rest = '/' :: '/' :: afterSlashes := by
  obtain ⟨default, -, h⟩ := Option.bind_eq_some_iff.mp h
  split at h
  · exact ⟨_, rfl⟩
  · cases h

theorem parseAbsolute_canonical {schemeRaw rest : List Char} (h : parseAbsolute schemeRaw rest =
    some url) : url.Canonical := by
  obtain ⟨afterSlashes, rfl⟩ := parseAbsolute_slashes h
  rw [parseAbsolute_eq] at h
  obtain ⟨default, hdefault, h⟩ := Option.bind_eq_some_iff.mp h
  obtain ⟨hscheme, hdefault⟩ := acceptedDefaultPort_some hdefault
  obtain ⟨⟨host, port⟩, hauthority, h⟩ := Option.bind_eq_some_iff.mp h
  have hends : ∀ c ∈ (splitAuthority afterSlashes).1, endsAuthority c = false :=
    fun c hc => mem_takeWhile_not hc
  obtain ⟨hhost, hhostChars, hport⟩ := parseAuthority_host hauthority (by omega) hends
  obtain ⟨path, query, fragment, hcut, hpath, hquery⟩ := splitTail_cases (splitAuthority afterSlashes).2
  rw [hcut] at h
  unfold addressOf at h
  dsimp only at h
  split at h
  · cases h
  next hroot =>
  cases h
  refine ⟨hscheme, hhost, hhostChars, hport, ?_, hquery⟩
  dsimp only
  by_cases hnil : path = []
  · subst hnil
    have hroot : ∀ c ∈ ['/'], queryOrHash c = false := by decide
    exact removeDotSegments_plain rfl hroot
  · have hempty : path.isEmpty = false := List.isEmpty_eq_false_iff.mpr hnil
    rw [hempty] at hroot ⊢
    refine removeDotSegments_plain ?_ hpath
    rw [Bool.not_false, Bool.true_and, Bool.not_eq_true, Bool.not_eq_false'] at hroot
    obtain ⟨rest, rfl⟩ := List.isPrefixOf_iff_prefix.mp hroot
    rfl

theorem parseRelative_canonical (input : List Char) (hbase : base.Canonical) :
    (parseRelative input base).Canonical := by
  unfold parseRelative
  split
  · exact ⟨hbase.scheme, hbase.host, hbase.hostChars, hbase.port, hbase.path, hbase.query⟩
  obtain ⟨path, query, fragment, hcut, hpath, hquery⟩ := splitTail_cases input
  rw [hcut]
  dsimp only
  refine ⟨hbase.scheme, hbase.host, hbase.hostChars, hbase.port, ?_, hquery⟩
  dsimp only
  split
  · exact hbase.path
  split
  · next hroot =>
    refine removeDotSegments_plain ?_ hpath
    obtain ⟨rest, rfl⟩ := List.isPrefixOf_iff_prefix.mp hroot
    rfl
  · rw [mergePaths_eq]
    refine removeDotSegments_plain (merge_head path hbase.path.root) fun c hc => ?_
    have hslash : queryOrHash '/' = false := rfl
    unfold Reference.merge at hc
    split at hc
    · next before last hlast =>
      obtain ⟨hwhole, -⟩ := rsplitOnce_eq_some hlast
      rcases List.mem_append.mp hc with hc | hc
      · apply hbase.path.chars
        rw [hwhole]
        exact List.mem_append_left _ hc
      · rcases List.mem_cons.mp hc with rfl | hc
        · exact hslash
        · exact hpath c hc
    · rcases List.mem_cons.mp hc with rfl | hc
      · exact hslash
      · exact hpath c hc

theorem Parsed.canonical (h : Parsed url) : url.Canonical := by
  induction h with
  | @mk input base url hbase h ih =>
    unfold Url.parse at h
    split at h
    · exact ih url h
    split at h
    · exact parseAbsolute_canonical h
    · obtain ⟨b, hb, rfl⟩ := Option.map_eq_some_iff.mp h
      exact parseRelative_canonical input (ih b hb)

end parses

/-! ### Reading the text of an address -/

section display

variable {url : Url}

theorem portText_plain (url : Url) : ∀ c ∈ portText url, endsAuthority c = false ∧ c ∉ ['@', '[', ']'] := by
  intro c hc
  unfold portText at hc
  split at hc
  · rcases List.mem_cons.mp hc with rfl | hc
    · decide
    · have hdigit := (isDigit_iff c).mp (Nat.isDigit_of_mem_toDigits (by decide) (by decide) hc)
      have hno : ∀ d : Char, ¬(48 ≤ d.toNat ∧ d.toNat ≤ 57) → c ≠ d := by
        rintro d hd rfl
        exact hd hdigit
      simp [endsAuthority, hno '/' (by decide), hno '?' (by decide), hno '#' (by decide),
        hno '@' (by decide), hno '[' (by decide),
        hno ']' (by decide)]
  · cases hc

theorem defaultPort_https : defaultPort https = some 443 := by decide

/-- The host and the port are read back, the default port from no text. -/
theorem Url.Canonical.parseAuthority (h : url.Canonical) :
    parseAuthority (url.host ++ portText url) httpsDefaultPort = some (url.host, url.port) := by
  have hempty : (url.host ++ portText url).isEmpty = false := by
    rw [List.isEmpty_eq_false_iff]
    exact List.append_ne_nil_of_left_ne_nil h.host _
  have hmarks : (url.host ++ portText url).any (fun c => c = '@' || c = '[' || c = ']') = false := by
    rw [List.any_eq_false]
    intro c hc
    have hplain : c ∉ ['@', '[', ']'] := by
      rcases List.mem_append.mp hc with hc | hc
      · exact fun hmem => (h.hostChars c hc).2.1 (List.mem_append_left [':'] hmem)
      · exact (portText_plain url c hc).2
    simpa [not_or, and_assoc] using hplain
  have hcolon : ':' ∉ url.host := fun hc => (h.hostChars ':' hc).2.1 (by decide)
  have hlower : url.host.map Char.toLower = url.host :=
    (List.map_congr_left fun c hc => (h.hostChars c hc).2.2).trans (List.map_id _)
  have hhost : url.host.isEmpty = false := List.isEmpty_eq_false_iff.mpr h.host
  have hno : url.host.contains ':' = false := by
    rw [List.contains_eq_mem, decide_eq_false_iff_not]
    exact hcolon
  have hcut : hostAndPort (url.host ++ portText url) httpsDefaultPort = some (url.host, url.port) := by
    unfold portText hostAndPort
    rw [h.scheme, defaultPort_https]
    by_cases hport : url.port = 443
    · rw [if_neg (by simp [hport]), List.append_nil, (rsplitOnce_eq_none).mpr hcolon, hport]
      rfl
    · have hdigits : ':' ∉ Nat.toDigits 10 url.port := fun hc => by
        have := Nat.isDigit_of_mem_toDigits (by decide) (by decide) hc
        cases this
      rw [if_pos (by simpa [eq_comm] using hport), rsplitOnce_append _ hdigits]
      dsimp only
      rw [parsePort_toDigits h.port]
      rfl
  rw [parseAuthority_eq, hempty, hmarks, hcut, Bool.or_false, if_neg Bool.false_ne_true, Option.bind_some]
  dsimp only
  rw [hhost, hno, hlower]
  rfl

theorem Url.Canonical.parse_display (h : url.Canonical) : Url.parse url.display none = some url := by
  obtain ⟨tail, htail⟩ : ∃ tail, tail = url.path ++
    (queryText url.query ++ fragmentText url.fragment) := ⟨_, rfl⟩
  have htext : url.display = https ++ ':' :: '/' :: '/' :: (url.host ++ portText url ++ tail) := by
    rw [Url.display, h.scheme, htail, writePathAndQuery]
    simp only [List.append_assoc, List.cons_append, List.nil_append]
  have hscheme : schemeAndRest url.display =
    some (https, '/' :: '/' :: (url.host ++ portText url ++ tail)) := by
    rw [htext]
    exact (schemeLoop_eq_some).mpr ⟨['t', 't', 'p', 's'], rfl, rfl, by decide⟩
  have hauthority : ∀ c ∈ url.host ++ portText url, endsAuthority c = false := by
    intro c hc
    rcases List.mem_append.mp hc with hc | hc
    · exact (h.hostChars c hc).1
    · exact (portText_plain url c hc).1
  have hstart : ∀ c ∈ tail.head?, endsAuthority c = true := by
    intro c hc
    rw [htail, List.head?_append, h.path.root] at hc
    cases hc
    rfl
  obtain ⟨htake, hdrop⟩ := takeWhile_append_tail hauthority hstart
  have hpathCut : splitTail tail = (url.path, url.query, url.fragment) := by
    rw [htail]
    exact splitTail_text h.path.chars h.query
  obtain ⟨rest, hrest⟩ : ∃ rest, url.path = '/' :: rest := by
    have hroot := h.path.root
    cases hpath : url.path with
    | nil =>
      rw [hpath] at hroot
      cases hroot
    | cons c rest =>
      rw [hpath] at hroot
      cases hroot
      exact ⟨rest, rfl⟩
  have hempty : url.display.isEmpty = false := by
    rw [htext]
    rfl
  have hlower : https.map Char.toLower = https := by decide
  have hport : acceptedDefaultPort https = some httpsDefaultPort := by decide
  have hkept := h.path.removeDotSegments
  have hauthorityCut : splitAuthority (url.host ++ portText url ++ tail) =
    (url.host ++ portText url, tail) :=
    Prod.ext htake hdrop
  rw [Url.parse, hempty, hscheme]
  dsimp only
  rw [if_neg Bool.false_ne_true, parseAbsolute_eq, hlower, hport, Option.bind_some, hauthorityCut,
    h.parseAuthority,
    Option.bind_some, hpathCut, addressOf]
  dsimp only
  rw [hrest] at hkept ⊢
  dsimp only [List.isEmpty_cons]
  rw [if_neg (by simp [List.isPrefixOf]), if_neg Bool.false_ne_true, hkept, ← hrest, ← h.scheme]

end display

/-- An address is read back from its text, has a plain path, and is told from every other one by its
text. -/
theorem display_roundTrip {url : Url} (h : Parsed url) :
    Url.parse url.display none = some url ∧ url.path.head? = some '/' ∧
      (∀ s ∈ url.path.splitOn '/', s ≠ ['.'] ∧ s ≠ ['.', '.']) ∧
      ∀ other : Url, Parsed other → (url = other ↔ url.display = other.display) := by
  have hcanonical := h.canonical
  refine ⟨hcanonical.parse_display, hcanonical.path.root,
    fun s hs => not_or.mp (hcanonical.path.segments s hs), fun other hother => ?_⟩
  constructor
  · exact congrArg Url.display
  · intro htext
    have hread := hother.canonical.parse_display
    rw [← htext, hcanonical.parse_display] at hread
    exact Option.some.inj hread

/-- `https://h:8443/a/?` and `https://h/a/`, which is `https://h:443/a/`. -/
def asked : Url := ⟨https, ['h'], 8443, ['/', 'a', '/'], some [], none⟩

theorem asked_parsed : Parsed asked :=
  .mk (fun b hb => absurd hb (Option.not_mem_none b))
    (by decide : Url.parse ['h', 't', 't', 'p', 's', ':', '/', '/', 'H', ':', '8', '4', '4', '3', '/', 'b', '/', '.', '.', '/', 'a', '/', '.', '?']
      none = some asked)

theorem display_roundTrip_asked : Url.parse asked.display none = some asked ∧ asked.path.head? = some '/' ∧
    (∀ s ∈ asked.path.splitOn '/', s ≠ ['.'] ∧ s ≠ ['.', '.']) ∧
    ∀ other : Url, Parsed other → (asked = other ↔ asked.display = other.display) :=
  display_roundTrip asked_parsed

end Lerux.Ladybird
