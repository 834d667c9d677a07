import Lerux.Base.Pattern
import Lerux.Base.Slice
import Lerux.Desk.Chrome
import Lerux.Desk.Parts

/-!
# The slices of the desk browser

The functions of `url.rs` and the activation of a link, with each slice at its bytes, each write
into an array at its place and each sum in its type: what is out of range panics here. They are the
functions on characters (`resolveHref_slices`, `activateFocusedLink_slices`), and the one panic is
that of the slice which is compared to `javascript:` (`href_exact`).
-/

namespace Lerux.Desk.Slices

open Slicing

/-! ### Addresses -/

/-- The value of digits, in a type that ends at `limit`. -/
def digitsValue (limit : Nat) (text : List Char) : Option Nat :=
  text.foldlM (fun value c => if value * 10 + (c.toNat - 48) < limit then
    some (value * 10 + (c.toNat - 48)) else none) 0

def parsePort (text : List Char) : Slicing Nat :=
  if text.isEmpty || 5 < byteLen text || !text.all Char.isDigit then ran none
  else do
    let value ← need (digitsValue (2 ^ 32) text)
    if value = 0 ∨ 65535 < value then ran none else ran (some value)

def isOctet (part : List Char) : Slicing Bool :=
  if part.isEmpty || 3 < byteLen part || !part.all Char.isDigit then ran (some false)
  else do
    let value ← need (digitsValue (2 ^ 16) part)
    ran (some (value ≤ 255))

def isIpv4Parts : List (List Char) → Nat → Slicing Bool
  | [], count => ran (some (count == 4))
  | part :: rest, count =>
    if count == 4 then ran (some false)
    else do
      if ← isOctet part then isIpv4Parts rest (count + 1) else ran (some false)

def isIpv4 (host : List Char) : Slicing Bool := isIpv4Parts (host.splitOn '.') 0

/-- The loop of `push_u16`, which has five bytes for the digits. -/
def decimalGo : Nat → Nat → List Char → Option (List Char)
  | 0, _, _ => none
  | i + 1, rest, acc =>
    let acc := Char.ofNat (48 + rest % 10) :: acc
    if rest / 10 = 0 then some acc else decimalGo i (rest / 10) acc

def pushU16 (out : List Char) (value : Nat) : Slicing (List Char) := do
  let digits ← need (decimalGo 5 value [])
  ran (push out digits)

def pushPort (out : List Char) : Option Nat → Slicing (List Char)
  | some port => do
    let out ← ran (push out [':'])
    pushU16 out port
  | none => ran (some out)

/-- The lower case of a name, in an array of `cap` bytes. -/
def lowerInto (cap : Nat) (name : List Char) : Option (List Char) :=
  if byteLen name ≤ cap then some (name.map Char.toLower) else none

/-- The address of the bytes that are written, `out[..n]`. -/
def finish (out : List Char) : Slicing HttpsUrl := do
  let out ← need (if byteLen out ≤ lineCap then some out else none)
  ran (HttpsUrl.fromBytes out)

def httpsRest (text : List Char) : Slicing (List Char) :=
  match findStr schemeEnd text with
  | none => ran (some text)
  | some 0 => ran none
  | some (idx + 1) => do
    let scheme ← need (sliceTo (idx + 1) text)
    if eqIgnoreAsciiCase scheme ['h', 't', 't', 'p', 's'] then need (sliceFrom (idx + 1 + 3) text)
    else ran none

def portOf : Option (List Char) → Slicing (Option Nat)
  | some text => do
    let port ← parsePort text
    ran (some (some port))
  | none => ran (some none)

def normalizeStructure (text : List Char) : Slicing HttpsUrl := do
  let rest ← httpsRest text
  let authorityEnd := (find endsAuthority rest).getD (byteLen rest)
  let authority ← need (sliceTo authorityEnd rest)
  let tail ← need (sliceFrom authorityEnd rest)
  if authority.isEmpty || authority.contains '@' || authority.head? = some '[' then ran none
  else
    let hostRaw := (hostPort authority).1
    if hostRaw.isEmpty || 253 < byteLen hostRaw then ran none
    else do
      let host ← need (lowerInto 253 hostRaw)
      if (← isIpv4 host) || !isDnsName host then ran none
      else do
        let port ← portOf (hostPort authority).2
        let out ← ran (push [] httpsPrefix)
        let out ← ran (push out host)
        let out ← pushPort out port
        let out ← ran (push out tail)
        finish out

def hostFromUrl (text : List Char) : Slicing (List Char) :=
  if !httpsPrefix.isPrefixOf text then ran none
  else do
    let rest ← need (sliceFrom 8 text)
    let authority ← need (sliceTo ((find endsAuthority rest).getD (byteLen rest)) rest)
    let host := (hostPort authority).1
    if host.isEmpty then ran none else ran (some host)

def policyAllows (url : HttpsUrl) (policy : NamePolicy) : Slicing Bool := do
  match ← result (hostFromUrl url.text) with
  | none => ran (some false)
  | some host =>
    match policy with
    | .demoHost => ran (some (host = hostName))
    | .publicName => ran (some (host ≠ hostName))

def normalize (text : List Char) (policy : NamePolicy) : Slicing HttpsUrl := do
  let url ← normalizeStructure text
  if ← policyAllows url policy then ran (some url) else ran none

/-! ### Links -/

def stripHash : List Char → Option (List Char)
  | '#' :: fragment => some fragment
  | _ => none

def splitQueryFragment (rest : List Char) : Slicing (Option (List Char) × Option (List Char)) :=
  match rest with
  | '?' :: after => do
    let queryEnd := (find isHash after).getD (byteLen after)
    let query ← need (sliceTo queryEnd after)
    let rest ← need (sliceFrom queryEnd after)
    ran (some (some query, stripHash rest))
  | '#' :: after => ran (some (none, some after))
  | _ => ran (some (none, none))

def splitPathQueryFragment (tail : List Char) :
    Slicing (List Char × Option (List Char) × Option (List Char)) :=
  if tail.isEmpty then ran (some (['/'], none, none))
  else do
    let pathEnd := (find endsPath tail).getD (byteLen tail)
    let path ← need (if pathEnd = 0 then some ['/'] else sliceTo pathEnd tail)
    let rest ← need (sliceFrom pathEnd tail)
    let parts ← splitQueryFragment rest
    ran (some (path, parts))

def splitUrl (text : List Char) : Slicing UrlParts :=
  if !httpsPrefix.isPrefixOf text then ran none
  else do
    let rest ← need (sliceFrom 8 text)
    let authorityEnd := (find endsAuthority rest).getD (byteLen rest)
    let authority ← need (sliceTo authorityEnd rest)
    let tail ← need (sliceFrom authorityEnd rest)
    let (path, query, fragment) ← splitPathQueryFragment tail
    ran (some { authority, path, query, fragment })

def splitHrefTail (href : List Char) : Slicing (List Char × Option (List Char) × Option (List Char)) :=
  match href with
  | '#' :: fragment => ran (some (['/'], none, some fragment))
  | '?' :: rest => do
    let fragment ← need (match find isHash rest with
      | some i => (sliceFrom (i + 1) rest).map some
      | none => some none)
    let query ← need (sliceTo ((find isHash rest).getD (byteLen rest)) rest)
    ran (some (['/'], some query, fragment))
  | _ => do
    let pathEnd := (find endsPath href).getD (byteLen href)
    let path ← need (sliceTo pathEnd href)
    let rest ← need (sliceFrom pathEnd href)
    let parts ← splitQueryFragment rest
    ran (some (path, parts))

/-- A segment is written into the array at the count. -/
def pushPathSegment (segments : List (List Char)) (seg : List Char) : Slicing (List (List Char)) :=
  if seg.isEmpty ∨ seg = ['.'] then ran (some segments)
  else if seg = ['.', '.'] then ran (some segments.dropLast)
  else if segmentCap ≤ segments.length then ran none
  else need (if segments.length < segmentCap then some (segments ++ [seg]) else none)

def baseDirectory (path : List Char) : Slicing (List Char) :=
  if path = ['/'] then ran (some ['/'])
  else
    match rfind '/' path with
    | none => ran (some ['/'])
    | some 0 => ran (some ['/'])
    | some (idx + 1) => need (sliceTo (idx + 1 + 1) path)

def baseSegments (baseDir : List Char) : Slicing (List (List Char)) :=
  if baseDir ≠ ['/'] then ((trimMatches (· = '/') baseDir).splitOn '/').foldlM pushPathSegment []
  else ran (some [])

def mergePathSegments (baseDir hrefPath : List Char) : Slicing HttpsUrl := do
  let segments ← baseSegments baseDir
  let segments ← (hrefPath.splitOn '/').foldlM pushPathSegment segments
  let out ← ran (push [] ['/'])
  let out ← ran (pushSegments out segments)
  finish out

def normalizePathSegments (path : List Char) (keepTrailingSlash : Bool) : Slicing HttpsUrl := do
  let trailing := keepTrailingSlash || path.getLast? = some '/'
  let segments ← (path.splitOn '/').foldlM pushPathSegment []
  let out ← ran (push [] ['/'])
  if segments.isEmpty then finish out
  else do
    let out ← ran (pushSegments out segments)
    let out ← ran (pushTrailing out trailing)
    finish out

def mergeRelativePath (basePath hrefPath : List Char) : Slicing HttpsUrl := do
  let dir ← baseDirectory basePath
  let merged ← mergePathSegments dir hrefPath
  normalizePathSegments merged.text (hrefPath.getLast? = some '/')

def renderUrl (authority path : List Char) (query fragment : Option (List Char)) : Slicing HttpsUrl := do
  let out ← ran (push [] httpsPrefix)
  let out ← ran (push out authority)
  let out ← ran (push out path)
  let out ← ran (pushQuery out query)
  let out ← ran (pushFragment out fragment)
  finish out

def joinToBase (base : HttpsUrl) (href : List Char) : Slicing HttpsUrl := do
  let parts ← splitUrl base.text
  let (hrefPath, hrefQuery, hrefFragment) ← splitHrefTail href
  let path ←
    if href.head? = some '#' ∨ href.head? = some '?' then ran (some parts.path)
    else if href.head? = some '/' then do
      let url ← normalizePathSegments hrefPath (hrefPath.getLast? = some '/')
      ran (some url.text)
    else do
      let url ← mergeRelativePath parts.path hrefPath
      ran (some url.text)
  let query :=
    if href.head? = some '#' then parts.query
    else if href.contains '?' then hrefQuery
    else none
  let fragment := if href.contains '#' then hrefFragment else none
  renderUrl parts.authority path query fragment

def classifyAgainstBase (base url : HttpsUrl) : Slicing HrefIntent :=
  if url.text = base.text then ran (some .already)
  else do
    match ← result (splitUrl base.text) with
    | none => ran (some (.fetch url))
    | some baseParts =>
      match ← result (splitUrl url.text) with
      | none => ran (some (.fetch url))
      | some urlParts =>
        if baseParts.authority = urlParts.authority ∧ baseParts.path = urlParts.path ∧
          baseParts.query = urlParts.query then
          if baseParts.fragment.isNone ∧ urlParts.fragment.isNone then ran (some .already)
          else ran (some (.fragment url))
        else ran (some (.fetch url))

def finishIntent (base : HttpsUrl) (absolute : List Char) : Slicing HrefIntent := do
  match ← result (normalizeStructure absolute) with
  | none => ran (some .rejected)
  | some url => classifyAgainstBase base url

def emptyHrefIntent (base : HttpsUrl) : Slicing HrefIntent := do
  match ← result (splitUrl base.text) with
  | none => ran (some .rejected)
  | some parts =>
    if parts.fragment.isNone then ran (some .already)
    else do
      match ← result (renderUrl parts.authority parts.path parts.query none) with
      | some url => ran (some (.fragment url))
      | none => ran (some .rejected)

/-- The checks of `resolve_href` behind the one for `javascript:`. The array for an absolute text
has six bytes more than a line. -/
def resolveScheme (base : HttpsUrl) (href : List Char) : Slicing HrefIntent :=
  match findStr schemeEnd href with
  | some idx => do
    let scheme ← need (sliceTo idx href)
    if eqIgnoreAsciiCase scheme ['h', 't', 't', 'p', 's'] then finishIntent base href
    else ran (some .rejected)
  | none =>
    if ['/', '/'].isPrefixOf href then
      if lineCap + 6 < byteLen href + 6 then ran (some .rejected)
      else do
        let absolute ← need (if 6 + byteLen href ≤ lineCap + 6 then
          some (['h', 't', 't', 'p', 's', ':'] ++ href) else none)
        finishIntent base absolute
    else do
      match ← result (joinToBase base href) with
      | some url => finishIntent base url.text
      | none => ran (some .rejected)

def resolveHref (base : HttpsUrl) (href : List Char) : Slicing HrefIntent :=
  let href := trimMatches isAsciiWhitespace href
  if href.isEmpty then emptyHrefIntent base
  else if javascript.length ≤ byteLen href then do
    let start ← need (sliceTo javascript.length href)
    if eqIgnoreAsciiCase start javascript then ran (some .script) else resolveScheme base href
  else resolveScheme base href

def activateFocusedLink (c : Chrome) (base : HttpsUrl) (href : List Char) (shown : Shown)
    (policy : NamePolicy) :
    Slicing (Chrome × Effect) := do
  let trimmed := trimMatches isAsciiWhitespace href
  match ← resolveHref base href with
  | .script => ran (some (c, .none))
  | .already => ran (some (c, .none))
  | .rejected => ran (some (c.rejectFromPage trimmed))
  | .fetch url =>
    match ← result (normalize url.text policy) with
    | none => ran (some (c.rejectFromPage trimmed))
    | some url => if url.text = base.text then ran (some (c, .none)) else ran (some (c.startLoad url shown))
  | .fragment url =>
    match ← result (normalize url.text policy) with
    | none => ran (some (c.rejectFromPage trimmed))
    | some url => ran (some ({ c with inner := .reading url .none }, .none))

/-! ### They do not panic -/

section addresses

variable {text out : List Char} {limit : Nat}

theorem digitsFrom_eq (value : Nat) (hdigits : ∀ c ∈ text, c.isDigit = true)
    (hlimit : (value + 1) * 10 ^ text.length ≤ limit) :
    text.foldlM (fun value c => if value * 10 + (c.toNat - 48) < limit then
      some (value * 10 + (c.toNat - 48)) else none) value =
      some (text.foldl (fun value c => value * 10 + (c.toNat - 48)) value) := by
  induction text generalizing value with
  | nil => rfl
  | cons c text ih =>
    have hc := (isDigit_iff c).mp (hdigits c (List.mem_cons_self ..))
    have hstep : (value * 10 + (c.toNat - 48) + 1) * 10 ^ text.length ≤ limit := by
      refine Nat.le_trans ?_ hlimit
      rw [List.length_cons, Nat.pow_succ, Nat.mul_comm (10 ^ text.length), ← Nat.mul_assoc]
      exact Nat.mul_le_mul_right _ (by omega)
    have hlt : value * 10 + (c.toNat - 48) < limit := by
      have hpos : 0 < 10 ^ text.length := Nat.pow_pos (by decide)
      calc value * 10 + (c.toNat - 48) < (value * 10 + (c.toNat - 48) + 1) * 1 := by omega
        _ ≤ (value * 10 + (c.toNat - 48) + 1) * 10 ^ text.length := Nat.mul_le_mul_left _ hpos
        _ ≤ limit := hstep
    rw [List.foldlM_cons, if_pos hlt, List.foldl_cons]
    exact ih _ (fun d hd => hdigits d (List.mem_cons_of_mem _ hd)) hstep

/-- The digits that are counted before fit their type. -/
theorem digitsValue_eq {count : Nat} (hlen : byteLen text ≤ count)
    (hdigits : text.all Char.isDigit = true) (hlimit : 10 ^ count ≤ limit) :
    digitsValue limit text = some (decimalValue text) := by
  refine digitsFrom_eq 0 (List.all_eq_true.mp hdigits) ?_
  rw [Nat.zero_add, Nat.one_mul]
  exact Nat.le_trans (Nat.pow_le_pow_right (by decide) (Nat.le_trans (length_le_byteLen text) hlen)) hlimit

theorem parsePort_eq (text : List Char) : parsePort text = ran (Desk.parsePort text) := by
  unfold parsePort Desk.parsePort
  split
  · rfl
  · next h =>
    simp only [Bool.or_eq_true, decide_eq_true_eq, not_or, Nat.not_lt, Bool.not_eq_true',
      Bool.not_eq_false] at h
    rw [need_bind (digitsValue_eq h.1.2 h.2 (by decide))]
    exact (apply_ite ran _ _ _).symm

theorem isOctet_eq (part : List Char) : isOctet part = ran (some (Desk.isOctet part)) := by
  unfold isOctet Desk.isOctet
  split
  · rfl
  · next h =>
    simp only [Bool.or_eq_true, decide_eq_true_eq, not_or, Nat.not_lt, Bool.not_eq_true',
      Bool.not_eq_false] at h
    rw [need_bind (digitsValue_eq h.1.2 h.2 (by decide))]

theorem isIpv4Parts_eq (parts : List (List Char)) (count : Nat) : isIpv4Parts parts count =
    ran (some (Desk.isIpv4Parts parts count)) := by
  induction parts generalizing count with
  | nil => rfl
  | cons part rest ih =>
    rw [isIpv4Parts, Desk.isIpv4Parts, isOctet_eq, ran_some_bind, ih]
    cases count == 4 with
    | true => rfl
    | false => cases Desk.isOctet part <;> rfl

theorem isIpv4_eq (host : List Char) : isIpv4 host = ran (some (Desk.isIpv4 host)) := isIpv4Parts_eq _ 0

theorem decimalGo_eq {i rest : Nat} (h : rest < 10 ^ (i + 1)) (acc : List Char) :
    decimalGo (i + 1) rest acc = some (Desk.decimalGo (i + 1) rest acc) := by
  induction i generalizing rest acc with
  | zero =>
    have hten : rest / 10 = 0 := Nat.div_eq_of_lt h
    rw [decimalGo, Desk.decimalGo, if_pos hten, if_pos hten]
  | succ i ih =>
    rw [decimalGo, Desk.decimalGo]
    split
    · rfl
    · refine ih ?_ _
      rw [Nat.pow_succ] at h
      omega

theorem pushPort_eq {port : Option Nat} (h : ∀ p ∈ port, p ≤ 65535) (out : List Char) :
    pushPort out port = ran (Desk.pushPort out port) := by
  cases port with
  | none => rfl
  | some p =>
    refine ran_bind fun out' _ => ?_
    have hp : p < 10 ^ (4 + 1) := Nat.lt_of_le_of_lt (h p rfl) (by decide)
    rw [pushU16, need_bind (decimalGo_eq hp [])]
    rfl

theorem portOf_eq (text : Option (List Char)) : portOf text = ran (Desk.portOf text) := by
  cases text with
  | none => rfl
  | some text =>
    rw [portOf, parsePort_eq, Desk.portOf]
    cases Desk.parsePort text <;> rfl

theorem portOf_le {text : Option (List Char)} {port : Option Nat}
    (h : Desk.portOf text = some port) : ∀ p ∈ port, p ≤ 65535 := by
  rintro p hp
  obtain rfl := Option.mem_def.mp hp
  cases text with
  | none => cases h
  | some text =>
    obtain ⟨value, hvalue, heq⟩ := Option.map_eq_some_iff.mp h
    obtain rfl := Option.some.inj heq
    exact (parsePort_eq_some hvalue).2

theorem finish_eq (h : byteLen out ≤ lineCap) : finish out = ran (HttpsUrl.fromBytes out) :=
  need_bind (if_pos h) _

theorem httpsRest_eq (text : List Char) : httpsRest text = ran (Desk.httpsRest text) := by
  unfold httpsRest Desk.httpsRest
  rw [findStr_eq]
  cases hbreak : breakOn schemeEnd text with
  | none => rfl
  | some p =>
    obtain ⟨scheme, rest⟩ := p
    have htext := Pattern.breakOn_eq_some hbreak
    dsimp only at htext
    rw [Option.map_some]
    cases hlen : byteLen scheme with
    | zero =>
      have hempty : scheme = [] := by
        have hle := length_le_byteLen scheme
        exact List.length_eq_zero_iff.mp (by omega)
      subst hempty
      rfl
    | succ n =>
      have hto : sliceTo (n + 1) text = some scheme := by
        rw [← hlen, htext, sliceTo_append]
      have hfrom : sliceFrom (n + 1 + 3) text = some rest := by
        have hcut := sliceFrom_append (scheme ++ schemeEnd) rest
        rwa [byteLen_append, hlen, List.append_assoc, ← htext] at hcut
      have hne : scheme.isEmpty = false := by
        cases scheme with
        | nil => cases hlen
        | cons c scheme => rfl
      dsimp only
      rw [need_bind hto, hfrom, hne]
      exact (apply_ite ran _ _ _).symm

theorem normalizeStructure_eq (text : List Char) : normalizeStructure text =
    ran (Desk.normalizeStructure text) := by
  unfold normalizeStructure Desk.normalizeStructure
  rw [httpsRest_eq]
  refine ran_bind fun rest _ => ?_
  dsimp only
  rw [need_bind (sliceTo_find endsAuthority rest), need_bind (sliceFrom_find endsAuthority rest)]
  split
  · rfl
  split
  · rfl
  next hhost =>
  simp only [Bool.or_eq_true, decide_eq_true_eq, not_or, Nat.not_lt] at hhost
  rw [need_bind (show lowerInto 253 _ = some _ from if_pos hhost.2), isIpv4_eq, ran_some_bind]
  split
  · rfl
  rw [portOf_eq]
  refine ran_bind fun port hport => ?_
  refine ran_bind fun out₁ _ => ?_
  refine ran_bind fun out₂ _ => ?_
  rw [pushPort_eq (portOf_le hport)]
  refine ran_bind fun out₃ _ => ?_
  refine ran_bind fun out₄ hout => ?_
  obtain ⟨hfits, rfl⟩ := (push_eq_some).mp hout
  exact finish_eq hfits

theorem hostFromUrl_eq (text : List Char) : hostFromUrl text = ran (Desk.hostFromUrl text) := by
  unfold hostFromUrl Desk.hostFromUrl
  split
  · rfl
  · next h =>
    have hfrom : sliceFrom 8 text = some (text.drop httpsPrefix.length) := by
      obtain ⟨rest, rfl⟩ : httpsPrefix <+: text := by simpa using h
      rw [List.drop_left]
      exact sliceFrom_append httpsPrefix rest
    rw [need_bind hfrom, need_bind (sliceTo_find endsAuthority _)]
    exact (apply_ite ran _ _ _).symm

theorem policyAllows_eq (url : HttpsUrl) (policy : NamePolicy) : policyAllows url policy =
    ran (some (Desk.policyAllows url policy)) := by
  unfold policyAllows Desk.policyAllows
  rw [hostFromUrl_eq, result_ran, ran_some_bind]
  cases Desk.hostFromUrl url.text with
  | none => rfl
  | some host => cases policy <;> rfl

theorem normalize_eq (text : List Char) (policy : NamePolicy) : normalize text policy =
    ran (Desk.normalize text policy) := by
  unfold normalize Desk.normalize
  rw [normalizeStructure_eq]
  refine ran_bind fun url _ => ?_
  rw [policyAllows_eq, ran_some_bind]
  exact (apply_ite ran _ _ _).symm

end addresses

section links

variable {t : List Char} {segments : List (List Char)}

theorem splitQueryFragment_eq (rest : List Char) : splitQueryFragment rest =
    ran (some (Desk.splitQueryFragment rest)) := by
  unfold splitQueryFragment
  split
  · rw [need_bind (sliceTo_find isHash _), need_bind (sliceFrom_find isHash _)]
    rfl
  · rfl
  · next hquery hhash => rw [Desk.splitQueryFragment.eq_3 rest hquery hhash]

/-- A path ends at the beginning if and only if it is empty. -/
theorem path_eq (tail : List Char) : (if (find endsPath tail).getD (byteLen tail) = 0 then some ['/'] else
    sliceTo ((find endsPath tail).getD (byteLen tail)) tail) =
      some (if (tail.takeWhile (!endsPath ·)).isEmpty then ['/'] else tail.takeWhile (!endsPath ·)) := by
  rw [sliceTo_find, find_eq]
  cases hpath : tail.takeWhile (!endsPath ·) with
  | nil => rfl
  | cons c path =>
    have hpos := c.utf8Size_pos
    rw [if_neg (by rw [byteLen_cons]; omega)]
    rfl

theorem splitPathQueryFragment_eq (tail : List Char) : splitPathQueryFragment tail =
    ran (some (Desk.splitPathQueryFragment tail)) := by
  unfold splitPathQueryFragment Desk.splitPathQueryFragment
  split
  · rfl
  · rw [need_bind (path_eq tail), need_bind (sliceFrom_find endsPath tail), splitQueryFragment_eq,
      ran_some_bind]

theorem splitUrl_eq (text : List Char) : splitUrl text = ran (Desk.splitUrl text) := by
  unfold splitUrl Desk.splitUrl
  split
  · rfl
  · next h =>
    have hfrom : sliceFrom 8 text = some (text.drop httpsPrefix.length) := by
      obtain ⟨rest, rfl⟩ : httpsPrefix <+: text := by simpa using h
      rw [List.drop_left]
      exact sliceFrom_append httpsPrefix rest
    rw [need_bind hfrom, need_bind (sliceTo_find endsAuthority _),
      need_bind (sliceFrom_find endsAuthority _),
      splitPathQueryFragment_eq, ran_some_bind]

/-- What is behind the first hash. -/
theorem fragment_eq (rest : List Char) : (match find isHash rest with
      | some i => (sliceFrom (i + 1) rest).map some
      | none => some none) = some (match rest.dropWhile (!isHash ·) with
      | '#' :: fragment => some fragment
      | _ => none) := by
  induction rest with
  | nil => rfl
  | cons c rest ih =>
    rw [find, List.dropWhile_cons]
    cases hc : isHash c with
    | true =>
      obtain rfl : c = '#' := of_decide_eq_true hc
      have hcut : sliceFrom 1 ('#' :: rest) = some rest := sliceFrom_append ['#'] rest
      show (sliceFrom 1 ('#' :: rest)).map some = _
      rw [hcut]
      rfl
    | false =>
      rw [if_neg Bool.false_ne_true, Bool.not_false, if_pos rfl, ← ih]
      cases find isHash rest with
      | none => rfl
      | some i =>
        have hpos := c.utf8Size_pos
        have hsub : c.utf8Size + i + 1 - c.utf8Size = i + 1 := by omega
        show (sliceFrom (c.utf8Size + i + 1) (c :: rest)).map some = _
        rw [sliceFrom, if_pos (by omega), hsub]

theorem splitHrefTail_eq (href : List Char) :
    splitHrefTail href = ran (some (Desk.splitHrefTail href)) := by
  unfold splitHrefTail
  split
  · rfl
  · rw [need_bind (fragment_eq _), need_bind (sliceTo_find isHash _)]
    rfl
  · next hhash hquery =>
    rw [need_bind (sliceTo_find endsPath _), need_bind (sliceFrom_find endsPath _),
      splitQueryFragment_eq, ran_some_bind,
      Desk.splitHrefTail.eq_3 href hhash hquery]

theorem pushPathSegment_eq (segments : List (List Char)) (seg : List Char) :
    pushPathSegment segments seg = ran (Desk.pushPathSegment segments seg) := by
  unfold pushPathSegment Desk.pushPathSegment
  split
  · rfl
  split
  · rfl
  split
  · rfl
  · next hfull => exact need_eq_ran (if_pos (Nat.lt_of_not_le hfull))

theorem pushPathSegments_eq (segs : List (List Char)) (segments : List (List Char)) :
    segs.foldlM pushPathSegment segments = ran (segs.foldlM Desk.pushPathSegment segments) := by
  induction segs generalizing segments with
  | nil => rfl
  | cons seg segs ih =>
    rw [List.foldlM_cons, List.foldlM_cons, pushPathSegment_eq]
    exact ran_bind fun segments' _ => ih segments'

theorem baseDirectory_eq (path : List Char) :
    baseDirectory path = ran (some (Desk.baseDirectory path)) := by
  unfold baseDirectory Desk.baseDirectory rfind
  split
  · rfl
  cases hsplit : rsplitOnce '/' path with
  | none => rfl
  | some p =>
    obtain ⟨before, rest⟩ := p
    obtain ⟨rfl, -⟩ := rsplitOnce_eq_some hsplit
    rw [Option.map_some]
    cases hlen : byteLen before with
    | zero =>
      have hempty : before = [] := by
        have hle := length_le_byteLen before
        exact List.length_eq_zero_iff.mp (by omega)
      subst hempty
      rfl
    | succ n =>
      have hto : sliceTo (n + 1 + 1) (before ++ '/' :: rest) = some (before ++ ['/']) := by
        have hcut := sliceTo_append (before ++ ['/']) rest
        rwa [byteLen_append, hlen, List.append_assoc] at hcut
      have hne : before.isEmpty = false := by
        cases before with
        | nil => cases hlen
        | cons c before => rfl
      dsimp only
      rw [need_eq_ran hto, hne]
      rfl

theorem byteLen_pushSegments {out r : List Char} (hout : byteLen out ≤ lineCap)
    (h : pushSegments out segments = some r) : byteLen r ≤ lineCap := by
  induction segments generalizing out with
  | nil =>
    cases h
    exact hout
  | cons seg segments ih =>
    cases segments with
    | nil =>
      obtain ⟨hfits, rfl⟩ := (push_eq_some).mp h
      exact hfits
    | cons next rest =>
      simp only [pushSegments, Option.bind_eq_bind, Option.bind_eq_some_iff, push_eq_some] at h
      obtain ⟨out₁, -, out₂, ⟨hfits, rfl⟩, h⟩ := h
      exact ih hfits h

theorem byteLen_pushTrailing {out r : List Char} {trailing : Bool} (hout : byteLen out ≤ lineCap)
    (h : pushTrailing out trailing = some r) :
    byteLen r ≤ lineCap := by
  unfold pushTrailing at h
  split at h
  · obtain ⟨hfits, rfl⟩ := (push_eq_some).mp h
    exact hfits
  · cases h
    exact hout

theorem normalizePathSegments_eq (path : List Char) (keep : Bool) :
    normalizePathSegments path keep = ran (Desk.normalizePathSegments path keep) := by
  unfold normalizePathSegments Desk.normalizePathSegments
  rw [pushPathSegments_eq]
  refine ran_bind fun segments _ => ?_
  refine ran_bind fun out hout => ?_
  obtain ⟨hfits, rfl⟩ := (push_eq_some).mp hout
  split
  · exact finish_eq hfits
  · refine ran_bind fun out₁ hout₁ => ?_
    refine ran_bind fun out₂ hout₂ => ?_
    exact finish_eq (byteLen_pushTrailing (byteLen_pushSegments hfits hout₁) hout₂)

theorem baseSegments_eq (baseDir : List Char) : baseSegments baseDir = ran (Desk.baseSegments baseDir) := by
  unfold baseSegments Desk.baseSegments
  split
  · exact pushPathSegments_eq _ _
  · rfl

theorem mergePathSegments_eq (baseDir hrefPath : List Char) : mergePathSegments baseDir hrefPath =
    ran (Desk.mergePathSegments baseDir hrefPath) := by
  unfold mergePathSegments Desk.mergePathSegments
  rw [baseSegments_eq]
  refine ran_bind fun segments _ => ?_
  rw [pushPathSegments_eq]
  refine ran_bind fun segments' _ => ?_
  refine ran_bind fun out hout => ?_
  obtain ⟨hfits, rfl⟩ := (push_eq_some).mp hout
  refine ran_bind fun out₁ hout₁ => ?_
  exact finish_eq (byteLen_pushSegments hfits hout₁)

theorem mergeRelativePath_eq (basePath hrefPath : List Char) :
    mergeRelativePath basePath hrefPath = ran (Desk.mergeRelativePath basePath hrefPath) := by
  unfold mergeRelativePath Desk.mergeRelativePath
  rw [baseDirectory_eq, ran_some_bind, mergePathSegments_eq]
  refine ran_bind fun merged _ => ?_
  exact normalizePathSegments_eq _ _

theorem renderUrl_eq (authority path : List Char) (query fragment : Option (List Char)) :
    renderUrl authority path query fragment = ran (Desk.renderUrl authority path query fragment) := by
  unfold renderUrl Desk.renderUrl
  refine ran_bind fun out₁ _ => ?_
  refine ran_bind fun out₂ _ => ?_
  refine ran_bind fun out₃ hout₃ => ?_
  obtain ⟨hfits₃, rfl⟩ := (push_eq_some).mp hout₃
  refine ran_bind fun out₄ hout₄ => ?_
  refine ran_bind fun out₅ hout₅ => ?_
  obtain ⟨hfits₄, rfl⟩ := (pushQuery_eq_some hfits₃).mp hout₄
  obtain ⟨hfits₅, rfl⟩ := (pushFragment_eq_some hfits₄).mp hout₅
  exact finish_eq hfits₅

theorem joinToBase_eq (base : HttpsUrl) (href : List Char) : joinToBase base href =
    ran (Desk.joinToBase base href) := by
  unfold joinToBase Desk.joinToBase
  rw [splitUrl_eq]
  refine ran_bind fun parts _ => ?_
  rw [splitHrefTail_eq, ran_some_bind]
  dsimp only
  split
  · exact renderUrl_eq _ _ _ _
  split
  · rw [normalizePathSegments_eq]
    cases Desk.normalizePathSegments (Desk.splitHrefTail href).1
      ((Desk.splitHrefTail href).1.getLast? = some '/') with
    | none => rfl
    | some url => exact renderUrl_eq _ _ _ _
  · rw [mergeRelativePath_eq]
    cases Desk.mergeRelativePath parts.path (Desk.splitHrefTail href).1 with
    | none => rfl
    | some url => exact renderUrl_eq _ _ _ _

theorem classifyAgainstBase_eq (base url : HttpsUrl) : classifyAgainstBase base url =
    ran (some (Desk.classifyAgainstBase base url)) := by
  unfold classifyAgainstBase Desk.classifyAgainstBase
  split
  · rfl
  rw [splitUrl_eq, splitUrl_eq, result_ran, ran_some_bind]
  cases Desk.splitUrl base.text with
  | none => rfl
  | some baseParts =>
    dsimp only
    rw [result_ran, ran_some_bind]
    cases Desk.splitUrl url.text with
    | none => rfl
    | some urlParts =>
      dsimp only
      split
      · exact (apply_ite (fun x => ran (some x)) _ _ _).symm
      · rfl

theorem finishIntent_eq (base : HttpsUrl) (absolute : List Char) : finishIntent base absolute =
    ran (some (Desk.finishIntent base absolute)) := by
  unfold finishIntent Desk.finishIntent
  rw [normalizeStructure_eq, result_ran, ran_some_bind]
  cases Desk.normalizeStructure absolute with
  | none => rfl
  | some url => exact classifyAgainstBase_eq base url

theorem emptyHrefIntent_eq (base : HttpsUrl) : emptyHrefIntent base =
    ran (some (Desk.emptyHrefIntent base)) := by
  unfold emptyHrefIntent Desk.emptyHrefIntent
  rw [splitUrl_eq, result_ran, ran_some_bind]
  cases Desk.splitUrl base.text with
  | none => rfl
  | some parts =>
    dsimp only
    split
    · rfl
    · rw [renderUrl_eq, result_ran, ran_some_bind]
      cases Desk.renderUrl parts.authority parts.path parts.query none <;> rfl

theorem resolveScheme_eq (base : HttpsUrl) (href : List Char) : resolveScheme base href =
    ran (some (Desk.resolveScheme base href)) := by
  unfold resolveScheme Desk.resolveScheme
  rw [findStr_eq]
  cases hbreak : breakOn schemeEnd href with
  | some p =>
    obtain ⟨scheme, rest⟩ := p
    have hto : sliceTo (byteLen scheme) href = some scheme := by
      rw [Pattern.breakOn_eq_some hbreak, sliceTo_append]
    rw [Option.map_some]
    dsimp only
    rw [need_bind hto, finishIntent_eq]
    exact (apply_ite (fun x => ran (some x)) _ _ _).symm
  | none =>
    rw [Option.map_none]
    dsimp only
    split
    · split
      · rfl
      · next hlen =>
        have hfits : 6 + byteLen href ≤ lineCap + 6 := by omega
        rw [need_bind (if_pos hfits)]
        exact finishIntent_eq _ _
    · rw [joinToBase_eq, result_ran, ran_some_bind]
      cases Desk.joinToBase base href with
      | none => rfl
      | some url => exact finishIntent_eq _ _

/-- The slices of a link are those of its characters, with the one that the model on characters has. -/
theorem resolveHref_slices (base : HttpsUrl) (href : List Char) : resolveHref base href =
    need (Desk.resolveHref base href) := by
  unfold resolveHref Desk.resolveHref
  dsimp only
  split
  · exact emptyHrefIntent_eq base
  split
  · cases hslice : sliceTo javascript.length (trimMatches isAsciiWhitespace href) with
    | none => rfl
    | some start =>
      rw [need_bind rfl, resolveScheme_eq]
      show _ = need (if eqIgnoreAsciiCase start javascript = true then some HrefIntent.script else
        some (Desk.resolveScheme base (trimMatches isAsciiWhitespace href)))
      split <;> rfl
  · exact resolveScheme_eq _ _

theorem activateFocusedLink_slices (c : Chrome) (base : HttpsUrl) (href : List Char) (shown : Shown)
    (policy : NamePolicy) :
    activateFocusedLink c base href shown policy = need (c.activateFocusedLink base href shown policy) := by
  unfold activateFocusedLink Chrome.activateFocusedLink
  rw [resolveHref_slices]
  cases hresolve : Desk.resolveHref base href with
  | none => rfl
  | some intent =>
    rw [need_bind rfl]
    cases intent with
    | script => rfl
    | already => rfl
    | rejected => rfl
    | fetch url =>
      dsimp only
      rw [normalize_eq, result_ran, ran_some_bind]
      cases hnormal : Desk.normalize url.text policy with
      | none =>
        dsimp only [Option.bind_eq_bind, Option.bind_some]
        rw [hnormal]
        rfl
      | some found =>
        dsimp only [Option.bind_eq_bind, Option.bind_some]
        rw [hnormal]
        dsimp only
        split <;> rfl
    | fragment url =>
      dsimp only
      rw [normalize_eq, result_ran, ran_some_bind]
      cases hnormal : Desk.normalize url.text policy with
      | none =>
        dsimp only [Option.bind_eq_bind, Option.bind_some]
        rw [hnormal]
        rfl
      | some found =>
        dsimp only [Option.bind_eq_bind, Option.bind_some]
        rw [hnormal]
        rfl

end links

/-! ### The one panic -/

/-- The byte where `javascript:` ends in the trimmed link is the beginning of a character, or is
behind the link. -/
def Boundary (href : List Char) : Prop :=
  byteLen (trimMatches isAsciiWhitespace href) < javascript.length ∨
    ∃ before behind, trimMatches isAsciiWhitespace href = before ++ behind ∧ byteLen before =
      javascript.length

/-- No function of a link panics. -/
def Survives (base : HttpsUrl) (href : List Char) : Prop :=
  ¬(resolveHref base href).Panics ∧ ∀ c shown policy, ¬(activateFocusedLink c base href shown policy).Panics

theorem resolveHref_eq_none {base : HttpsUrl} {href : List Char} : Desk.resolveHref base href =
    none ↔ ¬Boundary href := by
  unfold Desk.resolveHref Boundary
  generalize trimMatches isAsciiWhitespace href = t
  dsimp only
  split
  · next hempty =>
    obtain rfl := List.isEmpty_iff.mp hempty
    exact iff_of_false (Option.some_ne_none _) (not_not.mpr (.inl (by decide)))
  split
  · next hlong =>
    have hslice : sliceTo javascript.length t = none ↔ ¬(byteLen t < javascript.length ∨
        ∃ before behind, t = before ++ behind ∧ byteLen before = javascript.length) := by
      rw [sliceTo_eq_none]
      constructor
      · rintro hnone (hshort | ⟨before, behind, heq, hlen⟩)
        · exact absurd hlong (Nat.not_le.mpr hshort)
        · exact hnone before behind heq hlen
      · intro hnot before behind heq hlen
        exact hnot (.inr ⟨before, behind, heq, hlen⟩)
    rw [← hslice]
    cases sliceTo javascript.length t with
    | none => exact iff_of_true rfl rfl
    | some start =>
      refine iff_of_false ?_ (Option.some_ne_none _)
      rw [Option.bind_eq_bind, Option.bind_some]
      split <;> exact Option.some_ne_none _
  · next hshort => exact iff_of_false (Option.some_ne_none _) (not_not.mpr (.inl (Nat.lt_of_not_le hshort)))

theorem activate_eq_none {c : Chrome} {base : HttpsUrl} {href : List Char} {shown : Shown}
    {policy : NamePolicy} :
    c.activateFocusedLink base href shown policy = none ↔ Desk.resolveHref base href = none := by
  unfold Chrome.activateFocusedLink
  cases Desk.resolveHref base href with
  | none => exact iff_of_true rfl rfl
  | some intent =>
    refine iff_of_false ?_ (Option.some_ne_none _)
    rw [Option.bind_eq_bind, Option.bind_some]
    cases intent with
    | script => exact Option.some_ne_none _
    | already => exact Option.some_ne_none _
    | rejected => exact Option.some_ne_none _
    | fetch url =>
      dsimp only
      split
      · exact Option.some_ne_none _
      · split <;> exact Option.some_ne_none _
    | fragment url =>
      dsimp only
      split <;> exact Option.some_ne_none _

/-- A link is survived if and only if the byte where `javascript:` ends is no place inside a character. -/
theorem href_exact (base : HttpsUrl) (href : List Char) : Survives base href ↔ Boundary href := by
  have hresolve : (resolveHref base href).Panics ↔ ¬Boundary href := by
    rw [resolveHref_slices, need_panics, resolveHref_eq_none]
  constructor
  · rintro ⟨hsurvives, -⟩
    rwa [hresolve, not_not] at hsurvives
  · intro hboundary
    refine ⟨fun hpanics => hresolve.mp hpanics hboundary, fun c shown policy hpanics => ?_⟩
    rw [activateFocusedLink_slices, need_panics, activate_eq_none, resolveHref_eq_none] at hpanics
    exact hpanics hboundary

/-- The text `aaaaaaaaaaé`. -/
def accentAtEnd : List Char := List.replicate 10 'a' ++ ['é']

/-- The last letter of the link begins at byte 10 and ends at byte 12. -/
theorem href_panics : ¬Survives ⟨httpsPrefix ++ hostName, by decide⟩ accentAtEnd := by
  have hnone : Desk.resolveHref ⟨httpsPrefix ++ hostName, by decide⟩ accentAtEnd = none := by decide +kernel
  exact fun h => ((resolveHref_eq_none).mp hnone) ((href_exact _ _).mp h)

end Lerux.Desk.Slices
