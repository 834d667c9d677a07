import Lerux.Base.Text

/-!
# Addresses of the desk browser

The address line's normal form of an `https` address, and the resolution of a link against the page.
A `str` is the list of its characters; where the source counts, it counts bytes (`byteLen`). All
delimiters of the source are ASCII, so cutting the bytes at one is cutting the characters at it, and
`Char.isDigit`, `Char.isAlphanum` and `Char.toLower` are about ASCII only, as the source's are.

A failed `Result<_, ()>` is `none`. The result of `resolve_href` is also `none` where the source
panics: it slices the href at byte 11, which may fall inside a character.
-/

namespace Lerux.Desk

def lineCap : Nat := 256

inductive NamePolicy
  | publicName
  | demoHost
  deriving DecidableEq

structure HttpsUrl where
  text : List Char
  fits : byteLen text ≤ lineCap
  deriving DecidableEq

def HttpsUrl.fromBytes (t : List Char) : Option HttpsUrl :=
  if h : byteLen t ≤ lineCap then some ⟨t, h⟩ else none

/-! ### `normalize` -/

/-- The characters that end the authority. -/
def endsAuthority (c : Char) : Bool := c = '/' || c = '?' || c = '#'

def httpsPrefix : List Char := ['h', 't', 't', 'p', 's', ':', '/', '/']

def schemeEnd : List Char := [':', '/', '/']

def push (out bytes : List Char) : Option (List Char) :=
  if byteLen out + byteLen bytes ≤ lineCap then some (out ++ bytes) else none

/-- The digits of a `u16`, from the last one on. -/
def decimalGo : Nat → Nat → List Char → List Char
  | 0, _, acc => acc
  | fuel + 1, rest, acc =>
    let acc := Char.ofNat (48 + rest % 10) :: acc
    if rest / 10 = 0 then acc else decimalGo fuel (rest / 10) acc

def decimal (value : Nat) : List Char := decimalGo 5 value []

def pushU16 (out : List Char) (value : Nat) : Option (List Char) := push out (decimal value)

def decimalValue (text : List Char) : Nat := text.foldl (fun value c => value * 10 + (c.toNat - 48)) 0

def parsePort (text : List Char) : Option Nat :=
  if text.isEmpty || 5 < byteLen text || !text.all Char.isDigit then none
  else
    let value := decimalValue text
    if value = 0 ∨ 65535 < value then none else some value

def isOctet (part : List Char) : Bool :=
  if part.isEmpty || 3 < byteLen part || !part.all Char.isDigit then false else decimalValue part ≤ 255

def isIpv4Parts : List (List Char) → Nat → Bool
  | [], count => count == 4
  | part :: rest, count => if count == 4 || !isOctet part then false else isIpv4Parts rest (count + 1)

def isIpv4 (host : List Char) : Bool := isIpv4Parts (host.splitOn '.') 0

/-- The loop of `is_dns_name`. A label of one byte ends it. -/
def isDnsLabels : List (List Char) → Bool → Bool
  | [], any => any
  | label :: rest, _ =>
    if 63 < byteLen label then false
    else
      match label with
      | [] => false
      | first :: tail =>
        match tail.getLast? with
        -- one character: of one byte, or not alphanumeric
        | none => first.isAlphanum
        | some last =>
          if !first.isAlphanum || !last.isAlphanum then false
          else if !tail.dropLast.all (fun c => c.isAlphanum || c = '-') then false
          else isDnsLabels rest true

def isDnsName (host : List Char) : Bool :=
  if host.isEmpty || 253 < byteLen host then false else isDnsLabels (host.splitOn '.') false

def httpsRest (text : List Char) : Option (List Char) :=
  match breakOn schemeEnd text with
  | none => some text
  | some (scheme, rest) =>
    if scheme.isEmpty then none
    else if eqIgnoreAsciiCase scheme ['h', 't', 't', 'p', 's'] then some rest
    else none

/-- The host and the port of an authority, at the last colon. -/
def hostPort (authority : List Char) : List Char × Option (List Char) :=
  match rsplitOnce ':' authority with
  | some (host, port) => (host, some port)
  | none => (authority, none)

def portOf : Option (List Char) → Option (Option Nat)
  | some text => (parsePort text).map some
  | none => some none

def pushPort (out : List Char) : Option Nat → Option (List Char)
  | some port => do
    let out ← push out [':']
    pushU16 out port
  | none => some out

def normalizeStructure (text : List Char) : Option HttpsUrl := do
  let rest ← httpsRest text
  let authority := rest.takeWhile (!endsAuthority ·)
  let tail := rest.dropWhile (!endsAuthority ·)
  if authority.isEmpty || authority.contains '@' || authority.head? = some '[' then none
  else
    let hostRaw := (hostPort authority).1
    if hostRaw.isEmpty || 253 < byteLen hostRaw then none
    else
      let host := hostRaw.map Char.toLower
      if isIpv4 host || !isDnsName host then none
      else
        let port ← portOf (hostPort authority).2
        let out ← push [] httpsPrefix
        let out ← push out host
        let out ← pushPort out port
        let out ← push out tail
        HttpsUrl.fromBytes out

def hostFromUrl (text : List Char) : Option (List Char) :=
  if !httpsPrefix.isPrefixOf text then none
  else
    let host := (hostPort ((text.drop httpsPrefix.length).takeWhile (!endsAuthority ·))).1
    if host.isEmpty then none else some host

def hostName : List Char := ['h', 'o', 's', 't']

def policyAllows (url : HttpsUrl) (policy : NamePolicy) : Bool :=
  match hostFromUrl url.text with
  | none => false
  | some host =>
    match policy with
    | .demoHost => host = hostName
    | .publicName => host ≠ hostName

def normalize (text : List Char) (policy : NamePolicy) : Option HttpsUrl := do
  let url ← normalizeStructure text
  if policyAllows url policy then some url else none

/-! ### `resolve_href` -/

inductive HrefIntent
  | fetch (url : HttpsUrl)
  | fragment (url : HttpsUrl)
  | already
  | script
  | rejected
  deriving DecidableEq

structure UrlParts where
  authority : List Char
  path : List Char
  query : Option (List Char)
  fragment : Option (List Char)
  deriving DecidableEq

def isHash (c : Char) : Bool := c = '#'

/-- The query and the fragment behind a path. -/
def splitQueryFragment (rest : List Char) : Option (List Char) × Option (List Char) :=
  match rest with
  | '?' :: after =>
    (some (after.takeWhile (!isHash ·)),
      match after.dropWhile (!isHash ·) with
      | '#' :: fragment => some fragment
      | _ => none)
  | '#' :: after => (none, some after)
  | _ => (none, none)

/-- The characters that end a path. -/
def endsPath (c : Char) : Bool := c = '?' || c = '#'

def splitPathQueryFragment (tail : List Char) : List Char × Option (List Char) × Option (List Char) :=
  if tail.isEmpty then (['/'], none, none)
  else
    let path := tail.takeWhile (!endsPath ·)
    (if path.isEmpty then ['/'] else path, splitQueryFragment (tail.dropWhile (!endsPath ·)))

def splitUrl (text : List Char) : Option UrlParts :=
  if !httpsPrefix.isPrefixOf text then none
  else
    let rest := text.drop httpsPrefix.length
    let (path, query, fragment) := splitPathQueryFragment (rest.dropWhile (!endsAuthority ·))
    some { authority := rest.takeWhile (!endsAuthority ·), path, query, fragment }

def pushQuery (out : List Char) : Option (List Char) → Option (List Char)
  | some q => do
    let out ← push out ['?']
    push out q
  | none => some out

/-- An empty fragment is left out. -/
def pushFragment (out : List Char) : Option (List Char) → Option (List Char)
  | some f =>
    if f.isEmpty then some out
    else do
      let out ← push out ['#']
      push out f
  | none => some out

def renderUrl (authority path : List Char) (query fragment : Option (List Char)) : Option HttpsUrl := do
  let out ← push [] httpsPrefix
  let out ← push out authority
  let out ← push out path
  let out ← pushQuery out query
  let out ← pushFragment out fragment
  HttpsUrl.fromBytes out

def classifyAgainstBase (base url : HttpsUrl) : HrefIntent :=
  if url.text = base.text then .already
  else
    match splitUrl base.text, splitUrl url.text with
    | some baseParts, some urlParts =>
      if baseParts.authority = urlParts.authority ∧ baseParts.path = urlParts.path ∧
        baseParts.query = urlParts.query then
        if baseParts.fragment.isNone ∧ urlParts.fragment.isNone then .already else .fragment url
      else .fetch url
    | _, _ => .fetch url

def finishIntent (base : HttpsUrl) (absolute : List Char) : HrefIntent :=
  match normalizeStructure absolute with
  | none => .rejected
  | some url => classifyAgainstBase base url

def emptyHrefIntent (base : HttpsUrl) : HrefIntent :=
  match splitUrl base.text with
  | none => .rejected
  | some parts =>
    if parts.fragment.isNone then .already
    else
      match renderUrl parts.authority parts.path parts.query none with
      | some url => .fragment url
      | none => .rejected

def splitHrefTail (href : List Char) : List Char × Option (List Char) × Option (List Char) :=
  match href with
  | '#' :: fragment => (['/'], none, some fragment)
  | '?' :: rest =>
    (['/'], some (rest.takeWhile (!isHash ·)),
      match rest.dropWhile (!isHash ·) with
      | '#' :: fragment => some fragment
      | _ => none)
  | _ => (href.takeWhile (!endsPath ·), splitQueryFragment (href.dropWhile (!endsPath ·)))

/-- The slots of the array of path segments. -/
def segmentCap : Nat := 64

def pushPathSegment (segments : List (List Char)) (seg : List Char) : Option (List (List Char)) :=
  if seg.isEmpty ∨ seg = ['.'] then some segments
  else if seg = ['.', '.'] then some segments.dropLast
  else if segmentCap ≤ segments.length then none
  else some (segments ++ [seg])

/-- The segments with a slash between any two. -/
def pushSegments (out : List Char) : List (List Char) → Option (List Char)
  | [] => some out
  | [seg] => push out seg
  | seg :: next :: rest => do
    let out ← push out seg
    let out ← push out ['/']
    pushSegments out (next :: rest)

def baseDirectory (path : List Char) : List Char :=
  if path = ['/'] then ['/']
  else
    match rsplitOnce '/' path with
    | none => ['/']
    | some (before, _) => if before.isEmpty then ['/'] else before ++ ['/']

/-- The segments of the base, the first loop of `merge_path_segments`. -/
def baseSegments (baseDir : List Char) : Option (List (List Char)) :=
  if baseDir ≠ ['/'] then ((trimMatches (· = '/') baseDir).splitOn '/').foldlM pushPathSegment []
  else some []

def mergePathSegments (baseDir hrefPath : List Char) : Option HttpsUrl := do
  let segments ← baseSegments baseDir
  let segments ← (hrefPath.splitOn '/').foldlM pushPathSegment segments
  let out ← push [] ['/']
  let out ← pushSegments out segments
  HttpsUrl.fromBytes out

/-- A slash at the end, if there is to be one. -/
def pushTrailing (out : List Char) (trailing : Bool) : Option (List Char) :=
  if trailing && out.getLast? ≠ some '/' then push out ['/'] else some out

def normalizePathSegments (path : List Char) (keepTrailingSlash : Bool) : Option HttpsUrl := do
  let trailing := keepTrailingSlash || path.getLast? = some '/'
  let segments ← (path.splitOn '/').foldlM pushPathSegment []
  let out ← push [] ['/']
  if segments.isEmpty then HttpsUrl.fromBytes out
  else
    let out ← pushSegments out segments
    let out ← pushTrailing out trailing
    HttpsUrl.fromBytes out

def mergeRelativePath (basePath hrefPath : List Char) : Option HttpsUrl := do
  let merged ← mergePathSegments (baseDirectory basePath) hrefPath
  normalizePathSegments merged.text (hrefPath.getLast? = some '/')

def joinToBase (base : HttpsUrl) (href : List Char) : Option HttpsUrl := do
  let parts ← splitUrl base.text
  let (hrefPath, hrefQuery, hrefFragment) := splitHrefTail href
  let path ←
    if href.head? = some '#' ∨ href.head? = some '?' then some parts.path
    else if href.head? = some '/' then (normalizePathSegments hrefPath (hrefPath.getLast? = some '/')).map (·.text)
    else (mergeRelativePath parts.path hrefPath).map (·.text)
  let query :=
    if href.head? = some '#' then parts.query
    else if href.contains '?' then hrefQuery
    else none
  let fragment := if href.contains '#' then hrefFragment else none
  renderUrl parts.authority path query fragment

def isAsciiWhitespace (c : Char) : Bool := c = ' ' || c = '\t' || c = '\n' || c = '\r' || c = '\x0c'

def javascript : List Char := ['j', 'a', 'v', 'a', 's', 'c', 'r', 'i', 'p', 't', ':']

/-- The checks of `resolve_href` behind the one for `javascript:`. -/
def resolveScheme (base : HttpsUrl) (href : List Char) : HrefIntent :=
  match breakOn schemeEnd href with
  | some (scheme, _) =>
    if eqIgnoreAsciiCase scheme ['h', 't', 't', 'p', 's'] then finishIntent base href else .rejected
  | none =>
    if ['/', '/'].isPrefixOf href then
      if lineCap + 6 < byteLen href + 6 then .rejected
      else finishIntent base (['h', 't', 't', 'p', 's', ':'] ++ href)
    else
      match joinToBase base href with
      | some url => finishIntent base url.text
      | none => .rejected

def resolveHref (base : HttpsUrl) (href : List Char) : Option HrefIntent :=
  let href := trimMatches isAsciiWhitespace href
  if href.isEmpty then some (emptyHrefIntent base)
  else if javascript.length ≤ byteLen href then do
    let start ← sliceTo javascript.length href
    if eqIgnoreAsciiCase start javascript then some .script else some (resolveScheme base href)
  else some (resolveScheme base href)

end Lerux.Desk
