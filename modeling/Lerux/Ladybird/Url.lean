import Lerux.Base.Reference

/-!
# Addresses of the ladybird browser

`Url::parse`: an absolute `https` address, or a reference resolved against a base. A `str` is the
list of its characters; all delimiters of the source are ASCII, so that cutting its bytes at one is
cutting its characters. A failed `Result` is `none`.

The dot segments of a path are removed with a stack of segments, and a last segment of dots is given
its slash by a rule of its own (`push_directory_slash`), which gives none behind an empty segment:
`removeDotSegments_standard` says what comes of it. A reference that begins with two slashes is a
path here, though it names an authority. `parse_standard` is the resolution of references
(`Reference.resolve`) on all others.
-/

namespace Lerux.Ladybird

open Reference (Parts abs climb settle dots below queryText fragmentText)

structure Url where
  scheme : List Char
  host : List Char
  port : Nat
  path : List Char
  query : Option (List Char)
  fragment : Option (List Char)
  deriving DecidableEq

structure SchemeSpec where
  name : List Char
  defaultPort : Option Nat
  accepted : Bool

def httpsDefaultPort : Nat := 443

def https : List Char := ['h', 't', 't', 'p', 's']

def schemes : List SchemeSpec := [⟨https, some httpsDefaultPort, true⟩,
    ⟨['h', 't', 't', 'p'], some 80, false⟩]

def schemeSpec (scheme : List Char) : Option SchemeSpec := schemes.find? (·.name = scheme)

def acceptedDefaultPort (scheme : List Char) : Option Nat := do
  let spec ← schemeSpec scheme
  if !spec.accepted then none else spec.defaultPort

def isSchemeByte (c : Char) : Bool := c.isAlphanum || c = '+' || c = '-' || c = '.'

/-- The loop of `scheme_and_rest`, with the bytes that it has passed. -/
def schemeLoop : List Char → List Char → Option (List Char × List Char)
  | _, [] => none
  | passed, c :: rest =>
    if isSchemeByte c then schemeLoop (passed ++ [c]) rest
    else if c = ':' then some (passed, rest)
    else none

def schemeAndRest : List Char → Option (List Char × List Char)
  | [] => none
  | first :: rest => if !first.isAlpha then none else schemeLoop [first] rest

def endsAuthority (c : Char) : Bool := c = '/' || c = '?' || c = '#'

def splitAuthority (input : List Char) : List Char × List Char :=
  (input.takeWhile (!endsAuthority ·), input.dropWhile (!endsAuthority ·))

def decimal (text : List Char) : Nat := text.foldl (fun n c => 10 * n + (c.toNat - '0'.toNat)) 0

def parsePort (text : List Char) : Option Nat :=
  if text.isEmpty || !text.all Char.isDigit then none
  else if decimal text ≤ 65535 then some (decimal text)
  else none

def parseAuthority (authority : List Char) (defaultPort : Nat) : Option (List Char × Nat) :=
  if authority.isEmpty || authority.any (fun c => c = '@' || c = '[' || c = ']') then none
  else do
    let (host, port) ← match rsplitOnce ':' authority with
      | some (host, portText) => (parsePort portText).map (host, ·)
      | none => some (authority, defaultPort)
    if host.isEmpty || host.contains ':' then none else some (host.map Char.toLower, port)

def splitTail (input : List Char) : List Char × Option (List Char) × Option (List Char) :=
  let (beforeFragment, fragment) := match breakOn ['#'] input with
    | some (path, fragment) => (path, some fragment)
    | none => (input, none)
  let (path, query) := match breakOn ['?'] beforeFragment with
    | some (path, query) => (path, some query)
    | none => (beforeFragment, none)
  (path, query, fragment)

def mergePaths (basePath relative : List Char) : List Char :=
  let directory := match rsplitOnce '/' basePath with
    | some (before, _) => before ++ ['/']
    | none => ['/']
  directory ++ relative

def pushSegment (segments : List (List Char)) (segment : List Char) : List (List Char) :=
  if segment = ['.'] then segments
  else if segment = ['.', '.'] then segments.dropLast
  else segments ++ [segment]

def endsWithDotSegment (path : List Char) : Bool :=
  match rsplitOnce '/' path with
  | some (_, last) => last = ['.'] || last = ['.', '.']
  | none => false

def pushDirectorySlash (segments : List (List Char)) : List (List Char) :=
  if segments.getLast?.any (!·.isEmpty) then segments ++ [[]] else segments

def removeDotSegments (path : List Char) : List Char :=
  let segments := ((path.splitOn '/').drop 1).foldl pushSegment []
  let segments := if endsWithDotSegment path then pushDirectorySlash segments else segments
  '/' :: ['/'].intercalate segments

def parseAbsolute (schemeRaw rest : List Char) : Option Url := do
  let scheme := schemeRaw.map Char.toLower
  let defaultPort ← acceptedDefaultPort scheme
  match rest with
  | '/' :: '/' :: afterSlashes =>
    let (authority, tail) := splitAuthority afterSlashes
    let (host, port) ← parseAuthority authority defaultPort
    let (pathText, query, fragment) := splitTail tail
    if !pathText.isEmpty && !(List.isPrefixOf ['/'] pathText) then none
    else
      some { scheme, host, port, query, fragment
             path := removeDotSegments (if pathText.isEmpty then ['/'] else pathText) }
  | _ => none

def parseRelative (input : List Char) (base : Url) : Url :=
  match input with
  | '#' :: fragment => { base with fragment := some fragment }
  | _ =>
    let (pathText, query, fragment) := splitTail input
    let path :=
      if pathText.isEmpty then base.path
      else if List.isPrefixOf ['/'] pathText then removeDotSegments pathText
      else removeDotSegments (mergePaths base.path pathText)
    { base with path, query, fragment }

def Url.parse (input : List Char) (base : Option Url) : Option Url :=
  if input.isEmpty then base
  else
    match schemeAndRest input with
    | some (scheme, rest) => parseAbsolute scheme rest
    | none => base.map (parseRelative input)

/-! ### Schemes -/

/-- The text begins with a scheme: a letter, letters, digits, `+`, `-` and `.`, and a colon. -/
def HasScheme (t : List Char) : Prop :=
  ∃ first more rest, t = first :: more ++ ':' :: rest ∧ first.isAlpha = true ∧ ∀ c ∈ more,
    isSchemeByte c = true

theorem schemeLoop_eq_some {t scheme rest : List Char} : ∀ {passed : List Char},
    schemeLoop passed t = some (scheme, rest) ↔
      ∃ more, t = more ++ ':' :: rest ∧ scheme = passed ++ more ∧ ∀ c ∈ more, isSchemeByte c = true := by
  induction t with
  | nil => simp [schemeLoop]
  | cons c t ih =>
    intro passed
    rw [schemeLoop]
    by_cases hc : isSchemeByte c = true
    · rw [if_pos hc, ih]
      constructor
      · rintro ⟨more, rfl, rfl, hmore⟩
        exact ⟨c :: more, rfl, by simp, by simpa [hc] using hmore⟩
      · rintro ⟨more, ht, rfl, hmore⟩
        cases more with
        | nil =>
          cases ht
          cases hc
        | cons d more =>
          cases ht
          exact ⟨more, rfl, by simp, fun d hd => hmore d (List.mem_cons_of_mem c hd)⟩
    · rw [if_neg hc]
      constructor
      · intro h
        split at h
        · next hcolon =>
          cases h
          subst hcolon
          exact ⟨[], rfl, by simp, by simp⟩
        · cases h
      · rintro ⟨more, ht, rfl, hmore⟩
        cases more with
        | nil =>
          cases ht
          simp
        | cons d more =>
          cases ht
          exact absurd (hmore c List.mem_cons_self) hc

theorem schemeAndRest_eq_none {t : List Char} : schemeAndRest t = none ↔ ¬HasScheme t := by
  rw [← not_iff_not, not_not]
  cases t with
  | nil =>
    refine ⟨fun h => absurd rfl h, ?_⟩
    rintro ⟨first, more, rest, h, -⟩
    cases h
  | cons c t =>
    rw [schemeAndRest, ← ne_eq, Option.ne_none_iff_exists']
    by_cases hc : c.isAlpha = true
    · rw [hc]
      constructor
      · rintro ⟨⟨scheme, rest⟩, h⟩
        obtain ⟨more, rfl, -, hmore⟩ := (schemeLoop_eq_some).mp h
        exact ⟨c, more, rest, rfl, hc, hmore⟩
      · rintro ⟨first, more, rest, h, -, hmore⟩
        cases h
        exact ⟨(c :: more, rest), (schemeLoop_eq_some).mpr ⟨more, rfl, rfl, hmore⟩⟩
    · rw [Bool.not_eq_true] at hc
      rw [hc]
      constructor
      · rintro ⟨x, h⟩
        cases h
      · rintro ⟨first, more, rest, h, hfirst, -⟩
        cases h
        rw [hc] at hfirst
        cases hfirst

/-! ### Dot segments -/

/-- The path ends in a segment of dots, and in two slashes when it is left. -/
def Doubled (path : List Char) : Prop :=
  endsWithDotSegment path = true ∧ ['/', '/'] <:+ Reference.removeDotSegments path

/-- What the source writes of a stack, the last segment of the path being this one. -/
def sourceText (last : List Char) (stack : List (List Char)) : List Char :=
  '/' :: ['/'].intercalate (if dots last then pushDirectorySlash stack else stack)

/-- What the standard writes of it. -/
def standardText (last : List Char) (stack : List (List Char)) : List Char :=
  if dots last then abs stack ++ ['/'] else abs stack

section dotSegments

variable {init stack : List (List Char)} {last path : List Char}

theorem endsWithDotSegment_abs (hlast : '/' ∉ last) : endsWithDotSegment (abs (init ++ [last])) =
    true ↔ dots last := by
  rw [Reference.abs_append, Reference.abs_singleton, endsWithDotSegment, rsplitOnce_append _ hlast]
  simp [dots]

theorem splitOn_abs (hinit : ∀ s ∈ init, '/' ∉ s) (hlast : '/' ∉ last) :
    (abs (init ++ [last])).splitOn '/' = [] :: (init ++ [last]) := by
  have hne : init ++ [last] ≠ [] := by simp
  have hall : ∀ s ∈ init ++ [last], '/' ∉ s := by
    intro s hs
    rcases List.mem_append.mp hs with hs | hs
    · exact hinit s hs
    · rwa [List.mem_singleton.mp hs]
  rw [Reference.abs_eq_intercalate hne, List.splitOn_cons_eq_if_modifyHead, if_pos (beq_self_eq_true _),
    List.splitOn_intercalate '/' hall hne]

theorem removeDotSegments_source (hinit : ∀ s ∈ init, '/' ∉ s) (hlast : '/' ∉ last) :
    removeDotSegments (abs (init ++ [last])) = sourceText last ((init ++ [last]).foldl climb []) := by
  have hends := @endsWithDotSegment_abs init last hlast
  unfold removeDotSegments sourceText
  dsimp only
  rw [splitOn_abs hinit hlast, List.drop_succ_cons, List.drop_zero]
  by_cases hdots : dots last
  · rw [if_pos hdots, if_pos (hends.mpr hdots)]
    rfl
  · rw [if_neg hdots, if_neg fun h => hdots (hends.mp h)]
    rfl

theorem removeDotSegments_target (hinit : ∀ s ∈ init, '/' ∉ s) (hlast : '/' ∉ last) :
    Reference.removeDotSegments (abs (init ++ [last])) =
      standardText last ((init ++ [last]).foldl climb []) := by
  rw [Reference.removeDotSegments_abs hinit hlast, List.foldl_append, List.foldl_cons,
    List.foldl_nil, settle, standardText]
  by_cases hdots : dots last
  · rw [if_pos hdots, if_pos hdots, Reference.abs_append, Reference.abs_singleton]
  · have hplain : ∀ stack, climb stack last = stack ++ [last] := fun stack => by
      rw [climb, if_neg fun h => hdots (Or.inl h), if_neg fun h => hdots (Or.inr h)]
    rw [if_neg hdots, if_neg hdots, hplain]

theorem sourceText_plain (hdots : ¬dots last) (hne : stack ≠ []) : sourceText last stack = abs stack := by
  rw [sourceText, if_neg hdots, Reference.abs_eq_intercalate hne]

theorem sourceText_nil (hdots : dots last) : sourceText last [] = ['/'] := by
  rw [sourceText, if_pos hdots]
  rfl

theorem sourceText_filled {s : List Char} (hdots : dots last) (hs : s ≠ []) :
    sourceText last (stack ++ [s]) = abs (stack ++ [s]) ++ ['/'] := by
  have hpush : pushDirectorySlash (stack ++ [s]) = stack ++ [s] ++ [[]] := by
    rw [pushDirectorySlash, List.getLast?_concat, if_pos (by simpa using hs)]
  rw [sourceText, if_pos hdots, hpush, ← Reference.abs_eq_intercalate (by simp),
    Reference.abs_append (stack ++ [s]),
    Reference.abs_singleton []]

theorem sourceText_empty (hdots : dots last) : sourceText last (stack ++ [[]]) =
    Reference.abs (stack ++ [[]]) := by
  have hpush : pushDirectorySlash (stack ++ [[]]) = stack ++ [[]] := by
    rw [pushDirectorySlash, List.getLast?_concat, if_neg (by simp)]
  rw [sourceText, if_pos hdots, hpush, Reference.abs_eq_intercalate (by simp)]

theorem foldl_climb_ne_nil (hdots : ¬dots last) (init stack : List (List Char)) :
    (init ++ [last]).foldl climb stack ≠ [] := by
  rw [List.foldl_append, List.foldl_cons, List.foldl_nil, climb, if_neg fun h => hdots (Or.inl h),
    if_neg fun h => hdots (Or.inr h)]
  simp

theorem two_slashes_iff (t : List Char) : ['/', '/'] <:+ t ++ ['/'] ↔ t.getLast? = some '/' := by
  rcases List.eq_nil_or_concat t with rfl | ⟨front, c, rfl⟩
  · decide
  · rw [List.concat_eq_append, List.append_assoc, List.getLast?_concat]
    constructor
    · rintro ⟨rest, h⟩
      have hcut := (List.append_inj' h rfl).2
      cases hcut
      rfl
    · intro h
      cases h
      exact ⟨front, rfl⟩

/-- Two slashes at the end of what the standard writes: an empty segment on top of the stack. -/
theorem doubled_iff (hinit : ∀ s ∈ init, '/' ∉ s) (hlast : '/' ∉ last) :
    Doubled (abs (init ++ [last])) ↔ dots last ∧ ((init ++ [last]).foldl climb []).getLast? = some [] := by
  rw [Doubled, endsWithDotSegment_abs hlast, removeDotSegments_target hinit hlast]
  refine and_congr_right fun hdots => ?_
  have hkept : ∀ s ∈ (init ++ [last]).foldl climb [], '/' ∉ s := by
    intro s hs
    rcases Reference.mem_climb _ _ s hs with hs | ⟨hs, -⟩
    · cases hs
    · rcases List.mem_append.mp hs with hs | hs
      · exact hinit s hs
      · rwa [List.mem_singleton.mp hs]
  rw [standardText, if_pos hdots, two_slashes_iff]
  generalize (init ++ [last]).foldl climb [] = stack at hkept
  rcases List.eq_nil_or_concat stack with rfl | ⟨front, top, rfl⟩
  · simp [Reference.abs]
  · rw [List.concat_eq_append] at hkept ⊢
    rw [Reference.getLast_abs, List.getLast?_concat]
    split
    · next htop => simp [htop]
    · next htop =>
      have hno : top.getLast? ≠ some '/' := fun h => hkept top (by simp) (List.mem_of_getLast? h)
      simp [hno, htop]

/-- Without an empty segment on top of the stack the two texts are the same, and with one they are not. -/
theorem sourceText_eq_standardText (hne : dots last ∨ stack ≠ []) :
    sourceText last stack = standardText last stack ↔ ¬(dots last ∧ stack.getLast? = some []) := by
  unfold standardText
  by_cases hdots : dots last
  · rw [if_pos hdots]
    rcases List.eq_nil_or_concat stack with rfl | ⟨front, top, rfl⟩
    · simp [sourceText_nil hdots, Reference.abs]
    · rw [List.concat_eq_append, List.getLast?_concat]
      by_cases htop : top = []
      · subst htop
        rw [sourceText_empty hdots]
        simp [hdots]
      · simp [sourceText_filled hdots htop, htop]
  · rw [if_neg hdots, sourceText_plain hdots (hne.resolve_left hdots)]
    simp [hdots]

/-- The source removes the dot segments of a path as the standard does, if that leaves no empty
segment at the end. -/
theorem removeDotSegments_standard (hroot : path.head? = some '/') :
    removeDotSegments path = Reference.removeDotSegments path ↔ ¬Doubled path := by
  obtain ⟨init, last, rfl, -, hinit, hlast⟩ := Reference.exists_segments hroot
  rw [removeDotSegments_source hinit hlast, removeDotSegments_target hinit hlast, doubled_iff hinit hlast]
  apply sourceText_eq_standardText
  by_cases hdots : dots last
  · exact Or.inl hdots
  · exact Or.inr (foldl_climb_ne_nil hdots init [])

end dotSegments

/-! ### Authorities taken for segments -/

/-- The stack behind two slashes and an authority. -/
def front (authority : List Char) : List (List Char) := [[], authority].foldl climb []

/-- How many segments of it are left below the segments of the path. -/
def leftOf (authority path : List Char) : Nat :=
  (front authority).length - below ((path.splitOn '/').drop 1)

/-- The dot segments of the path take the authority away again, when it is taken for a segment of
the path. -/
def Absorbed (authority path : List Char) : Prop :=
  leftOf authority path = 0 ∧ ¬Doubled path ∨
    leftOf authority path = 1 ∧ endsWithDotSegment path = true ∧ ∀ s ∈
      ((path.splitOn '/').drop 1).foldl climb [], s = []

section authority

variable {authority path last : List Char} {stack : List (List Char)}

theorem front_cases (authority : List Char) :
    front authority = [[], authority] ∨ front authority = [[]] ∨ front authority = [] := by
  unfold front
  rw [List.foldl_cons, List.foldl_cons, List.foldl_nil]
  have hempty : climb [] [] = [[]] := rfl
  rw [hempty, climb]
  split
  · exact Or.inr (Or.inl rfl)
  · split
    · exact Or.inr (Or.inr rfl)
    · exact Or.inl rfl

/-- A slash before a text and one behind it. -/
theorem slash_shift_iff {t : List Char} : '/' :: t = t ++ ['/'] ↔ ∀ c ∈ t, c = '/' := by
  constructor
  · intro h
    induction t with
    | nil =>
      intro c hc
      cases hc
    | cons d t ih =>
      rw [List.cons_append] at h
      injection h with hd ht
      subst hd
      intro c hc
      rcases List.mem_cons.mp hc with rfl | hc
      · rfl
      · exact ih ht c hc
  · intro h
    rw [List.eq_replicate_iff.mpr ⟨rfl, h⟩, ← List.replicate_succ, List.replicate_succ']

theorem mem_abs {c : Char} : c ∈ abs stack ↔ ∃ s ∈ stack, c = '/' ∨ c ∈ s := by
  simp [Reference.abs]

theorem abs_slashes (hplain : ∀ s ∈ stack, '/' ∉ s) : (∀ c ∈ abs stack, c = '/') ↔ ∀ s ∈ stack, s = [] := by
  constructor
  · intro h s hs
    cases s with
    | nil => rfl
    | cons c s =>
      obtain rfl := h c ((mem_abs).mpr ⟨c :: s, hs, Or.inr List.mem_cons_self⟩)
      exact absurd List.mem_cons_self (hplain _ hs)
  · intro h c hc
    obtain ⟨s, hs, hc⟩ := (mem_abs).mp hc
    rcases hc with rfl | hc
    · rfl
    · rw [h s hs] at hc
      cases hc

/-- With an empty segment below them. -/
theorem sourceText_shift (hplain : ∀ s ∈ stack, '/' ∉ s) (hne : dots last ∨ stack ≠ []) :
    sourceText last ([] :: stack) = standardText last stack ↔ dots last ∧ ∀ s ∈ stack, s = [] := by
  unfold standardText
  by_cases hdots : dots last
  swap
  · rw [if_neg hdots, sourceText_plain hdots (List.cons_ne_nil _ _), Reference.abs_cons, List.nil_append]
    simp [hdots]
  rw [if_pos hdots]
  rcases List.eq_nil_or_concat stack with rfl | ⟨lower, top, rfl⟩
  · have hone := @sourceText_empty [] last hdots
    rw [List.nil_append] at hone
    rw [hone]
    simp [hdots, Reference.abs]
  rw [List.concat_eq_append] at hplain ⊢
  rw [← List.cons_append]
  by_cases htop : top = []
  · subst htop
    rw [sourceText_empty hdots, List.cons_append, Reference.abs_cons, List.nil_append,
      slash_shift_iff, abs_slashes hplain]
    simp [hdots]
  · rw [sourceText_filled hdots htop, List.cons_append, Reference.abs_cons, List.nil_append,
      List.append_cancel_right_eq]
    simp [htop]

theorem length_sourceText (hne : stack ≠ []) : (abs stack).length ≤ (sourceText last stack).length := by
  by_cases hdots : dots last
  · rcases List.eq_nil_or_concat stack with rfl | ⟨lower, top, rfl⟩
    · exact absurd rfl hne
    rw [List.concat_eq_append]
    by_cases htop : top = []
    · subst htop
      rw [sourceText_empty hdots]
    · rw [sourceText_filled hdots htop, List.length_append]
      omega
  · rw [sourceText_plain hdots hne]

/-- With a segment of its own below them. -/
theorem sourceText_longer (a : List Char) : sourceText last ([] :: a :: stack) ≠
    standardText last stack := by
  intro h
  have hsource := @length_sourceText last ([] :: a :: stack) (List.cons_ne_nil _ _)
  rw [h, Reference.abs_cons, Reference.abs_cons] at hsource
  simp only [standardText, List.length_cons, List.length_append, List.length_nil] at hsource
  split at hsource
  · rw [List.length_append, List.length_singleton] at hsource
    omega
  · omega

/-- An authority that is taken for a segment of the path. -/
theorem removeDotSegments_network (hslash : '/' ∉ authority) (hroot : path.head? = some '/') :
    removeDotSegments ('/' :: '/' :: (authority ++ path)) = Reference.removeDotSegments path ↔
      Absorbed authority path := by
  obtain ⟨init, last, rfl, hsplit, hinit, hlast⟩ := Reference.exists_segments hroot
  have hnetwork : '/' :: '/' :: (authority ++ abs (init ++ [last])) =
    abs ([] :: authority :: init ++ [last]) := by
    rw [List.cons_append, List.cons_append, Reference.abs_cons, Reference.abs_cons]
    rfl
  have hall : ∀ s ∈ [] :: authority :: init, '/' ∉ s := by
    intro s hs
    rcases List.mem_cons.mp hs with rfl | hs
    · exact List.not_mem_nil
    · rcases List.mem_cons.mp hs with rfl | hs
      · exact hslash
      · exact hinit s hs
  have hstack : ([] :: authority :: init ++ [last]).foldl climb [] =
      (front authority).take (leftOf authority (abs (init ++ [last]))) ++
        (init ++ [last]).foldl climb [] := by
    rw [leftOf, hsplit, List.drop_succ_cons, List.drop_zero, ← Reference.foldl_climb_front]
    rfl
  have hsegments : ∀ s ∈ (init ++ [last]).foldl climb [], '/' ∉ s := by
    intro s hs
    rcases Reference.mem_climb _ _ s hs with hs | ⟨hs, -⟩
    · cases hs
    · rcases List.mem_append.mp hs with hs | hs
      · exact hinit s hs
      · rwa [List.mem_singleton.mp hs]
  have hne : dots last ∨ (init ++ [last]).foldl climb [] ≠ [] := by
    by_cases hdots : dots last
    · exact Or.inl hdots
    · exact Or.inr (foldl_climb_ne_nil hdots init [])
  have hstandard := sourceText_eq_standardText hne
  rw [← doubled_iff hinit hlast] at hstandard
  have hshift := sourceText_shift hsegments hne
  rw [hnetwork, removeDotSegments_source hall hlast, removeDotSegments_target hinit hlast, hstack, Absorbed,
    endsWithDotSegment_abs hlast, hsplit, List.drop_succ_cons, List.drop_zero]
  have hleft : leftOf authority (abs (init ++ [last])) ≤ (front authority).length := Nat.sub_le _ _
  generalize leftOf authority (abs (init ++ [last])) = left at hleft
  rcases left with _ | _ | left
  · simpa using hstandard
  · have hone : (front authority).take 1 = [[]] := by
      rcases front_cases authority with hfront | hfront | hfront
      · rw [hfront]
        rfl
      · rw [hfront]
        rfl
      · rw [hfront] at hleft
        cases hleft
    rw [hone]
    simpa using hshift
  · rcases front_cases authority with hfront | hfront | hfront
    · have htwo : (front authority).take (left + 2) = [[], authority] := by
        rw [hfront]
        simp
      rw [htwo]
      simpa using sourceText_longer authority
    · rw [hfront] at hleft
      simp at hleft
    · rw [hfront] at hleft
      simp at hleft

end authority

/-! ### References -/

/-- The addresses that `Url::parse` gives. -/
inductive Parsed : Url → Prop
  | mk {input : List Char} {base : Option Url} {url : Url} (hbase : ∀ b ∈ base, Parsed b)
      (h : Url.parse input base = some url) :
      Parsed url

/-- The parts of an address that a reference is resolved against. -/
def Url.parts (url : Url) : Parts := ⟨none, url.path, url.query, url.fragment⟩

/-- What a reference without a scheme means against a base. -/
def target (base : Url) (reference : List Char) : Option Url := do
  let parts := Reference.parse reference
  let resolved := Reference.resolve base.parts parts
  let (host, port) ← match parts.authority with
    | some authority => parseAuthority authority httpsDefaultPort
    | none => some (base.host, base.port)
  some { scheme := base.scheme, host, port, path := resolved.path, query := resolved.query, fragment := resolved.fragment }

/-- The references that the source resolves as they are meant. -/
def Agrees (base : Url) (r : Parts) : Prop :=
  match r.authority with
  | none => r.path = [] ∨ ¬Doubled (if r.path.head? = some '/' then r.path
    else Reference.merge base.path r.path)
  | some authority =>
    parseAuthority authority httpsDefaultPort = some (base.host, base.port) ∧ r.path ≠ [] ∧
      Absorbed authority r.path

theorem mergePaths_eq (basePath relative : List Char) : mergePaths basePath relative =
    Reference.merge basePath relative := by
  unfold mergePaths Reference.merge
  cases rsplitOnce '/' basePath with
  | none => rfl
  | some cut => exact List.append_assoc _ _ _

theorem removeDotSegments_head (path : List Char) : (removeDotSegments path).head? = some '/' := rfl

section references

variable {base url : Url} {front : List Char} {query fragment : Option (List Char)}

theorem splitTail_text (hfront : ∀ c ∈ front, Reference.queryOrHash c = false)
    (hquery : ∀ q ∈ query, '#' ∉ q) :
    splitTail (front ++ (queryText query ++ fragmentText fragment)) = (front, query, fragment) := by
  have hmark : '?' ∉ front := fun h => by cases hfront _ h
  have hclear : '#' ∉ front := fun h => by cases hfront _ h
  have hhash : '#' ∉ front ++ queryText query := by
    rw [List.mem_append, not_or]
    refine ⟨hclear, ?_⟩
    cases query with
    | none => exact List.not_mem_nil
    | some q => simpa [queryText] using hquery q rfl
  have hcut : breakOn ['?'] (front ++ queryText query) = query.map (front, ·) := by
    cases query with
    | none => rw [queryText, List.append_nil, breakOn_singleton_eq_none hmark]; rfl
    | some q => exact breakOn_singleton_append q hmark
  rw [← List.append_assoc]
  cases fragment with
  | none =>
    rw [fragmentText, List.append_nil, splitTail, breakOn_singleton_eq_none hhash]
    dsimp only
    rw [hcut]
    cases query with
    | none => rw [queryText, List.append_nil]; rfl
    | some q => rfl
  | some f =>
    rw [fragmentText, splitTail, breakOn_singleton_append f hhash]
    dsimp only
    rw [hcut]
    cases query with
    | none => rw [queryText, List.append_nil]; rfl
    | some q => rfl

theorem parseRelative_text (hfront : ∀ c ∈ front, Reference.queryOrHash c = false)
    (hquery : ∀ q ∈ query, '#' ∉ q)
    (hne : front ++ (queryText query ++ fragmentText fragment) ≠ []) :
    parseRelative (front ++ (queryText query ++ fragmentText fragment)) base =
      { base with
        path := if front = [] then base.path
          else removeDotSegments (if front.head? = some '/' then front else Reference.merge base.path front)
        query := if front = [] then query.or base.query else query
        fragment } := by
  have hsplit := @splitTail_text front query fragment hfront hquery
  cases front with
  | nil =>
    cases query with
    | none =>
      cases fragment with
      | none => exact absurd rfl hne
      | some f => rfl
    | some q =>
      unfold parseRelative
      rw [List.nil_append] at hsplit
      split
      · next heq => cases heq
      · rw [List.nil_append, hsplit]
        rfl
  | cons c front =>
    unfold parseRelative
    split
    · next heq =>
      cases heq
      cases hfront '#' List.mem_cons_self
    · rw [hsplit]
      dsimp only
      rw [mergePaths_eq]
      by_cases hc : c = '/'
      · subst hc
        rfl
      · have hhead : (c :: front).head? ≠ some '/' := by simpa using hc
        have hpre : List.isPrefixOf ['/'] (c :: front) = false := by
          simp [List.isPrefixOf, Ne.symm hc]
        rw [hpre, if_neg hhead]
        rfl

theorem parseAbsolute_path {schemeRaw rest : List Char} (h : parseAbsolute schemeRaw rest = some url) :
    url.path.head? = some '/' := by
  obtain ⟨port, -, h⟩ := Option.bind_eq_some_iff.mp h
  split at h
  · obtain ⟨⟨host, port⟩, -, h⟩ := Option.bind_eq_some_iff.mp h
    dsimp only at h
    split at h
    · cases h
    · cases h
      exact removeDotSegments_head _
  · cases h

theorem parseRelative_path (input : List Char) (hbase : base.path.head? = some '/') :
    (parseRelative input base).path.head? = some '/' := by
  unfold parseRelative
  split
  · exact hbase
  · dsimp only
    split
    · exact hbase
    · split
      · exact removeDotSegments_head _
      · exact removeDotSegments_head _

/-- The path of a base begins with a slash. -/
theorem Parsed.path (h : Parsed url) : url.path.head? = some '/' := by
  induction h with
  | @mk input base url hbase h ih =>
    unfold Url.parse at h
    split at h
    · exact ih url h
    split at h
    · exact parseAbsolute_path h
    · obtain ⟨b, hb, rfl⟩ := Option.map_eq_some_iff.mp h
      exact parseRelative_path input (ih b hb)

theorem front_plain {r : Parts} (hr : r.Ok) :
    ∀ c ∈ Reference.authorityText r.authority ++ r.path, Reference.queryOrHash c = false := by
  intro c hc
  rcases List.mem_append.mp hc with hc | hc
  · cases hauthority : r.authority with
    | none =>
      rw [hauthority] at hc
      cases hc
    | some a =>
      rw [hauthority] at hc
      rcases List.mem_cons.mp hc with rfl | hc
      · rfl
      rcases List.mem_cons.mp hc with rfl | hc
      · rfl
      · have hends := hr.authority a hauthority c hc
        simp only [Reference.slashQueryOrHash, Bool.or_eq_false_iff] at hends
        simp only [Reference.queryOrHash, Bool.or_eq_false_iff]
        exact ⟨hends.1.2, hends.2⟩
  · exact hr.path c hc

/-- The source's reading of a reference, put together from its parts. -/
theorem parse_text (base : Url) {r : Parts} (hr : r.Ok) (hne : r.text ≠ []) (hscheme : ¬HasScheme r.text)
    (hfront : Reference.authorityText r.authority ++ r.path = front) :
    Url.parse r.text (some base) = some
      { base with
        path := if front = [] then base.path
          else removeDotSegments (if front.head? = some '/' then front else Reference.merge base.path front)
        query := if front = [] then r.query.or base.query else r.query
        fragment := r.fragment } := by
  have hplain := front_plain hr
  have htext : r.text = front ++ (queryText r.query ++ fragmentText r.fragment) := by
    rw [Parts.text, ← hfront, List.append_assoc]
  have hempty : r.text.isEmpty = false := by simpa using hne
  rw [Url.parse, hempty, (schemeAndRest_eq_none).mpr hscheme]
  rw [htext] at hne ⊢
  rw [hfront] at hplain
  rw [← parseRelative_text hplain hr.query hne]
  rfl

/-- Without an authority. -/
theorem resolve_own {r : Parts} (h : r.authority = none) : Reference.resolve base.parts r =
    { authority := none
      path := if r.path = [] then base.path
        else Reference.removeDotSegments (if r.path.head? = some '/' then r.path
          else Reference.merge base.path r.path)
      query := if r.path = [] then r.query.or base.query else r.query
      fragment := r.fragment } := by
  rw [Reference.resolve, h]
  by_cases hnil : r.path = []
  · simp [hnil, Url.parts]
  · simp [hnil, Url.parts]

/-- With one. -/
theorem resolve_network {r : Parts} {a : List Char} (h : r.authority = some a) :
    Reference.resolve base.parts r = { r with path := Reference.removeDotSegments r.path } := by
  rw [Reference.resolve, h]
  exact if_pos rfl

theorem merge_head (path : List Char) (hbase : base.path.head? = some '/') :
    (Reference.merge base.path path).head? = some '/' := by
  unfold Reference.merge
  split
  · next before behind hcut =>
    obtain ⟨hpath, -⟩ := rsplitOnce_eq_some hcut
    rw [hpath] at hbase
    cases before with
    | nil => rfl
    | cons c before => exact hbase
  · rfl

end references

/-- A reference is resolved as it is meant if and only if it is one of those that agree. -/
theorem parse_standard {base : Url} (hbase : Parsed base) {reference : List Char} (hne : reference ≠ [])
    (hscheme : ¬HasScheme reference) :
    Url.parse reference (some base) = target base reference ↔ Agrees base (Reference.parse reference) := by
  obtain ⟨r, hr, rfl⟩ := Reference.exists_parts reference
  have hparsed : ∀ {front}, Reference.authorityText r.authority ++ r.path = front → _ :=
    parse_text base hr hne hscheme
  rw [target, Reference.parse_text hr]
  unfold Agrees
  cases hauthority : r.authority with
  | none =>
    have hfront : Reference.authorityText r.authority ++ r.path = r.path := by
      rw [hauthority]
      rfl
    dsimp only
    rw [hparsed hfront, resolve_own hauthority, Option.bind_eq_bind, Option.bind_some]
    by_cases hnil : r.path = []
    · simp [hnil]
    have hroot : (if r.path.head? = some '/' then r.path
      else Reference.merge base.path r.path).head? = some '/' := by
      split
      · assumption
      · exact merge_head r.path hbase.path
    rw [if_neg hnil, if_neg hnil, or_iff_right hnil, ← removeDotSegments_standard hroot]
    simp [hnil]
  | some a =>
    have hslash : '/' ∉ a := fun h => by cases hr.authority a hauthority '/' h
    have hfront : Reference.authorityText r.authority ++ r.path = '/' :: '/' :: (a ++ r.path) := by
      rw [hauthority]
      rfl
    dsimp only
    rw [hparsed hfront, resolve_network hauthority, if_neg (List.cons_ne_nil _ _),
      if_neg (List.cons_ne_nil _ _),
      List.head?_cons, if_pos rfl]
    cases hown : parseAuthority a httpsDefaultPort with
    | none => simp
    | some hostPort =>
      rw [Option.bind_eq_bind, Option.bind_some]
      rcases hr.slash (by rw [hauthority]; rfl) with hnil | hroot
      · rw [hnil]
        simp only [ne_eq, not_true_eq_false, false_and, and_false, iff_false]
        intro h
        have hpath := congrArg Url.path (Option.some.inj h)
        cases hpath
      · have hne' : r.path ≠ [] := by
          rintro hnil
          rw [hnil] at hroot
          cases hroot
        rw [← removeDotSegments_network hslash hroot]
        simp only [Option.some.injEq, Url.mk.injEq, true_and, and_true]
        constructor
        · rintro ⟨hhost, hport, hpath⟩
          exact ⟨Prod.ext hhost.symm hport.symm, hne', hpath⟩
        · rintro ⟨rfl, -, hpath⟩
          exact ⟨rfl, rfl, hpath⟩

/-- `https://h/a/b` -/
def page : Url := ⟨https, ['h'], 443, ['/', 'a', '/', 'b'], none, none⟩

theorem page_parsed : Parsed page :=
  .mk (fun b hb => absurd hb (Option.not_mem_none b))
    (by decide : Url.parse ['h', 't', 't', 'p', 's', ':', '/', '/', 'h', '/', 'a', '/', 'b'] none = some page)

theorem not_hasScheme {t : List Char} (h : schemeAndRest t = none) : ¬HasScheme t :=
  (schemeAndRest_eq_none).mp h

theorem parse_standard_page : Url.parse ['.', '.', '/', 'c'] (some page) =
    target page ['.', '.', '/', 'c'] ↔
    Agrees page (Reference.parse ['.', '.', '/', 'c']) :=
  parse_standard page_parsed (by decide) (not_hasScheme (by decide))

/-- `//x/y` names a host, and `c//.` a directory without a name. -/
theorem otherHost_kept : Parsed page ∧
    (¬HasScheme ['/', '/', 'x', '/', 'y'] ∧
      target page ['/', '/', 'x', '/', 'y'] = some { page with host := ['x'], path := ['/', 'y'] } ∧
      Url.parse ['/', '/', 'x', '/', 'y'] (some page) =
        some { page with path := ['/', '/', 'x', '/', 'y'] }) ∧
    (¬HasScheme ['c', '/', '/', '.'] ∧
      target page ['c', '/', '/', '.'] = some { page with path := ['/', 'a', '/', 'c', '/', '/'] } ∧
      Url.parse ['c', '/', '/', '.'] (some page) = some { page with path := ['/', 'a', '/', 'c', '/'] }) :=
  ⟨page_parsed, ⟨not_hasScheme (by decide), by decide, by decide⟩, not_hasScheme (by decide),
    by decide, by decide⟩

end Lerux.Ladybird
