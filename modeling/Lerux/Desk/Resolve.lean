import Lerux.Desk.Parts

/-!
# Links against the page

A link without a scheme is resolved by `resolve_href` with string cutting of its own.
`resolve_standard` compares it with the resolution of references (`Reference.resolve`): the two
agree on every relative reference that is `Plain`. The other links run into one of these: `://`
anywhere in the link is taken for a scheme; empty path segments are dropped and a last segment of
dots leaves no slash; a link with an authority is normalized and not resolved; an empty path of the
page is taken for `/`.
-/

namespace Lerux.Desk

open Reference (Parts parse resolve queryText fragmentText removeDotSegments abs climb settle dots)
open scoped Along

/-! ### Relative references -/

/-- A character of a scheme. -/
def schemeChar (c : Char) : Bool := c.isAlphanum || c = '+' || c = '-' || c = '.'

/-- The text begins with a scheme. -/
def hasScheme (t : List Char) : Bool :=
  (t.takeWhile schemeChar).head?.any Char.isAlpha && (t.dropWhile schemeChar).head? = some ':'

/-- A reference without a scheme, of visible ASCII characters. -/
structure Relative (href : List Char) : Prop where
  visible : ∀ c ∈ href, 33 ≤ c.toNat ∧ c.toNat ≤ 126
  scheme : hasScheme href = false

theorem hasScheme_of_colon {a rest : List Char} (ha : ∀ c ∈ a, c.isAlphanum = true)
    (hhead : a.head?.any Char.isAlpha = true) :
    hasScheme (a ++ ':' :: rest) = true := by
  have hall : ∀ c ∈ a, schemeChar c = true := fun c hc => by simp [schemeChar, ha c hc]
  have hcolon : schemeChar ':' = false := by decide
  have htake : (a ++ ':' :: rest).takeWhile schemeChar = a := by
    rw [List.takeWhile_append_of_pos hall,
      List.takeWhile_cons_of_neg (by rw [hcolon]; exact Bool.false_ne_true), List.append_nil]
  have hdrop : (a ++ ':' :: rest).dropWhile schemeChar = ':' :: rest := by
    rw [List.dropWhile_append_of_pos hall,
      List.dropWhile_cons_of_neg (by rw [hcolon]; exact Bool.false_ne_true)]
  rw [hasScheme, htake, hdrop, hhead]
  rfl

/-- `javascript:` is a scheme. -/
theorem hasScheme_javascript {t start : List Char} (hstart : start <+: t)
    (h : eqIgnoreAsciiCase start javascript = true) :
    hasScheme t = true := by
  obtain ⟨rest, rfl⟩ := hstart
  have hlower : start.map Char.toLower = ['j', 'a', 'v', 'a', 's', 'c', 'r', 'i', 'p', 't'] ++
    [':'] := of_decide_eq_true h
  obtain ⟨word, colon, rfl, hword, hcolon⟩ := List.map_eq_append_iff.mp hlower
  obtain ⟨c, rfl, hc⟩ := List.map_eq_singleton_iff.mp hcolon
  rw [toLower_eq_iff (by decide)] at hc
  subst hc
  have hletters : ∀ c ∈ word, c.isAlpha = true := by
    intro c hc
    have hmem : c.toLower ∈ ['j', 'a', 'v', 'a', 's', 'c', 'r', 'i', 'p', 't'] := by
      rw [← hword]
      exact List.mem_map_of_mem hc
    rw [← isAlpha_toLower]
    have hall : ∀ d ∈ ['j', 'a', 'v', 'a', 's', 'c', 'r', 'i', 'p', 't'], d.isAlpha = true := by decide
    exact hall _ hmem
  rw [List.append_assoc]
  refine hasScheme_of_colon (fun c hc => by rw [Char.isAlphanum, hletters c hc]; rfl) ?_
  cases word with
  | nil => cases hword
  | cons c word => exact hletters c List.mem_cons_self

theorem isAsciiWhitespace_eq_false {c : Char} (h : 33 ≤ c.toNat) : isAsciiWhitespace c = false := by
  have hne : ∀ d : Char, d.toNat < 33 → ¬c = d := by
    rintro d hd rfl
    omega
  simp only [isAsciiWhitespace, Bool.or_eq_false_iff, decide_eq_false_iff_not]
  exact ⟨⟨⟨⟨hne _ (by decide), hne _ (by decide)⟩, hne _ (by decide)⟩, hne _ (by decide)⟩,
    hne _ (by decide)⟩

theorem resolveHref_relative {href : List Char} (h : Relative href) (base : HttpsUrl) :
    resolveHref base href = some (if href = [] then emptyHrefIntent base else resolveScheme base href) := by
  have hascii : ∀ c ∈ href, c.toNat < 128 := fun c hc => by
    have := h.visible c hc
    omega
  have htrim : trimMatches isAsciiWhitespace href = href :=
    trimMatches_of_none fun c hc => isAsciiWhitespace_eq_false (h.visible c hc).1
  unfold resolveHref
  dsimp only
  rw [htrim]
  by_cases hempty : href = []
  · simp [hempty]
  rw [if_neg (by simpa using hempty), if_neg hempty, byteLen_of_ascii href hascii]
  split
  · next hlen =>
    rw [sliceTo_of_ascii hascii hlen, Option.bind_eq_bind, Option.bind_some, if_neg]
    intro hscript
    have hscheme := hasScheme_javascript (List.take_prefix _ _) hscript
    rw [h.scheme] at hscheme
    cases hscheme
  · rfl

/-! ### Paths -/

/-- The segments that the source looks at. -/
def filled (path : List Char) : List (List Char) := (path.splitOn '/').filter (· ≠ [])

/-- The stack of segments never outgrows the array. -/
def Shallow (segments : List (List Char)) : Prop := ∀ k, ((segments.take k).foldl climb []).length ≤
    segmentCap

/-- The text of a stack of segments. -/
def pathText (segments : List (List Char)) (trailing : Bool) : List Char :=
  if segments = [] then ['/'] else abs segments ++ (if trailing then ['/'] else [])

section paths

variable {segments stack : List (List Char)} {segment path out r : List Char} {url : HttpsUrl}

theorem pushPathSegment_climb (hne : segment ≠ []) (hroom : (climb stack segment).length ≤ segmentCap) :
    pushPathSegment stack segment = some (climb stack segment) := by
  unfold pushPathSegment climb at *
  by_cases h1 : segment = ['.']
  · rw [if_pos (Or.inr h1), if_pos h1]
  have hfirst : ¬(segment.isEmpty = true ∨ segment = ['.']) := by simp [hne, h1]
  rw [if_neg hfirst, if_neg h1]
  by_cases h2 : segment = ['.', '.']
  · rw [if_pos h2, if_pos h2]
  · rw [if_neg h1, if_neg h2, List.length_append, List.length_singleton] at hroom
    rw [if_neg h2, if_neg h2, if_neg (by omega)]

theorem foldlM_filled (segments stack : List (List Char)) :
    segments.foldlM pushPathSegment stack = (segments.filter (· ≠ [])).foldlM pushPathSegment stack := by
  induction segments generalizing stack with
  | nil => rfl
  | cons segment rest ih =>
    by_cases hne : segment = []
    · subst hne
      have hskip : pushPathSegment stack [] = some stack := rfl
      rw [List.foldlM_cons, hskip, Option.bind_eq_bind, Option.bind_some, ih,
        List.filter_cons_of_neg (by simp)]
    · rw [List.filter_cons_of_pos (by simpa using hne), List.foldlM_cons, List.foldlM_cons]
      cases pushPathSegment stack segment with
      | none => rfl
      | some next => exact ih next

theorem foldlM_climb (hne : ∀ s ∈ segments, s ≠ []) : ∀ stack,
    (∀ k, ((segments.take k).foldl climb stack).length ≤ segmentCap) →
      segments.foldlM pushPathSegment stack = some (segments.foldl climb stack) := by
  induction segments with
  | nil =>
    intro stack _
    rfl
  | cons segment rest ih =>
    intro stack hroom
    have hone : (climb stack segment).length ≤ segmentCap := hroom 1
    rw [List.foldlM_cons, pushPathSegment_climb (hne segment List.mem_cons_self) hone,
      Option.bind_eq_bind, Option.bind_some,
      List.foldl_cons]
    exact ih (fun s hs => hne s (List.mem_cons_of_mem segment hs)) _ fun k => hroom (k + 1)

theorem foldlM_shallow (path : List Char) (h : Shallow (filled path)) :
    (path.splitOn '/').foldlM pushPathSegment [] = some ((filled path).foldl climb []) := by
  rw [foldlM_filled]
  exact foldlM_climb (fun s hs => by simpa using (List.mem_filter.mp hs).2) [] h

theorem pushSegments_eq_some (segments : List (List Char)) : ∀ {out r : List Char}, byteLen out ≤ lineCap →
    (pushSegments out segments = some r ↔ byteLen (out ++ ['/'].intercalate segments) ≤ lineCap ∧
      r = out ++ ['/'].intercalate segments) := by
  induction segments with
  | nil =>
    intro out r hout
    simp [pushSegments, hout, eq_comm]
  | cons segment rest ih =>
    intro out r hout
    cases rest with
    | nil =>
      rw [pushSegments, push_eq_some]
      simp
    | cons next rest =>
      rw [pushSegments]
      simp only [Option.bind_eq_bind, Option.bind_eq_some_iff]
      constructor
      · rintro ⟨out₁, h₁, out₂, h₂, h₃⟩
        obtain ⟨-, rfl⟩ := (push_eq_some).mp h₁
        obtain ⟨hfit, rfl⟩ := (push_eq_some).mp h₂
        rw [ih hfit] at h₃
        rw [List.intercalate_cons_cons]
        simpa [List.append_assoc] using h₃
      · rintro ⟨hfit, rfl⟩
        have hjoin : out ++ ['/'].intercalate (segment :: next :: rest) =
            out ++ segment ++ ['/'] ++ ['/'].intercalate (next :: rest) := by
          rw [List.intercalate_cons_cons]
          simp [List.append_assoc]
        rw [hjoin] at hfit ⊢
        simp only [byteLen_append] at hfit
        have hfit₁ : byteLen (out ++ segment) ≤ lineCap := by
          rw [byteLen_append]
          omega
        have hfit₂ : byteLen (out ++ segment ++ ['/']) ≤ lineCap := by
          rw [byteLen_append, byteLen_append]
          omega
        refine ⟨_, (push_eq_some).mpr ⟨hfit₁, rfl⟩, _, (push_eq_some).mpr ⟨hfit₂, rfl⟩,
          (ih hfit₂).mpr ⟨?_, rfl⟩⟩
        simp only [byteLen_append]
        omega

/-- What the source keeps of a path: segments that are neither empty nor dots. -/
theorem mem_kept {s : List Char} (hs : s ∈ (filled path).foldl climb []) : s ≠ [] ∧ '/' ∉ s ∧ ¬dots s := by
  rcases Reference.mem_climb (filled path) [] s hs with hs | ⟨hs, hdots⟩
  · cases hs
  · obtain ⟨hmem, hne⟩ := List.mem_filter.mp hs
    exact ⟨by simpa using hne, Reference.not_mem_of_mem_splitOn hmem, hdots⟩

/-- A stack of kept segments does not end with a slash. -/
theorem getLast_ne_slash (hkept : ∀ s ∈ stack, s ≠ [] ∧ '/' ∉ s) (hne : stack ≠ []) :
    (abs stack).getLast? ≠ some '/' := by
  rcases List.eq_nil_or_concat stack with rfl | ⟨front, last, rfl⟩
  · exact absurd rfl hne
  rw [List.concat_eq_append] at hkept ⊢
  obtain ⟨hlast, hslash⟩ := hkept last (by simp)
  rw [Reference.getLast_abs, if_neg hlast]
  intro heq
  exact hslash (List.mem_of_getLast? heq)

theorem normalizePathSegments_eq_some {keep : Bool} (h : Shallow (filled path)) :
    normalizePathSegments path keep = some url ↔
    url.text = pathText ((filled path).foldl climb []) (keep || path.getLast? = some '/') := by
  have hslash : push [] ['/'] = some ['/'] := by decide
  unfold normalizePathSegments pathText
  rw [foldlM_shallow path h, Option.bind_eq_bind, Option.bind_some, hslash, Option.bind_eq_bind,
    Option.bind_some]
  by_cases hnil : (filled path).foldl climb [] = []
  · rw [if_pos hnil, if_pos (by simpa using hnil), fromBytes_eq_some]
  · have hjoin := Reference.abs_eq_intercalate hnil
    have hend := getLast_ne_slash (fun s hs => ⟨(mem_kept hs).1, (mem_kept hs).2.1⟩) hnil
    rw [if_neg hnil, if_neg (by simpa using hnil)]
    simp only [Option.bind_eq_some_iff, fromBytes_eq_some]
    have hone : byteLen ['/'] ≤ lineCap := by decide
    have hjoined : ['/'] ++ ['/'].intercalate ((filled path).foldl climb []) =
      abs ((filled path).foldl climb []) := hjoin.symm
    have htrail : ∀ out trailing, byteLen (abs ((filled path).foldl climb [])) ≤ lineCap →
        (pushTrailing (abs ((filled path).foldl climb [])) trailing = some out ↔
          byteLen (abs ((filled path).foldl climb []) ++ (if trailing = true then ['/'] else [])) ≤
            lineCap ∧
          out = abs ((filled path).foldl climb []) ++ (if trailing = true then ['/'] else [])) := by
      intro out trailing hfit
      cases trailing with
      | true =>
        rw [pushTrailing, if_pos (by simpa using hend), push_eq_some]
        rfl
      | false => simp [pushTrailing, hfit, eq_comm]
    constructor
    · rintro ⟨out, hout, out', hout', htext⟩
      obtain ⟨hfit, rfl⟩ := (pushSegments_eq_some _ hone).mp hout
      rw [hjoined] at hfit hout'
      rw [htext, ((htrail _ _ hfit).mp hout').2]
    · intro htext
      have hfits := url.fits
      rw [htext] at hfits
      have hfit : byteLen (abs ((filled path).foldl climb [])) ≤ lineCap := by
        rw [byteLen_append] at hfits
        omega
      refine ⟨_, (pushSegments_eq_some _ hone).mpr ⟨by rw [hjoined]; exact hfit, rfl⟩, _, ?_, htext⟩
      rw [hjoined, htrail _ _ hfit]
      exact ⟨hfits, rfl⟩

theorem length_climb_le (segments : List (List Char)) :
    ∀ stack, (segments.foldl climb stack).length ≤ stack.length + segments.length := by
  induction segments with
  | nil =>
    intro stack
    exact Nat.le_refl _
  | cons segment rest ih =>
    intro stack
    have hone : (climb stack segment).length ≤ stack.length + 1 := by
      unfold climb
      split
      · omega
      split
      · rw [List.length_dropLast]
        omega
      · rw [List.length_append, List.length_singleton]
    have hrest := ih (climb stack segment)
    rw [List.foldl_cons, List.length_cons]
    omega

/-- Segments that are no more than the array has slots do not outgrow it. -/
theorem shallow_of_length {segments : List (List Char)} (h : segments.length ≤ segmentCap) :
    Shallow segments := by
  intro k
  have hle := length_climb_le (segments.take k) []
  rw [List.length_take, List.length_nil] at hle
  omega

/-- The array of segments is enough for what is kept of them. -/
theorem shallow_kept {segments : List (List Char)} (h : Shallow segments) :
    (segments.foldl climb []).length ≤ segmentCap := by
  have hall := h segments.length
  rwa [List.take_length] at hall

theorem foldl_climb_plain {segments : List (List Char)} (h : ∀ s ∈ segments, ¬dots s) : ∀ stack,
    segments.foldl climb stack = stack ++ segments := by
  induction segments with
  | nil =>
    intro stack
    exact (List.append_nil _).symm
  | cons segment rest ih =>
    intro stack
    have hdots := h segment List.mem_cons_self
    unfold dots at hdots
    rw [not_or] at hdots
    rw [List.foldl_cons, ih (fun s hs => h s (List.mem_cons_of_mem segment hs)), climb,
      if_neg hdots.1, if_neg hdots.2,
      List.append_assoc]
    rfl

/-- What is kept of a path is kept of its text. -/
theorem filled_pathText {kept : List (List Char)} (h : ∀ s ∈ kept, s ≠ [] ∧ '/' ∉ s) :
    filled (pathText kept false) = kept := by
  by_cases hnil : kept = []
  · subst hnil
    rfl
  · have hfilter : kept.filter (· ≠ []) = kept :=
      List.filter_eq_self.mpr fun s hs => by simpa using (h s hs).1
    rw [pathText, if_neg hnil, if_neg Bool.false_ne_true, List.append_nil, filled,
      Reference.abs_eq_intercalate hnil,
      List.splitOn_cons_eq_if_modifyHead, if_pos (beq_self_eq_true _),
        List.splitOn_intercalate _ (fun s hs => (h s hs).2) hnil,
      List.filter_cons_of_neg (by simp), hfilter]

theorem filled_append (a b : List Char) : filled (a ++ '/' :: b) = filled a ++ filled b := by
  rw [filled, List.splitOn_append_cons_self, List.filter_append]
  rfl

/-- Slashes at the ends make no segments. -/
theorem filled_trim (t : List Char) : filled (trimMatches (· = '/') t) = filled t := by
  have hdrop : ∀ t : List Char, filled (t.dropWhile (· = '/')) = filled t := by
    intro t
    induction t with
    | nil => rfl
    | cons c t ih =>
      by_cases hc : c = '/'
      · subst hc
        have hcons : filled ('/' :: t) = filled t := filled_append [] t
        rw [List.dropWhile_cons_of_pos (by simp), ih, hcons]
      · rw [List.dropWhile_cons_of_neg (by simpa using hc)]
  have hrdrop : ∀ t : List Char, filled (t.rdropWhile (· = '/')) = filled t := by
    intro t
    induction t using List.reverseRecOn with
    | nil => rfl
    | append_singleton t c ih =>
      by_cases hc : c = '/'
      · subst hc
        have hcons : filled (t ++ ['/']) = filled t ++ [] := filled_append t []
        rw [List.rdropWhile_concat_pos _ _ _ (by simp), ih, hcons, List.append_nil]
      · rw [List.rdropWhile_concat_neg _ _ _ (by simpa using hc)]
  rw [trimMatches, hrdrop, hdrop]

/-- The directory of the base, up to its last slash. -/
def directoryText (before : List Char) : List Char := if before = [] then ['/'] else before ++ ['/']

theorem baseSegments_directory (before : List Char) :
    baseSegments (directoryText before) = (filled before).foldlM pushPathSegment [] := by
  unfold baseSegments directoryText
  by_cases hnil : before = []
  · subst hnil
    rfl
  · have hne : before ++ ['/'] ≠ ['/'] := by simpa using hnil
    have hslash : filled (before ++ ['/']) = filled before ++ [] := filled_append before []
    have htrim := filled_trim (before ++ ['/'])
    rw [hslash, List.append_nil] at htrim
    rw [if_neg hnil, if_pos hne, foldlM_filled, ← htrim]
    rfl

/-- The two loops of `merge_path_segments` are one loop over the merged path. -/
theorem mergePathSegments_eq_some {before hrefPath : List Char}
    (h : Shallow (filled (before ++ '/' :: hrefPath))) :
    mergePathSegments (directoryText before) hrefPath = some url ↔
      url.text = pathText ((filled (before ++ '/' :: hrefPath)).foldl climb []) false := by
  have hfold : ((baseSegments (directoryText before)).bind fun segments =>
      (hrefPath.splitOn '/').foldlM pushPathSegment segments) =
      some ((filled (before ++ '/' :: hrefPath)).foldl climb []) := by
    have hall := foldlM_climb (fun s hs => by simpa using (List.mem_filter.mp hs).2) [] h
    rw [← hall, filled_append, List.foldlM_append, baseSegments_directory]
    congr 1
    funext segments
    exact foldlM_filled _ _
  have hslash : push [] ['/'] = some ['/'] := by decide
  have hone : byteLen ['/'] ≤ lineCap := by decide
  have hsplit : mergePathSegments (directoryText before) hrefPath =
      (((baseSegments (directoryText before)).bind fun segments =>
        (hrefPath.splitOn '/').foldlM pushPathSegment segments).bind
        fun segments => (push [] ['/']).bind fun out =>
          (pushSegments out segments).bind HttpsUrl.fromBytes) := by
    rw [Option.bind_assoc]
    rfl
  rw [hsplit, hfold, Option.bind_some, hslash, Option.bind_some, Option.bind_eq_some_iff]
  simp only [pushSegments_eq_some _ hone, fromBytes_eq_some]
  have hjoin : ['/'] ++ ['/'].intercalate ((filled (before ++ '/' :: hrefPath)).foldl climb []) =
      pathText ((filled (before ++ '/' :: hrefPath)).foldl climb []) false := by
    unfold pathText
    split
    · next hnil =>
      rw [hnil]
      rfl
    · next hne =>
      rw [Reference.abs_eq_intercalate hne]
      simp
  rw [hjoin]
  constructor
  · rintro ⟨out, ⟨-, rfl⟩, htext⟩
    exact htext
  · intro htext
    have hfits := url.fits
    rw [htext] at hfits
    exact ⟨_, ⟨hfits, rfl⟩, htext⟩

/-- The path of the base as the source takes it. -/
def rootedPath (path : List Char) : List Char := if path = [] then ['/'] else path

theorem baseDirectory_rooted {path hrefPath : List Char} (h : path = [] ∨ path.head? = some '/') :
    ∃ before, baseDirectory (rootedPath path) = directoryText before ∧
      Reference.merge path hrefPath = before ++ '/' :: hrefPath := by
  rcases h with rfl | hhead
  · exact ⟨[], rfl, rfl⟩
  have hne : path ≠ [] := by
    rintro rfl
    cases hhead
  cases hsplit : rsplitOnce '/' path with
  | none =>
    have hmem : '/' ∈ path := List.mem_of_mem_head? hhead
    exact absurd hmem ((rsplitOnce_eq_none).mp hsplit)
  | some pair =>
    refine ⟨pair.1, ?_, by rw [Reference.merge, hsplit]⟩
    unfold baseDirectory rootedPath directoryText
    rw [if_neg hne, hsplit]
    by_cases hroot : path = ['/']
    · subst hroot
      cases hsplit
      rfl
    · rw [if_neg hroot]
      simp [List.isEmpty_iff]

/-- A path merged with the base is the merged path, normalized. -/
theorem mergeRelativePath_eq_some {path hrefPath : List Char} (hslash : path = [] ∨ path.head? =
    some '/') (hne : hrefPath ≠ [])
    (h : Shallow (filled (Reference.merge path hrefPath))) :
    mergeRelativePath (rootedPath path) hrefPath = some url ↔
      url.text = pathText ((filled (Reference.merge path hrefPath)).foldl climb [])
        ((Reference.merge path hrefPath).getLast? = some '/') := by
  obtain ⟨before, hdir, hmerge⟩ : ∃ before, baseDirectory (rootedPath path) = directoryText before ∧
      Reference.merge path hrefPath = before ++ '/' :: hrefPath := baseDirectory_rooted hslash
  rw [hmerge] at h ⊢
  have hkept : ∀ s ∈ (filled (before ++ '/' :: hrefPath)).foldl climb [], s ≠ [] ∧ '/' ∉ s ∧
    ¬dots s := fun s hs => mem_kept hs
  have hroom := shallow_kept h
  have hmerged : ∀ merged : HttpsUrl, mergePathSegments (directoryText before) hrefPath = some merged ↔
      merged.text = pathText ((filled (before ++ '/' :: hrefPath)).foldl climb []) false :=
        fun _ => mergePathSegments_eq_some h
  generalize (filled (before ++ '/' :: hrefPath)).foldl climb [] = kept at hkept hroom hmerged ⊢
  have hfilled : filled (pathText kept false) = kept :=
    filled_pathText fun s hs => ⟨(hkept s hs).1, (hkept s hs).2.1⟩
  have hplain : ∀ k, (kept.take k).foldl climb [] = kept.take k := fun k =>
    (foldl_climb_plain (fun s hs => (hkept s (List.mem_of_mem_take hs)).2.2) []).trans (List.nil_append _)
  have hshallow : Shallow (filled (pathText kept false)) := by
    intro k
    rw [hfilled, hplain, List.length_take]
    omega
  have hwhole : kept.foldl climb [] = kept := by
    have hall := hplain kept.length
    rwa [List.take_length] at hall
  have hlast : (before ++ '/' :: hrefPath).getLast? = hrefPath.getLast? := by
    cases hrefPath with
    | nil => exact absurd rfl hne
    | cons c rest => rw [List.getLast?_append_of_ne_nil _ (List.cons_ne_nil _ _), List.getLast?_cons_cons]
  -- the second pass keeps what the first one kept, and adds the slash
  have hsecond : ∀ merged : HttpsUrl, merged.text = pathText kept false →
      (normalizePathSegments merged.text (hrefPath.getLast? = some '/') = some url ↔
        url.text = pathText kept (hrefPath.getLast? = some '/')) := by
    intro merged htext
    rw [htext, normalizePathSegments_eq_some hshallow, hfilled, hwhole]
    by_cases hnil : kept = []
    · rw [hnil, pathText, if_pos rfl, pathText, if_pos rfl]
    · have hend : (pathText kept false).getLast? ≠ some '/' := by
        rw [pathText, if_neg hnil, if_neg Bool.false_ne_true, List.append_nil]
        exact getLast_ne_slash (fun s hs => ⟨(hkept s hs).1, (hkept s hs).2.1⟩) hnil
      rw [decide_eq_false hend, Bool.or_false]
  unfold mergeRelativePath
  rw [hdir, Option.bind_eq_bind, Option.bind_eq_some_iff, hlast]
  constructor
  · rintro ⟨merged, hrun, hnormal⟩
    exact (hsecond merged ((hmerged merged).mp hrun)).mp hnormal
  · intro htext
    have hfit : byteLen (pathText kept false) ≤ lineCap := by
      have hfits := url.fits
      rw [htext] at hfits
      unfold pathText at hfits ⊢
      split at hfits
      · next hnil => rwa [if_pos hnil]
      · next hnil =>
        rw [if_neg hnil, byteLen_append]
        rw [byteLen_append] at hfits
        simp only [Bool.false_eq_true, if_false, byteLen_nil]
        omega
    exact ⟨⟨_, hfit⟩, (hmerged ⟨_, hfit⟩).mpr rfl, (hsecond ⟨_, hfit⟩ rfl).mpr htext⟩

/-- A path on which dropping the empty segments changes nothing: none is inside, and a last segment
of dots leaves nothing. The stack of segments stays within the array. -/
structure Clean (path : List Char) : Prop where
  inner : ∀ s ∈ (path.splitOn '/').tail.dropLast, s ≠ []
  last : ∀ s ∈ (path.splitOn '/').getLast?, dots s → (filled path).foldl climb [] = []
  shallow : Shallow (filled path)

theorem clean_path (hroot : path.head? = some '/') (h : Clean path) :
    pathText ((filled path).foldl climb []) (path.getLast? = some '/') = removeDotSegments path := by
  obtain ⟨init, last, hpath, hsplit, hinit, hlast⟩ := Reference.exists_segments hroot
  have hinner := h.inner
  rw [hsplit, List.tail_cons, List.dropLast_concat] at hinner
  have hfilter : init.filter (· ≠ []) = init :=
    List.filter_eq_self.mpr fun s hs => by simpa using hinner s hs
  have hend : path.getLast? = if last = [] then some '/' else last.getLast? := by
    rw [hpath, Reference.getLast_abs]
  have hremoved : removeDotSegments path = abs (settle (init.foldl climb []) last) := by
    rw [hpath, Reference.removeDotSegments_abs hinit hlast]
  rw [hremoved, hend]
  have hfilled : filled path = init ++ [last].filter (· ≠ []) := by
    rw [filled, hsplit, List.filter_cons_of_neg (by simp), List.filter_append, hfilter]
  by_cases hnil : last = []
  · -- a slash at the end
    subst hnil
    have hdots : ¬dots [] := fun h => h.elim (fun h => by cases h) fun h => by cases h
    rw [if_pos rfl, hfilled, List.filter_cons_of_neg (by simp), List.filter_nil, List.append_nil,
      settle, if_neg hdots,
      Reference.abs_append, Reference.abs_singleton]
    unfold pathText
    split
    · next hkept =>
      rw [hkept]
      rfl
    · simp
  have hfilled : filled path = init ++ [last] := by
    rw [hfilled, List.filter_cons_of_pos (by simpa using hnil), List.filter_nil]
  have hnoslash : ¬last.getLast? = some '/' := fun heq => hlast (List.mem_of_getLast? heq)
  rw [if_neg hnil, decide_eq_false hnoslash]
  by_cases hdots : dots last
  · have hgone := h.last last (by rw [hsplit, ← List.cons_append, List.getLast?_concat]; rfl) hdots
    rw [hfilled, List.foldl_append, List.foldl_cons, List.foldl_nil] at hgone
    rw [hfilled, List.foldl_append, List.foldl_cons, List.foldl_nil, hgone, settle, if_pos hdots, hgone]
    rfl
  · have hclimb : ∀ stack, climb stack last = stack ++ [last] := by
      intro stack
      unfold dots at hdots
      rw [not_or] at hdots
      rw [climb, if_neg hdots.1, if_neg hdots.2]
    rw [hfilled, List.foldl_append, List.foldl_cons, List.foldl_nil, hclimb, settle, if_neg hdots,
      pathText, if_neg (by simp)]
    simp

/-- Without dot segments there is nothing to remove. -/
theorem removeDotSegments_plain (hroot : path = [] ∨ path.head? = some '/')
    (h : ∀ s ∈ path.splitOn '/', ¬dots s) :
    removeDotSegments path = path := by
  rcases hroot with rfl | hroot
  · rfl
  obtain ⟨init, last, hpath, hsplit, hinit, hlast⟩ := Reference.exists_segments hroot
  rw [hsplit] at h
  have hplain := foldl_climb_plain (fun s hs => h s (List.mem_cons_of_mem _ (List.mem_append_left _ hs))) []
  have hdots := h last (by simp)
  rw [List.nil_append] at hplain
  conv_lhs => rw [hpath]
  rw [Reference.removeDotSegments_abs hinit hlast, hplain, settle, if_neg hdots, ← hpath]

theorem mem_of_mem_splitOn {sep c : Char} {t s : List Char} (hs : s ∈ t.splitOn sep) (hc : c ∈ s) :
    c ∈ t := by
  induction t generalizing s with
  | nil =>
    rw [List.splitOn_nil, List.mem_singleton] at hs
    rw [hs] at hc
    cases hc
  | cons d t ih =>
    rw [List.splitOn_cons_eq_if_modifyHead] at hs
    split at hs
    · rcases List.mem_cons.mp hs with rfl | hs
      · cases hc
      · exact List.mem_cons_of_mem d (ih hs hc)
    · cases hsplit : t.splitOn sep with
      | nil => exact absurd hsplit (List.splitOn_ne_nil sep t)
      | cons first rest =>
        rw [hsplit] at hs ih
        rcases List.mem_cons.mp hs with rfl | hs
        · rcases List.mem_cons.mp hc with rfl | hc
          · exact List.mem_cons_self
          · exact List.mem_cons_of_mem d (ih List.mem_cons_self hc)
        · exact List.mem_cons_of_mem d (ih (List.mem_cons_of_mem first hs) hc)

theorem pathText_head (segments : List (List Char)) (trailing : Bool) :
    (pathText segments trailing).head? = some '/' := by
  unfold pathText
  cases segments with
  | nil => rfl
  | cons segment rest =>
    rw [if_neg (List.cons_ne_nil _ _), Reference.abs_cons]
    rfl

/-- The path that is left has the characters of the path, and slashes. -/
theorem mem_pathText {c : Char} {trailing : Bool}
    (hc : c ∈ pathText ((filled path).foldl climb []) trailing) : c = '/' ∨ c ∈ path := by
  unfold pathText at hc
  split at hc
  · exact Or.inl (List.mem_singleton.mp hc)
  rcases List.mem_append.mp hc with hc | hc
  · obtain ⟨s, hs, hcs⟩ := List.mem_flatMap.mp hc
    rcases List.mem_cons.mp hcs with rfl | hcs
    · exact Or.inl rfl
    rcases Reference.mem_climb (filled path) [] s hs with hs | ⟨hs, -⟩
    · cases hs
    · exact Or.inr (mem_of_mem_splitOn (List.mem_filter.mp hs).1 hcs)
  · split at hc
    · exact Or.inl (List.mem_singleton.mp hc)
    · cases hc

/-- The merged path begins with a slash, as the path of the base does. -/
theorem merge_head {hrefPath : List Char} (h : path = [] ∨ path.head? = some '/') :
    (Reference.merge path hrefPath).head? = some '/' := by
  rcases h with rfl | hhead
  · rfl
  unfold Reference.merge
  split
  · next before last hsplit =>
    obtain ⟨hpath, -⟩ := rsplitOnce_eq_some hsplit
    cases before with
    | nil => rfl
    | cons c before =>
      rw [hpath] at hhead
      exact hhead
  · rfl

theorem mem_merge {c : Char} {hrefPath : List Char} (hc : c ∈ Reference.merge path hrefPath) :
    c = '/' ∨ c ∈ path ∨ c ∈ hrefPath := by
  unfold Reference.merge at hc
  split at hc
  · next before last hsplit =>
    obtain ⟨hpath, -⟩ := rsplitOnce_eq_some hsplit
    rcases List.mem_append.mp hc with hc | hc
    · refine Or.inr (Or.inl ?_)
      rw [hpath]
      exact List.mem_append_left _ hc
    · rcases List.mem_cons.mp hc with rfl | hc
      · exact Or.inl rfl
      · exact Or.inr (Or.inr hc)
  · rcases List.mem_cons.mp hc with rfl | hc
    · exact Or.inl rfl
    · exact Or.inr (Or.inr hc)

end paths

/-! ### Joining -/

/-- The path that the source gives the target. -/
def sourcePath (basePath hrefPath : List Char) : Option (List Char) :=
  if hrefPath = [] then some (rootedPath basePath)
  else if hrefPath.head? = some '/' then (normalizePathSegments hrefPath (hrefPath.getLast? =
    some '/')).map (·.text)
  else (mergeRelativePath (rootedPath basePath) hrefPath).map (·.text)

section join

variable {base url : HttpsUrl} {authority path hrefPath : List Char}
  {query fragment hrefQuery hrefFragment : Option (List Char)}

theorem splitHrefTail_text (hpath : ∀ c ∈ hrefPath, endsPath c = false)
    (hquery : ∀ q ∈ hrefQuery, '#' ∉ q) (hne : hrefPath ≠ []) :
    splitHrefTail (hrefPath ++ (queryText hrefQuery ++ fragmentText hrefFragment)) =
      (hrefPath, hrefQuery, hrefFragment) := by
  obtain ⟨htake, hdrop⟩ := takeWhile_append_tail hpath (Reference.queryFragment_head hrefQuery hrefFragment)
  cases hrefPath with
  | nil => exact absurd rfl hne
  | cons c rest =>
    have hc := hpath c List.mem_cons_self
    unfold splitHrefTail
    split
    · next heq =>
      cases heq
      cases hc
    · next heq =>
      cases heq
      cases hc
    · rw [htake, hdrop, splitQueryFragment_eq, Reference.queryFragment_text hquery]

theorem joinToBase_eq (hbase : Address base authority path query fragment)
    (hpath : ∀ c ∈ hrefPath, endsPath c = false)
    (hquery : ∀ q ∈ hrefQuery, '#' ∉ q) (hne : hrefPath ++
      (queryText hrefQuery ++ fragmentText hrefFragment) ≠ []) :
    joinToBase base (hrefPath ++ (queryText hrefQuery ++ fragmentText hrefFragment)) =
      (sourcePath path hrefPath).bind fun target =>
        renderUrl authority target (if hrefPath = [] then hrefQuery.or query
          else hrefQuery) hrefFragment := by
  have hkeepQuery : ∀ front : List Char, (if
    (front ++ (queryText hrefQuery ++ fragmentText hrefFragment)).contains '?' then
      hrefQuery else none) = hrefQuery := by
    intro front
    cases hrefQuery with
    | none => simp
    | some q => simp [queryText]
  have hkeepFragment : ∀ front : List Char,
    (if (front ++ (queryText hrefQuery ++ fragmentText hrefFragment)).contains '#' then
      hrefFragment else none) = hrefFragment := by
    intro front
    cases hrefFragment with
    | none => simp
    | some f => simp [fragmentText]
  unfold joinToBase
  rw [hbase.split, Option.bind_eq_bind, Option.bind_some]
  by_cases hnil : hrefPath = []
  · subst hnil
    rw [List.nil_append] at hne ⊢
    rw [sourcePath, if_pos rfl, if_pos rfl, Option.bind_some]
    cases hrefQuery with
    | none =>
      cases hrefFragment with
      | none => exact absurd rfl hne
      | some f => simp [queryText, fragmentText, splitHrefTail, rootedPath]
    | some q =>
      have hfragment := hkeepFragment []
      have hq : ∀ c ∈ q, isHash c = false := Reference.hash_eq_false (hquery q rfl)
      have htext : ∀ c ∈ (fragmentText hrefFragment).head?, isHash c = true :=
        Reference.fragmentText_head hrefFragment
      obtain ⟨htake, hdrop⟩ := takeWhile_append_tail hq htext
      have hsplit : splitHrefTail (queryText (some q) ++ fragmentText hrefFragment) =
        (['/'], some q, hrefFragment) := by
        rw [queryText, List.cons_append, splitHrefTail, htake, hdrop]
        cases hrefFragment with
        | none => rfl
        | some f => rfl
      rw [hsplit]
      dsimp only
      rw [List.nil_append] at hfragment
      rw [hfragment]
      simp [queryText, rootedPath]
  · have hhead : (hrefPath ++ (queryText hrefQuery ++ fragmentText hrefFragment)).head? =
      hrefPath.head? := by
      cases hrefPath with
      | nil => exact absurd rfl hnil
      | cons c rest => rfl
    have hends : ∀ c ∈ hrefPath.head?, endsPath c = false := fun c hc => hpath c (List.mem_of_mem_head? hc)
    have hhash : hrefPath.head? ≠ some '#' := fun heq => by
      have := hends '#' heq
      cases this
    have hmark : hrefPath.head? ≠ some '?' := fun heq => by
      have := hends '?' heq
      cases this
    rw [splitHrefTail_text hpath hquery hnil]
    dsimp only
    rw [hkeepQuery, hkeepFragment, hhead, if_neg (fun h => h.elim hhash hmark), if_neg hhash,
      sourcePath, if_neg hnil,
      if_neg hnil]
    by_cases hslash : hrefPath.head? = some '/'
    · rw [if_pos hslash, if_pos hslash]
      rfl
    · rw [if_neg hslash, if_neg hslash]
      rfl

end join

/-! ### The target -/

def scheme : List Char := ['h', 't', 't', 'p', 's', ':']

/-- The parts of an address, those behind its scheme. -/
def addressParts (url : HttpsUrl) : Parts := parse (url.text.drop scheme.length)

/-- The parts of the target of a link. -/
def target (base : HttpsUrl) (href : List Char) : Parts := resolve (addressParts base) (parse href)

/-- The text of the target. An empty fragment is none. -/
def targetText (base : HttpsUrl) (href : List Char) : List Char :=
  scheme ++ Parts.text { target base href with fragment := shownFragment (target base href).fragment }

/-- What is to be done with the target `url`. -/
def standardIntent (base : HttpsUrl) (href : List Char) (url : HttpsUrl) : HrefIntent :=
  if url.text = base.text then .already
  else if (target base href).authority = (addressParts base).authority ∧
    (target base href).path = (addressParts base).path ∧
      (target base href).query = (addressParts base).query then .fragment url
  else .fetch url

/-- The path that dot segments are removed from. -/
def mergedPath (base : HttpsUrl) (href : List Char) : List Char :=
  if (parse href).path.head? = some '/' then (parse href).path
  else Reference.merge (addressParts base).path (parse href).path

/-- The links that the source resolves as it should. -/
structure Plain (base : HttpsUrl) (href : List Char) : Prop where
  /-- There is no `://` in the link. -/
  scheme : breakOn schemeEnd href = none
  /-- An authority is canonical, with no dot segments and no empty fragment behind it. -/
  network : ∀ a ∈ (parse href).authority, (∃ host, Canonical a host) ∧
    (∀ s ∈ (parse href).path.splitOn '/', ¬dots s) ∧
    (parse href).fragment ≠ some []
  /-- A page without a path is referred to as a whole, and has room for the slash. -/
  bare : (parse href).authority = none → (parse href).path = [] → (addressParts base).path = [] →
    (addressParts base).fragment = none ∧ shownFragment (parse href).fragment = none ∧
      (∀ q ∈ (parse href).query, (addressParts base).query = some q) ∧
        (href ≠ [] → byteLen base.text < lineCap)
  /-- Dropping the empty segments of a path changes nothing. -/
  clean : (parse href).authority = none → (parse href).path ≠ [] → Clean (mergedPath base href)
  /-- The page and the target do not differ in an empty path and `/` alone. -/
  root : ¬((target base href).authority = (addressParts base).authority ∧
    (target base href).query = (addressParts base).query ∧
    rootedPath (target base href).path = rootedPath (addressParts base).path ∧
      (target base href).path ≠ (addressParts base).path)

section targets

variable {base url : HttpsUrl} {authority path : List Char} {query fragment : Option (List Char)}

theorem Address.parts (h : Address url authority path query fragment) :
    addressParts url = ⟨some authority, path, query, fragment⟩ := by
  obtain ⟨host, hcanonical⟩ := h.canonical
  have htext : url.text.drop scheme.length = Parts.text ⟨some authority, path, query, fragment⟩ := by
    rw [h.text]
    rfl
  rw [addressParts, htext]
  refine Reference.parse_text ⟨?_, h.pathChars, fun _ => h.slash, fun hnone => ?_, h.queryChars⟩
  · rintro a ⟨⟩ c hc
    exact hcanonical.inside c hc
  · cases hnone

/-- The comparison with the page. -/
theorem classify_address {authority' path' : List Char} {query' fragment' : Option (List Char)}
    (hbase : Address base authority path query fragment)
      (hurl : Address url authority' path' query' fragment')
    (hroot : ¬(authority' = authority ∧ query' = query ∧ rootedPath path' = rootedPath path ∧
      path' ≠ path)) :
    classifyAgainstBase base url = if url.text = base.text then .already
      else if authority' = authority ∧ path' = path ∧ query' = query then .fragment url
      else .fetch url := by
  unfold classifyAgainstBase
  by_cases htext : url.text = base.text
  · rw [if_pos htext, if_pos htext]
  rw [if_neg htext, if_neg htext, hbase.split, hurl.split]
  dsimp only
  by_cases hsame : authority' = authority ∧ path' = path ∧ query' = query
  · obtain ⟨rfl, rfl, rfl⟩ := hsame
    have hshown : ¬(fragment.isNone = true ∧ fragment'.isNone = true) := by
      rintro ⟨h, h'⟩
      rw [Option.isNone_iff_eq_none] at h h'
      subst h h'
      exact htext (hurl.text.trans hbase.text.symm)
    rw [if_pos ⟨rfl, rfl, rfl⟩, if_neg hshown, if_pos ⟨rfl, rfl, rfl⟩]
  · rw [if_neg hsame, if_neg]
    rintro ⟨rfl, hpath, rfl⟩
    refine hroot ⟨rfl, rfl, hpath.symm, fun heq => hsame ⟨rfl, heq, rfl⟩⟩

/-- Once the source has the target, it answers what it should. -/
theorem finish_target {href : List Char} {authority' : List Char} {fragment' : Option (List Char)}
    (hbase : Address base authority path query fragment) (hplain : Plain base href)
    (hurl : Address url authority' (target base href).path (target base href).query fragment')
    (hauthority : (target base href).authority = some authority') : finishIntent base url.text =
      standardIntent base href url := by
  have hroot := hplain.root
  rw [hauthority, hbase.parts] at hroot
  have hsame : some authority' = some authority ↔ authority' = authority := Option.some_inj
  simp only [hsame] at hroot
  unfold finishIntent standardIntent
  rw [hurl.normal, hauthority, hbase.parts]
  dsimp only
  rw [classify_address hbase hurl hroot]
  simp only [hsame]

/-- The address of the target. -/
theorem target_address {href : List Char} {authority' path' : List Char}
    {query' fragment' : Option (List Char)}
    (htarget : target base href = ⟨some authority', path', query', fragment'⟩)
      (hurl : url.text = targetText base href)
    (hcanonical : ∃ host, Canonical authority' host) (hslash : path' = [] ∨ path'.head? = some '/')
    (hpath : ∀ c ∈ path', endsPath c = false) (hquery : ∀ q ∈ query', '#' ∉ q) :
    Address url authority' path' query' (shownFragment fragment') := by
  refine ⟨hcanonical, hslash, hpath, hquery, ?_⟩
  rw [hurl, targetText, htarget]
  rfl

/-- A link with an authority. -/
theorem resolve_network {href a : List Char} (hbase : Address base authority path query fragment)
    (hurl : url.text = targetText base href)
    (hplain : Plain base href) {r : Parts} (hr : r.Ok) (hparse : parse href = r)
      (hhref : r.text = href) (ha : r.authority = some a) :
    href ≠ [] ∧ resolveScheme base href = standardIntent base href url := by
  obtain ⟨hcanonical, hdots, hfragment⟩ := hplain.network a (by rw [hparse]; exact ha)
  rw [hparse] at hdots hfragment
  have hslash : r.path = [] ∨ r.path.head? = some '/' := hr.slash (by rw [ha]; rfl)
  have htarget : target base href = ⟨some a, r.path, r.query, r.fragment⟩ := by
    rw [target, hparse, resolve, if_pos (by rw [ha]; rfl), removeDotSegments_plain hslash hdots, ha]
  have hshown : shownFragment r.fragment = r.fragment := by
    cases hf : r.fragment with
    | none => rfl
    | some f =>
      cases f with
      | nil => exact absurd hf hfragment
      | cons c f => rfl
  have htext : url.text = scheme ++ href := by
    rw [hurl, targetText, htarget, ← hhref, Parts.text, Parts.text]
    dsimp only
    rw [hshown, ha]
  have hpre : ['/', '/'] <+: href := by
    rw [← hhref, Parts.text, ha]
    exact ⟨_, rfl⟩
  have hroom : ¬lineCap + 6 < byteLen href + 6 := by
    have hfits := url.fits
    rw [htext, byteLen_append] at hfits
    omega
  refine ⟨fun hnil => ?_, ?_⟩
  · rw [hnil] at hpre
    simp at hpre
  have haddress := target_address htarget hurl hcanonical hslash hr.path hr.query
  have hshown : Address url a (target base href).path (target base href).query
    (shownFragment r.fragment) := by
    rw [htarget]
    exact haddress
  have hfinish := finish_target hbase hplain hshown (by rw [htarget])
  rw [resolveScheme, hplain.scheme]
  dsimp only
  rw [if_pos (List.isPrefixOf_iff_prefix.mpr hpre), if_neg hroom, ← hfinish, htext]
  rfl

/-- Without an authority the link is joined to the page. -/
theorem resolveScheme_join {href : List Char} {r : Parts} (hplain : Plain base href) (hr : r.Ok)
    (hhref : r.text = href)
    (ha : r.authority = none) (hbase : Address base authority path query fragment) (hne : href ≠ [])
      {target : List Char}
    (htarget : sourcePath path r.path = some target)
    (hrender : renderUrl authority target (if r.path = [] then r.query.or query
      else r.query) r.fragment = some url) :
    resolveScheme base href = finishIntent base url.text := by
  have hnet : ¬['/', '/'].isPrefixOf href = true := by
    intro hpre
    have hparse := Reference.parse_text hr
    rw [hhref, parse, if_pos (List.isPrefixOf_iff_prefix.mp hpre)] at hparse
    have hauthority := congrArg Parts.authority hparse
    rw [ha] at hauthority
    cases hauthority
  have htext : r.path ++ (queryText r.query ++ fragmentText r.fragment) = href := by
    rw [← hhref, Parts.text, ha]
    rfl
  have hne' : r.path ++ (queryText r.query ++ fragmentText r.fragment) ≠ [] := by
    rw [htext]
    exact hne
  have hjoin := joinToBase_eq hbase hr.path hr.query hne'
  rw [htarget, Option.bind_some, hrender, htext] at hjoin
  rw [resolveScheme, hplain.scheme]
  dsimp only
  rw [if_neg hnet, hjoin]

/-- Nothing is done for the page itself, also when it has no path and the source gives it one. -/
theorem finish_bare {url : HttpsUrl} (hbase : Address base authority [] query none)
    (hurl : Address url authority ['/'] query none) :
    finishIntent base url.text = .already := by
  unfold finishIntent
  rw [hurl.normal]
  dsimp only
  unfold classifyAgainstBase
  rw [hbase.split, hurl.split]
  simp

/-- A link that is only a query and a fragment, or nothing. -/
theorem resolve_sameDocument {href : List Char} (hbase : Address base authority path query fragment)
    (hurl : url.text = targetText base href)
    (hplain : Plain base href) {r : Parts} (hr : r.Ok) (hparse : parse href = r)
      (hhref : r.text = href) (ha : r.authority = none)
    (hpath : r.path = []) :
    (if href = [] then emptyHrefIntent base else resolveScheme base href) =
      standardIntent base href url := by
  have htarget : target base href = ⟨some authority, path, r.query.or query, r.fragment⟩ := by
    rw [target, hparse, resolve, hbase.parts, if_neg (by rw [ha]; exact Bool.false_ne_true), hpath]
    rfl
  have hquery : ∀ q ∈ r.query.or query, '#' ∉ q := by
    intro q hq
    cases hrq : r.query with
    | none =>
      rw [hrq] at hq
      exact hbase.queryChars q hq
    | some q' =>
      rw [hrq] at hq
      exact hr.query q (by rw [hrq]; exact hq)
  have haddress := target_address htarget hurl hbase.canonical hbase.slash hbase.pathChars hquery
  have hlink : href = queryText r.query ++ fragmentText r.fragment := by
    rw [← hhref, Parts.text, ha, hpath]
    rfl
  by_cases hroot : path = []
  · subst hroot
    obtain ⟨hfragment, hshown, hqueries, hroom⟩ :=
      hplain.bare (by rw [hparse]; exact ha) (by rw [hparse]; exact hpath)
      (by rw [hbase.parts])
    rw [hparse] at hshown hqueries
    rw [hbase.parts] at hfragment hqueries
    dsimp only at hfragment hqueries
    subst hfragment
    have hor : r.query.or query = query := by
      cases hrq : r.query with
      | none => rfl
      | some q => exact (hqueries q hrq).symm
    rw [hor, hshown] at haddress
    have hsame : url.text = base.text := haddress.text.trans hbase.text.symm
    rw [standardIntent, if_pos hsame]
    split
    · rw [emptyHrefIntent, hbase.split]
      rfl
    next hne =>
    -- the source asks for the page with the path `/`
    have hlength : byteLen (httpsPrefix ++
      (authority ++ (['/'] ++ (queryText query ++ fragmentText none)))) = byteLen base.text + 1 := by
      rw [hbase.text]
      simp only [byteLen_append, byteLen_nil]
      have hone : byteLen ['/'] = 1 := rfl
      omega
    have hfit := hroom hne
    obtain ⟨slashed, hslashed⟩ : ∃ slashed : HttpsUrl, Address slashed authority ['/'] query none :=
      ⟨⟨httpsPrefix ++ (authority ++ (['/'] ++ (queryText query ++ fragmentText none))), by omega⟩,
        hbase.canonical, Or.inr rfl,
        fun c hc => by rw [List.mem_singleton.mp hc]; rfl, hbase.queryChars, rfl⟩
    have hrender : renderUrl authority ['/'] query r.fragment = some slashed := by
      rw [renderUrl_eq_some, hshown]
      exact hslashed.text
    rw [resolveScheme_join hplain hr hhref ha hbase hne (by rw [hpath]; rfl)
      (by rw [if_pos hpath, hor]; exact hrender)]
    exact finish_bare hbase hslashed
  have hrooted : rootedPath path = path := if_neg hroot
  split
  · next hnil =>
    have hempty : queryText r.query ++ fragmentText r.fragment = [] := hlink.symm.trans hnil
    have hnone : r.query = none ∧ r.fragment = none := by
      cases hq : r.query with
      | some q =>
        rw [hq] at hempty
        cases hempty
      | none =>
        cases hf : r.fragment with
        | some f =>
          rw [hq, hf] at hempty
          cases hempty
        | none => exact ⟨rfl, rfl⟩
    rw [hnone.1, hnone.2] at haddress htarget
    rw [emptyHrefIntent, hbase.split, if_neg hroot]
    dsimp only
    cases fragment with
    | none => rw [Option.isNone_none, if_pos rfl, standardIntent,
      if_pos (haddress.text.trans hbase.text.symm)]
    | some f =>
      have hrender : renderUrl authority path query none = some url := (renderUrl_eq_some).mpr haddress.text
      have hdiffer : url.text ≠ base.text := by
        intro heq
        have hlength := congrArg List.length (haddress.text.symm.trans (heq.trans hbase.text))
        simp [fragmentText, shownFragment] at hlength
      rw [Option.isNone_some, if_neg Bool.false_ne_true, hrender]
      dsimp only
      rw [standardIntent, if_neg hdiffer, if_pos]
      rw [htarget, hbase.parts]
      exact ⟨rfl, rfl, rfl⟩
  · next hne =>
    have hrender : renderUrl authority path (r.query.or query) r.fragment = some url :=
      (renderUrl_eq_some).mpr haddress.text
    rw [resolveScheme_join hplain hr hhref ha hbase hne (by rw [hpath, sourcePath, if_pos rfl, hrooted])
      (by rw [if_pos hpath]; exact hrender)]
    exact finish_target hbase hplain (by rw [htarget]; exact haddress) (by rw [htarget])

/-- A link with a path. -/
theorem resolve_path {href : List Char} (hbase : Address base authority path query fragment)
    (hurl : url.text = targetText base href)
    (hplain : Plain base href) {r : Parts} (hr : r.Ok) (hparse : parse href = r)
      (hhref : r.text = href) (ha : r.authority = none)
    (hpath : r.path ≠ []) : href ≠ [] ∧ resolveScheme base href = standardIntent base href url := by
  have hclean := hplain.clean (by rw [hparse]; exact ha) (by rw [hparse]; exact hpath)
  have hmerged : mergedPath base href = if r.path.head? = some '/' then r.path
    else Reference.merge path r.path := by
    rw [mergedPath, hparse, hbase.parts]
  have htarget : target base href = ⟨some authority, removeDotSegments (mergedPath base href),
    r.query, r.fragment⟩ := by
    rw [target, hparse, resolve, hbase.parts, if_neg (by rw [ha]; exact Bool.false_ne_true),
      if_neg (by simpa using hpath), hmerged]
  have hhead : (mergedPath base href).head? = some '/' := by
    rw [hmerged]
    split
    · assumption
    · exact merge_head hbase.slash
  have hchars : ∀ c ∈ mergedPath base href, endsPath c = false := by
    intro c hc
    rw [hmerged] at hc
    split at hc
    · exact hr.path c hc
    rcases mem_merge hc with rfl | hc | hc
    · rfl
    · exact hbase.pathChars c hc
    · exact hr.path c hc
  have hremoved := clean_path hhead hclean
  have hslash : (removeDotSegments (mergedPath base href)).head? = some '/' := by
    rw [← hremoved]
    exact pathText_head _ _
  have hleft : ∀ c ∈ removeDotSegments (mergedPath base href), endsPath c = false := by
    intro c hc
    rw [← hremoved] at hc
    rcases mem_pathText hc with rfl | hc
    · rfl
    · exact hchars c hc
  have haddress := target_address htarget hurl hbase.canonical (Or.inr hslash) hleft hr.query
  have hne : href ≠ [] := by
    rw [← hhref, Parts.text, ha]
    simp [Reference.authorityText, hpath]
  refine ⟨hne, ?_⟩
  have hfits : byteLen (removeDotSegments (mergedPath base href)) ≤ lineCap := by
    have hfits := url.fits
    rw [haddress.text] at hfits
    simp only [byteLen_append] at hfits
    omega
  have hsource : sourcePath path r.path = some (removeDotSegments (mergedPath base href)) := by
    rw [sourcePath, if_neg hpath]
    by_cases habsolute : r.path.head? = some '/'
    · rw [if_pos habsolute] at hmerged ⊢
      rw [hmerged] at hclean hremoved hfits ⊢
      rw [Option.map_eq_some_iff]
      refine ⟨⟨removeDotSegments r.path, hfits⟩, (normalizePathSegments_eq_some hclean.shallow).mpr ?_, rfl⟩
      rw [Bool.or_self]
      exact hremoved.symm
    · rw [if_neg habsolute] at hmerged ⊢
      rw [hmerged] at hclean hremoved hfits ⊢
      rw [Option.map_eq_some_iff]
      exact ⟨⟨_, hfits⟩, (mergeRelativePath_eq_some hbase.slash hpath hclean.shallow).mpr
        hremoved.symm, rfl⟩
  have hrender : renderUrl authority (removeDotSegments (mergedPath base href)) r.query r.fragment =
    some url :=
    (renderUrl_eq_some).mpr haddress.text
  rw [resolveScheme_join hplain hr hhref ha hbase hne hsource (by rw [if_neg hpath]; exact hrender)]
  exact finish_target hbase hplain (by rw [htarget]; exact haddress) (by rw [htarget])

end targets

/-- A plain relative reference is resolved and classified as the standard has it. -/
theorem resolve_standard {text href : List Char} {policy : NamePolicy} {base url : HttpsUrl}
    (hbase : normalize text policy = some base)
    (hrel : Relative href) (hurl : url.text = targetText base href) (hplain : Plain base href) :
    resolveHref base href = some (standardIntent base href url) := by
  obtain ⟨authority, path, query, fragment, haddress⟩ := address_of_normal ((normalize_eq_some).mp hbase).1
  obtain ⟨r, hr, hhref⟩ := Reference.exists_parts href
  have hparse : parse href = r := by rw [← hhref, Reference.parse_text hr]
  rw [resolveHref_relative hrel]
  congr 1
  cases ha : r.authority with
  | some a =>
    obtain ⟨hne, hresolve⟩ := resolve_network haddress hurl hplain hr hparse hhref ha
    rw [if_neg hne, hresolve]
  | none =>
    by_cases hpath : r.path = []
    · exact resolve_sameDocument haddress hurl hplain hr hparse hhref ha hpath
    · obtain ⟨hne, hresolve⟩ := resolve_path haddress hurl hplain hr hparse hhref ha hpath
      rw [if_neg hne, hresolve]

/-- The page `https://host/a/b`. -/
def page : List Char := httpsPrefix ++ ['h', 'o', 's', 't', '/', 'a', '/', 'b']

theorem resolve_standard_page : ∃ base url, normalize page .demoHost = some base ∧
    url.text = targetText base ['c'] ∧
    resolveHref base ['c'] = some (.fetch url) := by
  have hbase : normalize page .demoHost = some ⟨page, by decide⟩ := by decide
  have hrel : Relative ['c'] := ⟨by decide, by decide⟩
  have hurl : (⟨httpsPrefix ++ ['h', 'o', 's', 't', '/', 'a', '/', 'c'], by decide⟩ : HttpsUrl).text =
      targetText ⟨page, by decide⟩ ['c'] := by decide
  have hplain : Plain ⟨page, by decide⟩ ['c'] := by
    have hnetwork : (parse ['c']).authority = none := by decide
    have hpath : (parse ['c']).path ≠ [] := by decide
    refine ⟨by
      decide, fun a ha => ?_, fun _ hnil => absurd hnil hpath,
      fun _ _ => ⟨by decide, by decide, ?_⟩, by decide⟩
    · rw [hnetwork] at ha
      cases ha
    · exact shallow_of_length (by decide)
  exact ⟨_, _, hbase, hurl, (resolve_standard hbase hrel hurl hplain).trans (by decide)⟩

/-- The link `?u=a://b`. -/
def queryWithColon : List Char := ['?', 'u', '=', 'a', ':', '/', '/', 'b']

/-- A query with `://` in it is taken for a scheme. -/
theorem queryWithColon_rejected : ∃ base url, normalize page .demoHost = some base ∧
    Relative queryWithColon ∧
    url.text = targetText base queryWithColon ∧
      ((target base queryWithColon).path.splitOn '/').length ≤ segmentCap ∧
    standardIntent base queryWithColon url = .fetch url ∧
      resolveHref base queryWithColon = some .rejected :=
  ⟨⟨page, by decide⟩, ⟨page ++ queryWithColon, by decide⟩,
    by decide, ⟨by decide, by decide⟩, by decide, by decide, by decide, by decide⟩

end Lerux.Desk
