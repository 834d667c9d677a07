import Lerux.Base.Text

/-!
# Resolving references

The parts of a relative reference, and the reference resolved against the parts of a base address:
an authority of its own replaces everything, an empty path keeps the path of the base, and another
path is merged with it. Dot segments are then removed from the path, with an input and an output
buffer as the standard algorithm has it (`removeDotSegments`).

`removeDotSegments_abs` is the algorithm on the segments of an absolute path: a stack, on which `.`
does nothing and `..` takes the top, and a last segment of dots leaves an empty one.
-/

namespace Lerux.Reference

def hash (c : Char) : Bool := c = '#'

def queryOrHash (c : Char) : Bool := c = '?' || c = '#'

def slashQueryOrHash (c : Char) : Bool := c = '/' || c = '?' || c = '#'

/-- The parts of a reference without a scheme. -/
structure Parts where
  authority : Option (List Char)
  path : List Char
  query : Option (List Char)
  fragment : Option (List Char)
  deriving DecidableEq

/-- The query and the fragment, from the first `?` or `#` on. -/
def queryFragment : List Char → Option (List Char) × Option (List Char)
  | '?' :: rest =>
    (some (rest.takeWhile (!hash ·)),
      match rest.dropWhile (!hash ·) with
      | '#' :: fragment => some fragment
      | _ => none)
  | '#' :: fragment => (none, some fragment)
  | _ => (none, none)

/-- A query as it stands in a reference. -/
def queryText : Option (List Char) → List Char
  | some query => '?' :: query
  | none => []

/-- A fragment as it stands in a reference. -/
def fragmentText : Option (List Char) → List Char
  | some fragment => '#' :: fragment
  | none => []

section queryFragment

variable {query fragment : Option (List Char)}

theorem fragmentText_head (fragment : Option (List Char)) : ∀ c ∈ (fragmentText fragment).head?,
    hash c = true := by
  intro c hc
  cases fragment with
  | none => cases hc
  | some f =>
    cases hc
    rfl

theorem queryFragment_head (query fragment : Option (List Char)) :
    ∀ c ∈ (queryText query ++ fragmentText fragment).head?, queryOrHash c = true := by
  intro c hc
  cases query with
  | none =>
    have hhash := fragmentText_head fragment c hc
    simp only [hash, decide_eq_true_eq] at hhash
    rw [hhash]
    rfl
  | some q =>
    cases hc
    rfl

theorem hash_eq_false {q : List Char} (hq : '#' ∉ q) : ∀ c ∈ q, hash c = false := by
  intro c hc
  simp only [hash, decide_eq_false_iff_not]
  rintro rfl
  exact hq hc

theorem queryFragment_text (hq : ∀ q ∈ query, '#' ∉ q) :
    queryFragment (queryText query ++ fragmentText fragment) = (query, fragment) := by
  cases query with
  | none =>
    cases fragment with
    | none => rfl
    | some f => rfl
  | some q =>
    obtain ⟨htake, hdrop⟩ := takeWhile_append_tail (hash_eq_false (hq q rfl)) (fragmentText_head fragment)
    rw [queryText, List.cons_append, queryFragment, htake, hdrop]
    cases fragment with
    | none => rfl
    | some f => rfl

/-- A text from its first `?` or `#` on is a query and a fragment. -/
theorem exists_queryFragment {rest : List Char} (h : ∀ c ∈ rest.head?, queryOrHash c = true) :
    ∃ query fragment, rest = queryText query ++ fragmentText fragment ∧ ∀ q ∈ query, '#' ∉ q := by
  cases rest with
  | nil => exact ⟨none, none, rfl, fun q hq => by cases hq⟩
  | cons c rest =>
    have hc := h c rfl
    simp only [queryOrHash, Bool.or_eq_true, decide_eq_true_eq] at hc
    rcases hc with rfl | rfl
    swap
    · exact ⟨none, some rest, rfl, fun q hq => by cases hq⟩
    have hcut := List.takeWhile_append_dropWhile (p := (!hash ·)) (l := rest)
    have hquery : ∀ q ∈ some (rest.takeWhile (!hash ·)), '#' ∉ q := by
      rintro q ⟨⟩ hmem
      have := mem_takeWhile_not hmem
      cases this
    cases hdrop : rest.dropWhile (!hash ·) with
    | nil =>
      rw [hdrop, List.append_nil] at hcut
      exact ⟨some (rest.takeWhile (!hash ·)), none,
        by rw [hcut, fragmentText, List.append_nil]; rfl, hquery⟩
    | cons d fragment =>
      have hd := head_dropWhile_not (p := hash) (t := rest) d (by rw [hdrop]; rfl)
      simp only [hash, decide_eq_true_eq] at hd
      subst hd
      exact ⟨some (rest.takeWhile (!hash ·)), some fragment,
        by rw [hdrop] at hcut; simp [queryText, fragmentText, hcut], hquery⟩

end queryFragment

/-- The parts behind an authority. -/
def behindAuthority (authority : Option (List Char)) (t : List Char) : Parts where
  authority
  path := t.takeWhile (!queryOrHash ·)
  query := (queryFragment (t.dropWhile (!queryOrHash ·))).1
  fragment := (queryFragment (t.dropWhile (!queryOrHash ·))).2

def parse (t : List Char) : Parts :=
  if ['/', '/'] <+: t then
    behindAuthority (some ((t.drop 2).takeWhile (!slashQueryOrHash ·)))
      ((t.drop 2).dropWhile (!slashQueryOrHash ·))
  else behindAuthority none t

/-- The parts of a reference are such that the reference can be put together from them. -/
structure Parts.Ok (r : Parts) : Prop where
  authority : ∀ a ∈ r.authority, ∀ c ∈ a, slashQueryOrHash c = false
  path : ∀ c ∈ r.path, queryOrHash c = false
  slash : r.authority.isSome → r.path = [] ∨ r.path.head? = some '/'
  network : r.authority = none → ¬['/', '/'] <+: r.path
  query : ∀ q ∈ r.query, '#' ∉ q

def authorityText : Option (List Char) → List Char
  | some authority => '/' :: '/' :: authority
  | none => []

def Parts.text (r : Parts) : List Char :=
  authorityText r.authority ++ (r.path ++ (queryText r.query ++ fragmentText r.fragment))

theorem behindAuthority_text {path : List Char} {query : Option (List Char)}
    (hpath : ∀ c ∈ path, queryOrHash c = false)
    (hquery : ∀ q ∈ query, '#' ∉ q) (authority fragment : Option (List Char)) :
    behindAuthority authority (path ++ (queryText query ++ fragmentText fragment)) =
      ⟨authority, path, query, fragment⟩ := by
  obtain ⟨htake, hdrop⟩ := takeWhile_append_tail hpath (queryFragment_head query fragment)
  rw [behindAuthority, htake, hdrop, queryFragment_text hquery]

/-- What was put together is taken apart again. -/
theorem parse_text {r : Parts} (h : r.Ok) : parse r.text = r := by
  obtain ⟨authority, path, query, fragment⟩ := r
  obtain ⟨hauthority, hpath, hslash, hnetwork, hquery⟩ := h
  cases authority with
  | some a =>
    have htail : ∀ c ∈ (path ++ (queryText query ++ fragmentText fragment)).head?,
      slashQueryOrHash c = true := by
      intro c hc
      rcases hslash rfl with hnil | hhead
      · have hnil : path = [] := hnil
        subst hnil
        have hends := queryFragment_head query fragment c hc
        simp only [queryOrHash, Bool.or_eq_true, decide_eq_true_eq] at hends
        rcases hends with rfl | rfl
        · rfl
        · rfl
      · cases path with
        | nil => cases hhead
        | cons d path =>
          cases hhead
          cases hc
          rfl
    obtain ⟨htake, hdrop⟩ := takeWhile_append_tail (hauthority a rfl) htail
    have hnet : ['/', '/'] <+: Parts.text ⟨some a, path, query, fragment⟩ := ⟨_, rfl⟩
    have hbehind : (Parts.text ⟨some a, path, query, fragment⟩).drop 2 =
        a ++ (path ++ (queryText query ++ fragmentText fragment)) := rfl
    rw [parse, if_pos hnet, hbehind, htake, hdrop, behindAuthority_text hpath hquery]
  | none =>
    have hnet : ¬['/', '/'] <+: path ++ (queryText query ++ fragmentText fragment) := by
      intro hpre
      have hno : ∀ c ∈ (queryText query ++ fragmentText fragment).head?, c ≠ '/' := by
        rintro c hc rfl
        have hends := queryFragment_head query fragment _ hc
        cases hends
      cases path with
      | nil =>
        cases hrest : queryText query ++ fragmentText fragment with
        | nil =>
          rw [hrest] at hpre
          simp at hpre
        | cons c rest =>
          rw [hrest] at hpre hno
          rw [List.nil_append, List.cons_prefix_cons] at hpre
          exact hno c rfl hpre.1.symm
      | cons d path =>
        rw [List.cons_append, List.cons_prefix_cons] at hpre
        cases path with
        | nil =>
          cases hrest : queryText query ++ fragmentText fragment with
          | nil =>
            rw [hrest] at hpre
            simp at hpre
          | cons c rest =>
            rw [hrest] at hpre hno
            rw [List.nil_append, List.cons_prefix_cons] at hpre
            exact hno c rfl hpre.2.1.symm
        | cons e path =>
          rw [List.cons_append, List.cons_prefix_cons] at hpre
          refine hnetwork rfl ⟨path, ?_⟩
          rw [← hpre.1, ← hpre.2.1]
          rfl
    have htext : Parts.text ⟨none, path, query, fragment⟩ =
      path ++ (queryText query ++ fragmentText fragment) := rfl
    rw [htext, parse, if_neg hnet, behindAuthority_text hpath hquery]

/-- Behind an authority. -/
theorem exists_behind (t : List Char) : ∃ path query fragment,
    t = path ++ (queryText query ++ fragmentText fragment) ∧
    (∀ c ∈ path, queryOrHash c = false) ∧ (∀ q ∈ query, '#' ∉ q) ∧ path = t.takeWhile (!queryOrHash ·) := by
  obtain ⟨query, fragment, hrest, hquery⟩ :=
    exists_queryFragment (head_dropWhile_not (p := queryOrHash) (t := t))
  have hcut := List.takeWhile_append_dropWhile (p := (!queryOrHash ·)) (l := t)
  rw [hrest] at hcut
  exact ⟨_, query, fragment, hcut.symm, fun c hc => mem_takeWhile_not hc, hquery, rfl⟩

/-- Every text is put together from parts. -/
theorem exists_parts (t : List Char) : ∃ r : Parts, r.Ok ∧ r.text = t := by
  by_cases hnet : ['/', '/'] <+: t
  · obtain ⟨rest, rfl⟩ := hnet
    obtain ⟨path, query, fragment, hbehind, hpath, hquery, heq⟩ :=
      exists_behind (rest.dropWhile (!slashQueryOrHash ·))
    have hcut := List.takeWhile_append_dropWhile (p := (!slashQueryOrHash ·)) (l := rest)
    have hhead := head_dropWhile_not (p := slashQueryOrHash) (t := rest)
    refine ⟨⟨some (rest.takeWhile (!slashQueryOrHash ·)), path, query, fragment⟩,
      ⟨?_, hpath, fun _ => ?_, fun h => ?_, hquery⟩, ?_⟩
    · rintro a ⟨⟩ c hc
      exact mem_takeWhile_not hc
    · cases path with
      | nil => exact Or.inl rfl
      | cons d path =>
        rw [hbehind] at hhead
        have hd := hhead d rfl
        have hends := hpath d List.mem_cons_self
        simp only [slashQueryOrHash, queryOrHash, Bool.or_eq_true, Bool.or_eq_false_iff, decide_eq_true_eq,
          decide_eq_false_iff_not] at hd hends
        rcases hd with (rfl | hd) | hd
        · exact Or.inr rfl
        · exact absurd hd hends.1
        · exact absurd hd hends.2
    · cases h
    · rw [hbehind] at hcut
      change '/' :: '/' :: (rest.takeWhile (!slashQueryOrHash ·) ++ _) = '/' :: '/' :: rest
      rw [hcut]
  · obtain ⟨path, query, fragment, ht, hpath, hquery, -⟩ := exists_behind t
    refine ⟨⟨none, path, query, fragment⟩,
      ⟨fun a ha => ?_, hpath, fun h => ?_, fun _ hpre => ?_, hquery⟩, ht.symm⟩
    · cases ha
    · cases h
    · apply hnet
      rw [ht]
      exact hpre.trans (List.prefix_append _ _)

/-! ### Dot segments -/

/-- The output without its last segment and the slash before it. -/
def dropLastSegment (out : List Char) : List Char :=
  match rsplitOnce '/' out with
  | some (before, _) => before
  | none => []

def isSlash (c : Char) : Bool := c = '/'

/-- One round after the other, from the input buffer to the output. -/
def removeDotsGo : Nat → List Char → List Char → List Char
  | 0, _, out => out
  | fuel + 1, input, out =>
    if input = [] then out
    else if ['.', '.', '/'] <+: input then removeDotsGo fuel (input.drop 3) out
    else if ['.', '/'] <+: input then removeDotsGo fuel (input.drop 2) out
    else if ['/', '.', '/'] <+: input then removeDotsGo fuel (input.drop 2) out
    else if input = ['/', '.'] then removeDotsGo fuel ['/'] out
    else if ['/', '.', '.', '/'] <+: input then removeDotsGo fuel (input.drop 3) (dropLastSegment out)
    else if input = ['/', '.', '.'] then removeDotsGo fuel ['/'] (dropLastSegment out)
    else if input = ['.'] ∨ input = ['.', '.'] then removeDotsGo fuel [] out
    -- the first segment, with the slash before it
    else removeDotsGo fuel (input.tail.dropWhile (!isSlash ·))
      (out ++ (input.take 1 ++ input.tail.takeWhile (!isSlash ·)))

/-- A round takes a character at least from the input. -/
def removeDotSegments (path : List Char) : List Char := removeDotsGo (path.length + 1) path []

/-- The path of the base up to its last slash, and the path of the reference. -/
def merge (base path : List Char) : List Char :=
  match rsplitOnce '/' base with
  | some (before, _) => before ++ '/' :: path
  | none => '/' :: path

/-- The parts of the target. -/
def resolve (base ref : Parts) : Parts :=
  if ref.authority.isSome then { ref with path := removeDotSegments ref.path }
  else if ref.path.isEmpty then
    { authority := base.authority, path := base.path, query := ref.query.or base.query,
      fragment := ref.fragment }
  else
    { authority := base.authority
      path := removeDotSegments (if ref.path.head? = some '/' then ref.path else merge base.path ref.path)
      query := ref.query
      fragment := ref.fragment }

/-! ### The algorithm on segments -/

/-- An absolute path of these segments. -/
def abs (segments : List (List Char)) : List Char := segments.flatMap ('/' :: ·)

/-- A segment on the stack of segments. -/
def climb (stack : List (List Char)) (segment : List Char) : List (List Char) :=
  if segment = ['.'] then stack
  else if segment = ['.', '.'] then stack.dropLast
  else stack ++ [segment]

/-- A segment of dots. -/
def dots (segment : List Char) : Prop := segment = ['.'] ∨ segment = ['.', '.']

instance (segment : List Char) : Decidable (dots segment) := inferInstanceAs (Decidable (_ ∨ _))

/-- The stack after the last segment: dots leave an empty one. -/
def settle (stack : List (List Char)) (last : List Char) : List (List Char) :=
  if dots last then climb stack last ++ [[]] else stack ++ [last]

theorem abs_append (a b : List (List Char)) : abs (a ++ b) = abs a ++ abs b := by
  simp [abs]

theorem abs_singleton (segment : List Char) : abs [segment] = '/' :: segment := by
  simp [abs]

theorem abs_cons (segment : List Char) (rest : List (List Char)) : abs (segment :: rest) =
    '/' :: (segment ++ abs rest) := by
  simp [abs]

/-- The segments with a slash between any two, and one before the first. -/
theorem abs_eq_intercalate {segments : List (List Char)} (h : segments ≠ []) :
    abs segments = '/' :: ['/'].intercalate segments := by
  induction segments with
  | nil => exact absurd rfl h
  | cons segment rest ih =>
    cases rest with
    | nil => simp [abs]
    | cons next rest => rw [abs_cons, ih (List.cons_ne_nil _ _), List.intercalate_cons_cons,
      List.append_assoc]; rfl

theorem not_mem_of_mem_splitOn {sep : Char} {t s : List Char} (hs : s ∈ t.splitOn sep) : sep ∉ s := by
  induction t generalizing s with
  | nil =>
    rw [List.splitOn_nil, List.mem_singleton] at hs
    rw [hs]
    exact List.not_mem_nil
  | cons c t ih =>
    rw [List.splitOn_cons_eq_if_modifyHead] at hs
    split at hs
    · rcases List.mem_cons.mp hs with rfl | hs
      · exact List.not_mem_nil
      · exact ih hs
    · next hc =>
      cases hsplit : t.splitOn sep with
      | nil => exact absurd hsplit (List.splitOn_ne_nil sep t)
      | cons first rest =>
        rw [hsplit] at hs ih
        rcases List.mem_cons.mp hs with rfl | hs
        · have hfirst := ih List.mem_cons_self
          rw [List.mem_cons, not_or]
          refine ⟨?_, hfirst⟩
          rintro rfl
          exact hc (beq_self_eq_true _)
        · exact ih (List.mem_cons_of_mem first hs)

/-- An absolute path by its segments. -/
theorem exists_segments {path : List Char} (h : path.head? = some '/') :
    ∃ init last, path = abs (init ++ [last]) ∧
    path.splitOn '/' = [] :: (init ++ [last]) ∧ (∀ s ∈ init, '/' ∉ s) ∧ '/' ∉ last := by
  cases path with
  | nil => cases h
  | cons c rest =>
    cases h
    have hall : ∀ s ∈ rest.splitOn '/', '/' ∉ s := fun s hs => not_mem_of_mem_splitOn hs
    rcases List.eq_nil_or_concat (rest.splitOn '/') with hnil | ⟨init, last, hsplit⟩
    · exact absurd hnil (List.splitOn_ne_nil '/' rest)
    rw [List.concat_eq_append] at hsplit
    have hrest : ['/'].intercalate (rest.splitOn '/') = rest := List.intercalate_splitOn '/'
    rw [hsplit] at hall hrest
    refine ⟨init, last, ?_, ?_, fun s hs => hall s (List.mem_append_left _ hs), hall last (by simp)⟩
    · rw [abs_eq_intercalate (by simp), hrest]
    · rw [List.splitOn_cons_eq_if_modifyHead, if_pos (beq_self_eq_true _), hsplit]

theorem dropLastSegment_abs {stack : List (List Char)} (h : ∀ s ∈ stack, '/' ∉ s) :
    dropLastSegment (abs stack) = abs stack.dropLast := by
  rcases List.eq_nil_or_concat stack with rfl | ⟨front, last, rfl⟩
  · rfl
  · rw [List.concat_eq_append] at h ⊢
    have hlast := h last (by simp)
    rw [abs_append, abs_singleton, dropLastSegment, rsplitOnce_append _ hlast, List.dropLast_concat]

section rounds

variable {segment tail : List Char}

/-- A segment, and what is behind it. -/
theorem cut_segment (hs : '/' ∉ segment) (ht : ∀ c ∈ tail.head?, c = '/') :
    (segment ++ tail).takeWhile (!isSlash ·) = segment ∧
      (segment ++ tail).dropWhile (!isSlash ·) = tail := by
  refine takeWhile_append_tail (fun c hc => ?_) fun c hc => ?_
  · simp only [isSlash, decide_eq_false_iff_not]
    rintro rfl
    exact hs hc
  · simpa [isSlash] using ht c hc

/-- Where a segment ends is seen from the slash behind it. -/
theorem slash_prefix_iff {d : List Char} (hd : '/' ∉ d) (hs : '/' ∉ segment)
    (ht : ∀ c ∈ tail.head?, c = '/') :
    d ++ ['/'] <+: segment ++ tail ↔ segment = d ∧ tail ≠ [] := by
  constructor
  · rintro ⟨rest, hrest⟩
    rw [List.append_assoc] at hrest
    obtain ⟨htake, hdrop⟩ := cut_segment hs ht
    have hslash : ∀ c ∈ (['/'] ++ rest).head?, c = '/' := by simp
    obtain ⟨htake', hdrop'⟩ := cut_segment hd hslash
    rw [← hrest] at htake hdrop
    refine ⟨htake.symm.trans htake', ?_⟩
    rw [← hdrop, hdrop']
    exact List.cons_ne_nil _ _
  · rintro ⟨rfl, hne⟩
    cases tail with
    | nil => exact absurd rfl hne
    | cons c tail =>
      obtain rfl := ht c rfl
      exact ⟨tail, by simp⟩

theorem append_eq_iff {d : List Char} (hd : '/' ∉ d) (ht : ∀ c ∈ tail.head?, c = '/') :
    segment ++ tail = d ↔ segment = d ∧ tail = [] := by
  constructor
  · rintro rfl
    cases tail with
    | nil => simp
    | cons c tail =>
      obtain rfl := ht c rfl
      exact absurd (List.mem_append_right _ List.mem_cons_self) hd
  · rintro ⟨rfl, rfl⟩
    exact List.append_nil _

/-- What is left of the input behind a segment of dots. -/
def behindDots (tail : List Char) : List Char := if tail = [] then ['/'] else tail

/-- One round, on a segment with the slash before it. -/
theorem removeDotsGo_segment (hs : '/' ∉ segment) (ht : ∀ c ∈ tail.head?, c = '/') (fuel : Nat)
    (out : List Char) :
    removeDotsGo (fuel + 1) ('/' :: (segment ++ tail)) out =
      if segment = ['.'] then removeDotsGo fuel (behindDots tail) out
      else if segment = ['.', '.'] then removeDotsGo fuel (behindDots tail) (dropLastSegment out)
      else removeDotsGo fuel tail (out ++ '/' :: segment) := by
  have hdot : ['/', '.', '/'] <+: '/' :: (segment ++ tail) ↔ segment = ['.'] ∧ tail ≠ [] := by
    rw [List.cons_prefix_cons, ← slash_prefix_iff (by decide) hs ht]
    simp
  have hdots : ['/', '.', '.', '/'] <+: '/' :: (segment ++ tail) ↔ segment = ['.', '.'] ∧ tail ≠ [] := by
    rw [List.cons_prefix_cons, ← slash_prefix_iff (by decide) hs ht]
    simp
  have hone : '/' :: (segment ++ tail) = ['/', '.'] ↔ segment = ['.'] ∧ tail = [] := by
    rw [List.cons_inj_right, append_eq_iff (by decide) ht]
  have htwo : '/' :: (segment ++ tail) = ['/', '.', '.'] ↔ segment = ['.', '.'] ∧ tail = [] := by
    rw [List.cons_inj_right, append_eq_iff (by decide) ht]
  have hhead : ∀ rest : List Char, ¬('.' :: rest <+: '/' :: (segment ++ tail)) := by
    rintro rest ⟨r, hr⟩
    cases hr
  rw [removeDotsGo, if_neg (List.cons_ne_nil _ _), if_neg (hhead _), if_neg (hhead _)]
  simp only [hdot, hdots, hone, htwo]
  unfold behindDots
  by_cases hs1 : segment = ['.']
  · subst hs1
    by_cases htail : tail = []
    · simp [htail]
    · simp [htail]
  by_cases hs2 : segment = ['.', '.']
  · subst hs2
    by_cases htail : tail = []
    · simp [htail]
    · simp [htail]
  have hcut := cut_segment hs ht
  have hother : ¬('/' :: (segment ++ tail) = ['.'] ∨ '/' :: (segment ++ tail) = ['.', '.']) := by
    rintro (h | h)
    · cases h
    · cases h
  rw [if_neg fun h => hs1 h.1, if_neg fun h => hs1 h.1, if_neg fun h => hs2 h.1,
    if_neg fun h => hs2 h.1, if_neg hother,
    if_neg hs1, if_neg hs2]
  simp only [List.tail_cons, hcut.1, hcut.2]
  rfl

theorem removeDotsGo_nil (fuel : Nat) (out : List Char) : removeDotsGo fuel [] out = out := by
  cases fuel with
  | zero => rfl
  | succ fuel => rw [removeDotsGo, if_pos rfl]

theorem removeDotsGo_slash {fuel : Nat} (h : 0 < fuel) (out : List Char) :
    removeDotsGo fuel ['/'] out = out ++ ['/'] := by
  obtain ⟨fuel, rfl⟩ : ∃ k, fuel = k + 1 := ⟨fuel - 1, by omega⟩
  have hempty : '/' ∉ ([] : List Char) := by simp
  have hend : ∀ c ∈ ([] : List Char).head?, c = '/' := by simp
  have hround := removeDotsGo_segment hempty hend fuel out
  rw [if_neg (by decide), if_neg (by decide), removeDotsGo_nil] at hround
  exact hround

end rounds

/-- The segments of an absolute path, one after the other. -/
theorem removeDotsGo_abs (init : List (List Char)) (last : List Char) (hinit : ∀ s ∈ init, '/' ∉ s)
    (hlast : '/' ∉ last) :
    ∀ (fuel : Nat) (stack : List (List Char)), (∀ s ∈ stack, '/' ∉ s) →
      (abs (init ++ [last])).length < fuel →
      removeDotsGo fuel (abs (init ++ [last])) (abs stack) =
        abs (settle (init.foldl climb stack) last) := by
  induction init with
  | nil =>
    intro fuel stack hstack hfuel
    have hinput : abs ([] ++ [last]) = '/' :: (last ++ []) := by simp [abs]
    rw [hinput] at hfuel ⊢
    obtain ⟨fuel, rfl⟩ : ∃ k, fuel = k + 1 := ⟨fuel - 1, by omega⟩
    rw [removeDotsGo_segment hlast (by simp)]
    rw [List.foldl_nil, settle]
    by_cases h1 : last = ['.']
    · have hdots : dots last := Or.inl h1
      have hpos : 0 < fuel := by
        rw [h1] at hfuel
        simp only [List.length_cons, List.length_append] at hfuel
        omega
      rw [if_pos h1, if_pos hdots, behindDots, if_pos rfl, removeDotsGo_slash hpos, climb,
        if_pos h1, abs_append, abs_singleton]
    by_cases h2 : last = ['.', '.']
    · have hdots : dots last := Or.inr h2
      have hpos : 0 < fuel := by
        rw [h2] at hfuel
        simp only [List.length_cons, List.length_append] at hfuel
        omega
      rw [if_neg h1, if_pos h2, if_pos hdots, behindDots, if_pos rfl, removeDotsGo_slash hpos,
        climb, if_neg h1, if_pos h2,
        abs_append, abs_singleton, dropLastSegment_abs hstack]
    · have hdots : ¬dots last := fun h => h.elim h1 h2
      rw [if_neg h1, if_neg h2, if_neg hdots, removeDotsGo_nil, abs_append, abs_singleton]
  | cons s init ih =>
    intro fuel stack hstack hfuel
    have hs := hinit s List.mem_cons_self
    have hinput : abs (s :: init ++ [last]) = '/' :: (s ++ abs (init ++ [last])) := by simp [abs]
    have htail : ∀ c ∈ (abs (init ++ [last])).head?, c = '/' := by
      intro c hc
      cases init with
      | nil =>
        cases hc
        rfl
      | cons s' init =>
        cases hc
        rfl
    have hne : abs (init ++ [last]) ≠ [] := by simp [abs]
    have ih := ih fun s' hs' => hinit s' (List.mem_cons_of_mem s hs')
    rw [hinput] at hfuel ⊢
    simp only [List.length_cons, List.length_append] at hfuel
    obtain ⟨fuel, rfl⟩ : ∃ k, fuel = k + 1 := ⟨fuel - 1, by omega⟩
    rw [removeDotsGo_segment hs htail, List.foldl_cons]
    unfold behindDots
    rw [if_neg hne]
    by_cases h1 : s = ['.']
    · rw [if_pos h1, ih fuel stack hstack (by omega), climb, if_pos h1]
    by_cases h2 : s = ['.', '.']
    · rw [if_neg h1, if_pos h2, dropLastSegment_abs hstack,
        ih fuel _ (fun s' hs' => hstack s' (List.mem_of_mem_dropLast hs')) (by omega), climb,
          if_neg h1, if_pos h2]
    · have hpush : abs stack ++ '/' :: s = abs (stack ++ [s]) := by rw [abs_append, abs_singleton]
      have hstack' : ∀ s' ∈ stack ++ [s], '/' ∉ s' := by
        intro s' hs'
        rcases List.mem_append.mp hs' with h | h
        · exact hstack s' h
        · rw [List.mem_singleton.mp h]
          exact hs
      rw [if_neg h1, if_neg h2, hpush, ih fuel _ hstack' (by omega), climb, if_neg h1, if_neg h2]

/-- An absolute path without its dot segments. -/
theorem removeDotSegments_abs {init : List (List Char)} {last : List Char}
    (hinit : ∀ s ∈ init, '/' ∉ s) (hlast : '/' ∉ last) :
    removeDotSegments (abs (init ++ [last])) = abs (settle (init.foldl climb []) last) :=
  removeDotsGo_abs init last hinit hlast _ [] (fun s hs => by cases hs) (Nat.lt_succ_self _)

/-! ### What stands on the stack -/

theorem mem_climb (segments : List (List Char)) : ∀ stack, ∀ s ∈ segments.foldl climb stack,
    s ∈ stack ∨ (s ∈ segments ∧ ¬dots s) := by
  induction segments with
  | nil =>
    intro stack s hs
    exact Or.inl hs
  | cons segment rest ih =>
    intro stack s hs
    rcases ih _ s hs with hs | ⟨hs, hdots⟩
    swap
    · exact Or.inr ⟨List.mem_cons_of_mem segment hs, hdots⟩
    unfold climb at hs
    split at hs
    · exact Or.inl hs
    next h1 =>
    split at hs
    · exact Or.inl (List.mem_of_mem_dropLast hs)
    next h2 =>
    rcases List.mem_append.mp hs with hs | hs
    · exact Or.inl hs
    · rw [List.mem_singleton.mp hs]
      exact Or.inr ⟨List.mem_cons_self, fun h => h.elim h1 h2⟩

theorem getLast_abs (stack : List (List Char)) {last : List Char} :
    (abs (stack ++ [last])).getLast? = if last = [] then some '/' else last.getLast? := by
  rw [abs_append, abs_singleton]
  split
  · next hnil => simp [hnil]
  · next hne =>
    rw [List.getLast?_append_of_ne_nil _ (List.cons_ne_nil _ _)]
    cases last with
    | nil => exact absurd rfl hne
    | cons c last => rw [List.getLast?_cons_cons]

/-! ### Stacks on other stacks -/

/-- The depth of a stack, and how many `..` found nothing on it. -/
def tally (p : Nat × Nat) (segment : List Char) : Nat × Nat :=
  if segment = ['.'] then p
  else if segment = ['.', '.'] then (p.1 - 1, if p.1 = 0 then p.2 + 1 else p.2)
  else (p.1 + 1, p.2)

/-- How many segments in front of these the `..` among them take away. -/
def below (segments : List (List Char)) : Nat := (segments.foldl tally (0, 0)).2

theorem foldl_climb_tally (front segments : List (List Char)) : ∀ (stack : List (List Char)) (b : Nat),
    segments.foldl climb (front.take (front.length - b) ++ stack) =
      front.take (front.length - (segments.foldl tally (stack.length, b)).2) ++
        segments.foldl climb stack := by
  induction segments with
  | nil => exact fun stack b => rfl
  | cons segment rest ih =>
    intro stack b
    rw [List.foldl_cons, List.foldl_cons, List.foldl_cons]
    unfold climb tally
    by_cases hdot : segment = ['.']
    · rw [if_pos hdot, if_pos hdot, if_pos hdot]
      exact ih stack b
    rw [if_neg hdot, if_neg hdot, if_neg hdot]
    by_cases hdots : segment = ['.', '.']
    · rw [if_pos hdots, if_pos hdots, if_pos hdots]
      cases stack with
      | nil =>
        have htake : (front.take (front.length - b) ++ []).dropLast =
          front.take (front.length - (b + 1)) ++ [] := by
          rw [List.append_nil, List.append_nil, List.dropLast_eq_take, List.length_take, List.take_take]
          congr 1
          omega
        rw [htake]
        exact ih [] (b + 1)
      | cons s stack =>
        rw [List.dropLast_append_of_ne_nil (List.cons_ne_nil s stack), if_neg (by simp)]
        have hlen : (s :: stack).length - 1 = (s :: stack).dropLast.length := by simp
        dsimp only
        rw [hlen]
        exact ih _ b
    · rw [if_neg hdots, if_neg hdots, if_neg hdots, List.append_assoc]
      have hlen : stack.length + 1 = (stack ++ [segment]).length := by simp
      dsimp only
      rw [hlen]
      exact ih _ b

/-- What is left of a stack below the segments. -/
theorem foldl_climb_front (front segments : List (List Char)) :
    segments.foldl climb front = front.take (front.length - below segments) ++ segments.foldl climb [] := by
  have h := foldl_climb_tally front segments [] 0
  rwa [Nat.sub_zero, List.take_length, List.append_nil] at h

end Lerux.Reference
