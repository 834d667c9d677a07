import Lerux.Web.Recovery

/-!
# Which rules a style sheet applies

A style sheet is a list of preludes and blocks. What it should set is stated on the texts alone
(`expected`): a comment is white space, a prelude is the list of its parts between commas, and a
block the list of its declarations between semicolons. The parser reads that where it has no need to
recover, and where recovery finds no other rule (`Fair`).
-/

namespace Lerux.Web

open Lerux.Html (TagName isWs isWs_iff accept accept_cons accept_other)
open scoped Along

variable {t u v g raw rest : List Char} {c : Char}

/-! ### What a style sheet should set -/

/-- A text with a space for each comment. -/
def uncommentFrom : GapMode → List Char → List Char
  | _, [] => []
  | .out, c :: t => if c = '/' ∧ t.head? = some '*' then ' ' :: uncommentFrom .opening t
      else c :: uncommentFrom .out t
  | .opening, _ :: t => uncommentFrom .inside t
  | .inside, c :: t => if c = '*' ∧ t.head? = some '/' then uncommentFrom .closing t
      else uncommentFrom .inside t
  | .closing, _ :: t => uncommentFrom .out t

def uncomment (t : List Char) : List Char := uncommentFrom .out t

example : uncomment ['a', '/', '*', 'b', '*', '/', 'c'] = ['a', ' ', 'c'] := by
  simp [uncomment, uncommentFrom]

/-- A part of a prelude: `*` or the name of a known tag. -/
def selector (part : List Char) : Option Selector :=
  if trimMatches isWs part = ['*'] then some .star else (TagName.fromAscii (trimMatches isWs part)).map .tag

def selectorList (prelude_ : List Char) : Option (List Selector) :=
  ((uncomment prelude_).splitOn ',').mapM selector

/-- A part of a block: the name of a property, a colon and a value of the property. -/
def declaration (part : List Char) : Option Decl :=
  if ':' ∈ part then
    (propertyFromName ((trimMatches isWs (part.takeWhile (· ≠ ':'))).map Char.toLower)).bind fun prop =>
      (parseValue prop (beforeImportant ((part.dropWhile (· ≠ ':')).drop 1))).map (Decl.mk prop)
  else none

def declarations (block : List Char) : List Decl := ((uncomment block).splitOn ';').filterMap declaration

/-- The rule of a prelude and a block. A rule that sets nothing is none. -/
def expected (rule : List Char × List Char) : Option Rule :=
  (selectorList rule.1).bind fun selectors =>
    if declarations rule.2 = [] then none else some ⟨selectors, declarations rule.2⟩

def writeRule (rule : List Char × List Char) : List Char := rule.1 ++ '{' :: (rule.2 ++ ['}'])

/-! ### White space and comments -/

def Blank (b : List Char) : Prop := ∀ c ∈ b, isWs c = true

/-- White space and comments that are closed. -/
inductive Gap : List Char → Prop
  | nil : Gap []
  | ws {c : Char} {g : List Char} : isWs c = true → Gap g → Gap (c :: g)
  | comment {body g : List Char} : ¬['*', '/'] <:+: body ++ ['*'] → Gap g →
      Gap ('/' :: '*' :: (body ++ '*' :: '/' :: g))

/-- A comment is read to its first end. -/
theorem inside_body {body : List Char} (h : ¬['*', '/'] <:+: body ++ ['*']) (t : List Char) :
    skipGap .inside (body ++ '*' :: '/' :: t) = skipGap .out t ∧
      uncommentFrom .inside (body ++ '*' :: '/' :: t) = uncommentFrom .out t := by
  induction body with
  | nil => exact ⟨rfl, rfl⟩
  | cons c body ih =>
    have hnot : ¬(c = '*' ∧ (body ++ '*' :: '/' :: t).head? = some '/') := by
      rintro ⟨rfl, hhead⟩
      cases body with
      | nil => exact absurd (Option.some.inj hhead) (by decide)
      | cons d body =>
        cases hhead
        exact h ⟨[], body ++ ['*'], rfl⟩
    obtain ⟨hskip, huncomment⟩ := ih fun hin => h (hin.trans (List.suffix_cons c _).isInfix)
    rw [List.cons_append, skipGap, uncommentFrom, if_neg hnot, if_neg hnot]
    exact ⟨hskip, huncomment⟩

theorem skip_gap (h : Gap g) (t : List Char) : skipWsAndComments (g ++ t) = skipWsAndComments t := by
  induction h with
  | nil => rfl
  | ws hc _ ih =>
    rw [List.cons_append, skipWsAndComments, skipGap, if_pos hc]
    exact ih
  | @comment body g hbody _ ih =>
    have htext : '/' :: '*' :: (body ++ '*' :: '/' :: g) ++ t =
      '/' :: '*' :: (body ++ '*' :: '/' :: (g ++ t)) := by simp
    rw [htext, skipWsAndComments, skipGap, if_neg (by decide), if_pos ⟨rfl, rfl⟩, skipGap,
      (inside_body hbody _).1]
    exact ih

theorem uncomment_gap (h : Gap g) : ∃ b, Blank b ∧ ∀ t, uncomment (g ++ t) = b ++ uncomment t := by
  induction h with
  | nil => exact ⟨[], by simp [Blank], fun _ => rfl⟩
  | @ws c g hc _ ih =>
    obtain ⟨b, hb, heq⟩ := ih
    refine ⟨c :: b, ?_, fun t => ?_⟩
    · intro d hd
      rcases List.mem_cons.mp hd with rfl | hd
      · exact hc
      · exact hb d hd
    · have hslash : ¬(c = '/' ∧ (g ++ t).head? = some '*') := by
        rintro ⟨rfl, -⟩
        exact absurd hc (by decide)
      rw [List.cons_append, uncomment, uncommentFrom, if_neg hslash]
      exact congrArg (c :: ·) (heq t)
  | @comment body g hbody _ ih =>
    obtain ⟨b, hb, heq⟩ := ih
    refine ⟨' ' :: b, ?_, fun t => ?_⟩
    · intro d hd
      rcases List.mem_cons.mp hd with rfl | hd
      · decide
      · exact hb d hd
    · have htext : '/' :: '*' :: (body ++ '*' :: '/' :: g) ++ t =
        '/' :: '*' :: (body ++ '*' :: '/' :: (g ++ t)) := by simp
      rw [htext, uncomment, uncommentFrom, if_pos ⟨rfl, rfl⟩, uncommentFrom, (inside_body hbody _).2]
      exact congrArg (' ' :: ·) (heq t)

theorem uncomment_append (h : NoComment t) (hu : ∀ c ∈ u.head?, c ≠ '*') :
    uncomment (t ++ u) = t ++ uncomment u := by
  induction t with
  | nil => rfl
  | cons d t ih =>
    have hnot : ¬(d = '/' ∧ (t ++ u).head? = some '*') := by
      rintro ⟨rfl, hhead⟩
      cases t with
      | nil => exact hu '*' hhead rfl
      | cons e t =>
        cases hhead
        exact h ⟨[], t, rfl⟩
    rw [List.cons_append, uncomment, uncommentFrom, if_neg hnot]
    exact congrArg (d :: ·) (ih h.tail)

theorem uncomment_cons (h : c ≠ '/') (t : List Char) : uncomment (c :: t) = c :: uncomment t := by
  rw [uncomment, uncommentFrom, if_neg fun hc => h hc.1]
  rfl

theorem uncomment_eq (h : NoComment t) : uncomment t = t := by
  have hall : uncomment (t ++ []) = t ++ uncomment [] := uncomment_append h (by simp)
  simpa [uncomment, uncommentFrom] using hall

/-- Behind white space and comments no name goes on. -/
theorem gap_head (h : Gap g) (hc : Ends c) (rest : List Char) : ∀ d ∈ (g ++ c :: rest).head?,
    identChar d = false ∧ d ≠ '*' := by
  intro d hd
  cases h with
  | nil =>
    cases hd
    exact ⟨hc.ident, hc.star⟩
  | ws hws _ =>
    cases hd
    rcases (isWs_iff _).mp hws with rfl | rfl | rfl | rfl <;> exact ⟨by decide, by decide⟩
  | comment _ _ =>
    cases hd
    exact ⟨by decide, by decide⟩

/-! ### Texts with comments in them -/

/-- A text in which every comment is closed. -/
inductive Closed : List Char → Prop
  | plain {t : List Char} : NoComment t → Closed t
  | comment {t body rest : List Char} : NoComment t → ¬['*', '/'] <:+: body ++ ['*'] → Closed rest →
      Closed (t ++ '/' :: '*' :: (body ++ '*' :: '/' :: rest))

/-- Reading goes on behind a text with closed comments, with no character but those of the text and
spaces. -/
theorem Closed.uncomment (h : Closed v) : ∃ w, (∀ c ∈ w, c = ' ' ∨ c ∈ v) ∧
    ∀ t, (∀ c ∈ t.head?, c ≠ '*') → uncomment (v ++ t) = w ++ uncomment t := by
  induction h with
  | @plain v hno => exact ⟨v, fun c hc => .inr hc, fun t ht => uncomment_append hno ht⟩
  | @comment v body rest hno hbody _ ih =>
    obtain ⟨w, hw, heq⟩ := ih
    refine ⟨v ++ ' ' :: w, fun c hc => ?_, fun t ht => ?_⟩
    · simp only [List.mem_append, List.mem_cons] at hc ⊢
      rcases hc with hc | rfl | hc
      · exact .inr (.inl hc)
      · exact .inl rfl
      · rcases hw c hc with rfl | hc
        · exact .inl rfl
        · exact .inr (.inr (.inr (.inr (.inr (.inr (.inr hc))))))
    · have htext : v ++ '/' :: '*' :: (body ++ '*' :: '/' :: rest) ++ t =
          v ++ '/' :: '*' :: (body ++ '*' :: '/' :: (rest ++ t)) := by simp
      have hopen : Lerux.Web.uncomment ('/' :: '*' :: (body ++ '*' :: '/' :: (rest ++ t))) =
          ' ' :: Lerux.Web.uncomment (rest ++ t) := by
        rw [Lerux.Web.uncomment, uncommentFrom, if_pos ⟨rfl, rfl⟩, uncommentFrom, (inside_body hbody _).2]
        rfl
      rw [htext, uncomment_append hno (by simp), hopen, heq t ht]
      simp

/-- Skipping white space and comments stops inside the text or behind it. -/
theorem Closed.skip (h : Closed v) (hc : Ends c) (rest : List Char) :
    ∃ w, w <:+ v ∧ skipWsAndComments (v ++ c :: rest) = w ++ c :: rest := by
  induction h with
  | @plain v hno => exact ⟨v.dropWhile isWs, List.dropWhile_suffix _, skip_append hno hc rest⟩
  | @comment v body more hno hbody _ ih =>
    obtain ⟨w, hw, heq⟩ := ih
    have htext : v ++ '/' :: '*' :: (body ++ '*' :: '/' :: more) ++ c :: rest =
        v ++ '/' :: '*' :: (body ++ '*' :: '/' :: (more ++ c :: rest)) := by simp
    have hopen : skipWsAndComments ('/' :: '*' :: (body ++ '*' :: '/' :: (more ++ c :: rest))) =
      w ++ c :: rest := by
      rw [skipWsAndComments, skipGap, if_neg (by decide), if_pos ⟨rfl, rfl⟩, skipGap,
        (inside_body hbody _).1]
      exact heq
    rw [htext]
    clear htext
    induction v with
    | nil => exact ⟨w, hw.trans ⟨'/' :: '*' :: (body ++ ['*', '/']), by simp⟩, hopen⟩
    | cons d v ihv =>
      cases hd : isWs d
      · have hnot : ¬(d = '/' ∧ (v ++ '/' :: '*' ::
          (body ++ '*' :: '/' :: (more ++ c :: rest))).head? = some '*') := by
          rintro ⟨rfl, hhead⟩
          cases v with
          | nil => cases hhead
          | cons e v =>
            cases hhead
            exact hno ⟨[], v, rfl⟩
        refine ⟨d :: v ++ '/' :: '*' :: (body ++ '*' :: '/' :: more), List.suffix_rfl, ?_⟩
        rw [List.cons_append, skipWsAndComments, skipGap,
          if_neg (by rw [hd]; exact Bool.false_ne_true), if_neg hnot]
        simp
      · obtain ⟨w', hw', hskip⟩ := ihv hno.tail
        refine ⟨w', hw'.trans (List.suffix_cons d _), ?_⟩
        rw [List.cons_append, skipWsAndComments, skipGap, if_pos hd]
        exact hskip

/-! ### Trimming -/

section trimming

variable {p : Char → Bool} {s b b' : List Char}

theorem rdropWhile_append (h : ∀ c ∈ b, p c = true) (t : List Char) : (t ++ b).rdropWhile p =
    t.rdropWhile p := by
  rw [List.rdropWhile, List.rdropWhile, List.reverse_append, List.dropWhile_append_of_pos]
  simpa using h

theorem trimMatches_append (h : ∀ c ∈ b, p c = true) (t : List Char) : trimMatches p (b ++ t) =
    trimMatches p t := by
  rw [trimMatches, List.dropWhile_append_of_pos h, trimMatches]

theorem trimMatches_between (hb : ∀ c ∈ b, p c = true) (hb' : ∀ c ∈ b', p c = true)
    (hs : ∀ c ∈ s, p c = false) (hne : s ≠ []) :
    trimMatches p (b ++ (s ++ b')) = s := by
  obtain ⟨c, u, rfl⟩ := List.exists_cons_of_ne_nil hne
  have hc : ¬p c = true := by
    rw [hs c List.mem_cons_self]
    exact Bool.false_ne_true
  have hself := trimMatches_of_none hs
  rw [trimMatches_append hb, trimMatches, List.cons_append, List.dropWhile_cons_of_neg hc,
    ← List.cons_append,
    rdropWhile_append hb']
  rwa [trimMatches, List.dropWhile_cons_of_neg hc] at hself

/-- Trimming the end first makes no difference. -/
theorem trimMatches_rdropWhile (t : List Char) : trimMatches p (t.rdropWhile p) = trimMatches p t := by
  induction t using List.reverseRecOn with
  | nil => rfl
  | append_singleton t c ih =>
    cases hc : p c
    · rw [List.rdropWhile_concat_neg _ _ _ (by rw [hc]; exact Bool.false_ne_true)]
    · rw [List.rdropWhile_concat_pos _ _ _ hc, ih, trimMatches, trimMatches, List.dropWhile_append]
      split
      · next hnil =>
        rw [List.isEmpty_iff.mp hnil]
        simp [hc]
      · rw [rdropWhile_append (by simpa using hc)]

theorem isWhitespace_of_isWs (h : isWs c = true) : isWhitespace c = true := by
  rcases (isWs_iff c).mp h with rfl | rfl | rfl | rfl <;> decide

theorem beforeImportant_blank (hb : Blank b) (t : List Char) : beforeImportant (b ++ t) =
    b ++ beforeImportant t := by
  induction b with
  | nil => rfl
  | cons c b ih =>
    have hc : c ≠ '!' := by
      rintro rfl
      exact absurd (hb '!' List.mem_cons_self) (by decide)
    have hrest := ih fun d hd => hb d (List.mem_cons_of_mem c hd)
    have hpre : ¬important.isPrefixOf (c :: (b ++ t)) = true := by
      simp [important, List.isPrefixOf, Ne.symm hc]
    rw [List.cons_append, beforeImportant, breakOn, if_neg hpre, List.cons_append, ← hrest, beforeImportant]
    cases breakOn important (b ++ t) <;> rfl

/-- A value is the same without the white space around it. -/
theorem parseValue_text (prop : Property) (hb : Blank b) (t : List Char) :
    parseValue prop (trimEnd (beforeImportant t)) = parseValue prop (beforeImportant (b ++ t)) := by
  have htrim : trim (trimEnd (beforeImportant t)) = trim (beforeImportant (b ++ t)) := by
    rw [beforeImportant_blank hb, trim, trim, trimEnd, trimMatches_rdropWhile,
      trimMatches_append fun c hc => isWhitespace_of_isWs (hb c hc)]
  unfold parseValue
  rw [htrim]

end trimming

/-! ### Names -/

structure Ident (n : List Char) : Prop where
  start : ∀ c ∈ n.head?, identStart c = true
  chars : ∀ c ∈ n, identChar c = true
  ne : n ≠ []

theorem identChar_plain (h : identChar c = true) : isWs c = false ∧
    c ∉ ['/', '*', ',', ';', ':', '{', '}'] := by
  refine ⟨Bool.eq_false_iff.mpr fun hws => ?_, fun hmem => ?_⟩
  · rcases (isWs_iff c).mp hws with rfl | rfl | rfl | rfl <;> exact absurd h (by decide)
  · simp only [List.mem_cons, List.not_mem_nil, or_false] at hmem
    rcases hmem with rfl | rfl | rfl | rfl | rfl | rfl | rfl <;> exact absurd h (by decide)

theorem Ident.noComment {n : List Char} (h : Ident n) : NoComment n := by
  intro hin
  have hmem := hin.subset (List.mem_cons_self : '/' ∈ ['/', '*'])
  exact (identChar_plain (h.chars '/' hmem)).2 (by simp)

theorem skip_of_plain (hws : isWs c = false) (hslash : c ≠ '/') (t : List Char) :
    skipWsAndComments (c :: t) = c :: t := by
  rw [skipWsAndComments, skipGap, if_neg (by rw [hws]; exact Bool.false_ne_true),
    if_neg fun h => hslash h.1]

theorem Ident.skip {n : List Char} (h : Ident n) (t : List Char) : skipWsAndComments (n ++ t) = n ++ t := by
  obtain ⟨c, m, rfl⟩ := List.exists_cons_of_ne_nil h.ne
  obtain ⟨hws, hplain⟩ := identChar_plain (h.chars c List.mem_cons_self)
  refine skip_of_plain hws ?_ _
  rintro rfl
  exact hplain (by simp)

theorem takeIdent_ident {n : List Char} (h : Ident n) (ht : ∀ c ∈ t.head?, identChar c = false) :
    takeIdent (n ++ t) = (some (n.map Char.toLower), t) := by
  rw [takeIdent, h.skip]
  obtain ⟨c, m, rfl⟩ := List.exists_cons_of_ne_nil h.ne
  obtain ⟨htake, hdrop⟩ := takeWhile_append_stop (fun d hd => h.chars d (List.mem_cons_of_mem c hd)) ht
  rw [List.cons_append]
  dsimp only
  rw [if_pos (h.start c rfl), htake, hdrop]

/-- The lower case of a name is one only if the text is. -/
theorem ident_of_lower {n : List Char} (h : Ident (n.map Char.toLower)) : Ident n where
  start c hc := by
    have := h.start c.toLower (by rw [List.head?_map, Option.mem_def.mp hc]; rfl)
    simp only [identStart, Bool.or_eq_true, decide_eq_true_eq] at this ⊢
    rwa [isAlpha_toLower, toLower_eq_iff (by decide), toLower_eq_iff (by decide)] at this
  chars c hc := by
    have := h.chars c.toLower (List.mem_map_of_mem hc)
    simp only [identChar, Bool.or_eq_true, decide_eq_true_eq] at this ⊢
    rwa [isAlphanum_toLower, toLower_eq_iff (by decide), toLower_eq_iff (by decide)] at this
  ne hnil := h.ne (by rw [hnil]; rfl)

theorem lower_of_fromAscii {s : List Char} {tag : TagName} (h : TagName.fromAscii s = some tag) :
    s.map Char.toLower = tag.asStr ∧ s ≠ [] := by
  unfold TagName.fromAscii at h
  split at h
  · cases h
  · next hlen =>
    have := List.find?_some h
    rw [decide_eq_true_eq] at this
    exact ⟨this.symm, fun hnil => hlen (.inl hnil)⟩

theorem ident_of_fromAscii {s : List Char} {tag : TagName} (h : TagName.fromAscii s = some tag) :
    Ident s := by
  obtain ⟨hlower, -⟩ := lower_of_fromAscii h
  apply ident_of_lower
  rw [hlower]
  cases tag <;> exact ⟨by decide, by decide, by decide⟩

theorem fromAscii_lower (s : List Char) : TagName.fromAscii (s.map Char.toLower) = TagName.fromAscii s := by
  simp only [TagName.fromAscii, List.map_eq_nil_iff, List.length_map, lower_lower]

/-! ### Parts of a prelude -/

/-- `*` or a known tag, with white space and comments around it. -/
inductive Selects : List Char → Selector → Prop
  | star {g g' : List Char} : Gap g → Gap g' → Selects (g ++ '*' :: g') .star
  | tag {g g' s : List Char} {name : TagName} : Gap g → Gap g' → TagName.fromAscii s = some name →
      Selects (g ++ (s ++ g')) (.tag name)

inductive Listed : List Char → List Selector → Prop
  | last {raw : List Char} {sel : Selector} : Selects raw sel → Listed raw [sel]
  | cons {raw rest : List Char} {sel : Selector} {sels : List Selector} : Selects raw sel →
      Listed rest sels →
      Listed (raw ++ ',' :: rest) (sel :: sels)

theorem gap_skip (h : Gap g) (hc : Ends c) (rest : List Char) : skipWsAndComments (g ++ c :: rest) =
    c :: rest := by
  rw [skip_gap h, skip_end hc]

theorem Selects.take {sel : Selector} (h : Selects raw sel) (hc : Ends c) (rest : List Char) :
    ∃ u, takeSelector (skipWsAndComments (raw ++ c :: rest)) = (some sel, u) ∧
      skipWsAndComments u = c :: rest := by
  cases h with
  | @star g g' hg hg' =>
    refine ⟨g' ++ c :: rest, ?_, gap_skip hg' hc rest⟩
    rw [List.append_assoc, skip_gap hg, List.cons_append, skip_of_plain (by decide) (by decide)]
    rfl
  | @tag g g' s name hg hg' hs =>
    have hident := ident_of_fromAscii hs
    refine ⟨g' ++ c :: rest, ?_, gap_skip hg' hc rest⟩
    rw [List.append_assoc, skip_gap hg, List.append_assoc, hident.skip]
    have hstar : ¬(s ++ (g' ++ c :: rest)).head? = some '*' := by
      obtain ⟨d, m, rfl⟩ := List.exists_cons_of_ne_nil hident.ne
      intro heq
      cases heq
      exact (identChar_plain (hident.chars '*' List.mem_cons_self)).2 (by simp)
    rw [takeSelector, if_neg hstar, takeIdent_ident hident fun d hd => (gap_head hg' hc rest d hd).1]
    dsimp only
    rw [fromAscii_lower, hs]
    rfl

theorem Selects.uncomment {sel : Selector} (h : Selects raw sel) :
    ∃ part, ',' ∉ part ∧ selector part = some sel ∧ ∀ t, (∀ c ∈ t.head?, Ends c) →
      uncomment (raw ++ t) = part ++ uncomment t := by
  have hcomma : ∀ {b : List Char}, Blank b → ',' ∉ b := fun hb hmem => absurd (hb ',' hmem) (by decide)
  cases h with
  | @star g g' hg hg' =>
    obtain ⟨b, hb, heq⟩ := uncomment_gap hg
    obtain ⟨b', hb', heq'⟩ := uncomment_gap hg'
    refine ⟨b ++ (['*'] ++ b'), ?_, ?_, fun t _ => ?_⟩
    · simp [hcomma hb, hcomma hb']
    · rw [selector, trimMatches_between hb hb' (by decide) (by decide), if_pos rfl]
    · rw [List.append_assoc, heq, List.cons_append, uncomment_cons (by decide), heq']
      simp
  | @tag g g' s name hg hg' hs =>
    have hident := ident_of_fromAscii hs
    obtain ⟨b, hb, heq⟩ := uncomment_gap hg
    obtain ⟨b', hb', heq'⟩ := uncomment_gap hg'
    have hstar : s ≠ ['*'] := by
      rintro rfl
      exact absurd (hident.chars '*' List.mem_cons_self) (by decide)
    have hnot : ',' ∉ s := fun hmem => (identChar_plain (hident.chars ',' hmem)).2 (by simp)
    refine ⟨b ++ (s ++ b'), ?_, ?_, fun t ht => ?_⟩
    · simp [hcomma hb, hcomma hb', hnot]
    · rw [selector, trimMatches_between hb hb'
        (fun d hd => (identChar_plain (hident.chars d hd)).1) hident.ne, if_neg hstar, hs]
      rfl
    · have hhead : ∀ d ∈ (g' ++ t).head?, d ≠ '*' := by
        cases t with
        | nil =>
          intro d hd
          cases hg' with
          | nil => cases hd
          | ws hws _ =>
            cases hd
            rcases (isWs_iff _).mp hws with rfl | rfl | rfl | rfl <;> decide
          | comment _ _ =>
            cases hd
            decide
        | cons c t => exact fun d hd => (gap_head hg' (ht c rfl) t d hd).2
      rw [List.append_assoc, heq, List.append_assoc, uncomment_append hident.noComment hhead, heq']
      simp

theorem splitOn_cons {sep : Char} (h : sep ∉ raw) (rest : List Char) :
    (raw ++ sep :: rest).splitOn sep = raw :: rest.splitOn sep := by
  have hall : ∀ x ∈ raw, (x == sep) = false := by
    intro x hx
    rw [beq_eq_false_iff_ne]
    rintro rfl
    exact h hx
  exact List.splitOnP_append_cons_of_forall_mem hall sep (beq_self_eq_true sep) rest

theorem splitOn_last {sep : Char} (h : sep ∉ raw) : raw.splitOn sep = [raw] := by
  apply List.splitOnP_eq_singleton
  intro x hx
  rw [beq_eq_false_iff_ne]
  rintro rfl
  exact h hx

/-- A list of selectors is read to its end, and it is the list that the prelude is. -/
theorem Listed.take {sels : List Selector} (h : Listed raw sels) (rest : List Char) :
    takeSelectors (raw ++ '{' :: rest) = (sels, '{' :: rest) ∧ selectorList raw = some sels ∧
      sels ≠ [] := by
  induction h with
  | @last raw sel hsel =>
    obtain ⟨u, htake, hskip⟩ := hsel.take (ends_of_mem (by simp) : Ends '{') rest
    obtain ⟨part, hcomma, hpart, hunc⟩ := hsel.uncomment
    have hraw := hunc [] (by simp)
    refine ⟨?_, ?_, List.cons_ne_nil _ _⟩
    · rw [takeSelectors_step, htake]
      dsimp only
      rw [hskip, if_neg (by simp)]
    · have hnil : Lerux.Web.uncomment [] = [] := rfl
      rw [List.append_nil, hnil, List.append_nil] at hraw
      rw [selectorList, hraw, splitOn_last hcomma]
      simp [hpart]
  | @cons raw next sel sels hsel _ ih =>
    obtain ⟨hread, hlist, -⟩ := ih
    obtain ⟨u, htake, hskip⟩ := hsel.take (ends_of_mem (by simp) : Ends ',') (next ++ '{' :: rest)
    obtain ⟨part, hcomma, hpart, hunc⟩ := hsel.uncomment
    refine ⟨?_, ?_, List.cons_ne_nil _ _⟩
    · rw [List.append_assoc, List.cons_append, takeSelectors_step, htake]
      dsimp only
      rw [hskip, if_pos List.head?_cons, List.drop_succ_cons, List.drop_zero, hread]
    · rw [selectorList, hunc (',' :: next) (by rintro _ ⟨rfl⟩; exact ends_of_mem (by simp)),
        uncomment_cons (by decide),
        splitOn_cons hcomma, List.mapM_cons, hpart]
      rw [selectorList] at hlist
      rw [hlist]
      rfl

/-! ### Parts of a block -/

/-- What the parser reads as one declaration or passes as one: nothing, a name alone, or a name with
a value. Only the value of an unsupported property may have a comment in it. -/
inductive Item : List Char → Option Decl → Prop
  | gap {g : List Char} : Gap g → Item g none
  | name {g n g' : List Char} : Gap g → Ident n → Gap g' → Item (g ++ (n ++ g')) none
  | decl {g n g' g'' v : List Char} : Gap g → Ident n → Gap g' → Gap g'' → NoComment v → ';' ∉ v → '}' ∉ v →
      Item (g ++ (n ++ (g' ++ ':' :: (g'' ++ v))))
        ((propertyFromName (n.map Char.toLower)).bind fun prop =>
          (parseValue prop (trimEnd (beforeImportant (v.dropWhile isWs)))).map (Decl.mk prop))
  | other {g n g' v : List Char} : Gap g → Ident n → Gap g' →
      propertyFromName (n.map Char.toLower) = none → Closed v →
      ';' ∉ v → '}' ∉ v → Item (g ++ (n ++ (g' ++ ':' :: v))) none

/-- The parser reads nothing at its begin, or a name with neither a colon nor a semicolon behind it. -/
inductive Broken : List Char → Prop
  | start {c : Char} {t : List Char} : isWs c = false → c ≠ ';' → identStart c = false → Broken (c :: t)
  | name {n b t : List Char} {c : Char} : Ident n → Blank b → isWs c = false → c ≠ ':' → c ≠ ';' →
      (b = [] → identChar c = false) → Broken (n ++ (b ++ c :: t))

/-- A block: items, and behind them a text that sets nothing where an item is broken. -/
inductive Block : List Char → List Decl → Prop
  | last {raw : List Char} {d : Option Decl} : Item raw d → Block raw d.toList
  | cons {raw rest : List Char} {d : Option Decl} {ds : List Decl} : Item raw d → Block rest ds →
      Block (raw ++ ';' :: rest) (d.toList ++ ds)
  | broken {g t : List Char} : Gap g → Broken t → NoComment t → '@' ∉ t → declarations t = [] →
      Block (g ++ t) []

/-- An item ends at a semicolon or at the brace. -/
theorem Item.take {d : Option Decl} (h : Item raw d) (hc : c = ';' ∨ c = '}') (rest : List Char) :
    d = none ∧ skipWsAndComments (raw ++ c :: rest) = c :: rest ∨
      (∃ e u, identStart e = true ∧ skipWsAndComments (raw ++ c :: rest) = e :: u) ∧
        takeDecl (skipWsAndComments (raw ++ c :: rest)) = (d, c :: rest) := by
  have hends : Ends c := ends_of_mem (by rcases hc with rfl | rfl <;> simp)
  have hcolon : c ≠ ':' := by rcases hc with rfl | rfl <;> decide
  cases h with
  | gap hg => exact .inl ⟨rfl, gap_skip hg hends rest⟩
  | @name g n g' hg hn hg' =>
    obtain ⟨e, m, hcons⟩ := List.exists_cons_of_ne_nil hn.ne
    have hskip : skipWsAndComments (g ++ (n ++ g') ++ c :: rest) = n ++ (g' ++ c :: rest) := by
      rw [List.append_assoc, skip_gap hg, List.append_assoc, hn.skip]
    right
    refine ⟨⟨e, m ++ (g' ++ c :: rest), hn.start e (by rw [hcons]; rfl), ?_⟩, ?_⟩
    · rw [hskip, hcons]
      rfl
    · rw [hskip, takeDecl, takeIdent_ident hn fun d hd => (gap_head hg' hends rest d hd).1]
      dsimp only
      rw [gap_skip hg' hends, if_neg (by simpa using hcolon)]
  | @decl g n g' g'' v hg hn hg' hg'' hv hsemi hbrace =>
    obtain ⟨e, m, hcons⟩ := List.exists_cons_of_ne_nil hn.ne
    have hends' : Ends ':' := ends_of_mem (by simp)
    have hskip : skipWsAndComments (g ++ (n ++ (g' ++ ':' :: (g'' ++ v))) ++ c :: rest) =
        n ++ (g' ++ ':' :: (g'' ++ (v ++ c :: rest))) := by
      have htext : g ++ (n ++ (g' ++ ':' :: (g'' ++ v))) ++ c :: rest =
        g ++ (n ++ (g' ++ ':' :: (g'' ++ (v ++ c :: rest)))) := by
        simp
      rw [htext, skip_gap hg, hn.skip]
    right
    refine ⟨⟨e, m ++ (g' ++ ':' :: (g'' ++ (v ++ c :: rest))), hn.start e (by rw [hcons]; rfl), ?_⟩, ?_⟩
    · rw [hskip, hcons]
      rfl
    · have hplain : ∀ d ∈ v.dropWhile isWs, endsValue d = false := by
        intro d hd
        have hmem := (List.dropWhile_suffix isWs).subset hd
        rw [Bool.eq_false_iff]
        intro hd'
        simp only [endsValue, Bool.or_eq_true, decide_eq_true_eq] at hd'
        rcases hd' with rfl | rfl
        · exact hsemi hmem
        · exact hbrace hmem
      obtain ⟨htake, hdrop⟩ := @takeWhile_append_tail (v.dropWhile isWs) (c :: rest) endsValue hplain (by
        rintro _ ⟨rfl⟩
        rcases hc with rfl | rfl <;> rfl)
      rw [hskip, takeDecl, takeIdent_ident hn fun d hd => (gap_head hg' hends' _ d hd).1]
      dsimp only
      rw [gap_skip hg' hends', if_pos List.head?_cons, List.drop_succ_cons, List.drop_zero,
        takeValueText, skip_gap hg'',
        skip_append hv hends]
      dsimp only
      rw [htake, hdrop]
  | @other g n g' v hg hn hg' hname hv hsemi hbrace =>
    obtain ⟨e, m, hcons⟩ := List.exists_cons_of_ne_nil hn.ne
    have hends' : Ends ':' := ends_of_mem (by simp)
    have hskip : skipWsAndComments (g ++ (n ++ (g' ++ ':' :: v)) ++ c :: rest) =
      n ++ (g' ++ ':' :: (v ++ c :: rest)) := by
      have htext : g ++ (n ++ (g' ++ ':' :: v)) ++ c :: rest =
        g ++ (n ++ (g' ++ ':' :: (v ++ c :: rest))) := by simp
      rw [htext, skip_gap hg, hn.skip]
    right
    refine ⟨⟨e, m ++ (g' ++ ':' :: (v ++ c :: rest)), hn.start e (by rw [hcons]; rfl), ?_⟩, ?_⟩
    · rw [hskip, hcons]
      rfl
    · obtain ⟨w, hw, hvalue⟩ := hv.skip hends rest
      have hplain : ∀ d ∈ w, endsValue d = false := by
        intro d hd
        have hmem := hw.subset hd
        rw [Bool.eq_false_iff]
        intro hd'
        simp only [endsValue, Bool.or_eq_true, decide_eq_true_eq] at hd'
        rcases hd' with rfl | rfl
        · exact hsemi hmem
        · exact hbrace hmem
      obtain ⟨htake, hdrop⟩ := @takeWhile_append_tail w (c :: rest) endsValue hplain (by
        rintro _ ⟨rfl⟩
        rcases hc with rfl | rfl <;> rfl)
      rw [hskip, takeDecl, takeIdent_ident hn fun d hd => (gap_head hg' hends' _ d hd).1]
      dsimp only
      rw [gap_skip hg' hends', if_pos List.head?_cons, List.drop_succ_cons, List.drop_zero,
        takeValueText, hvalue, hname]
      dsimp only
      rw [hdrop]
      rfl

theorem takeDecls_end (rest : List Char) : takeDeclsUntil (some '}') ('}' :: rest) = ([], '}' :: rest) := by
  have hskip := skip_end (ends_of_mem (by simp) : Ends '}') rest
  rw [takeDecls_step, hskip, if_pos]
  right
  exact ⟨rfl, rfl⟩

theorem takeDecls_item {d : Option Decl} (h : Item raw d) (hc : c = ';' ∨ c = '}') (rest : List Char) :
    takeDeclsUntil (some '}') (raw ++ c :: rest) =
      (d.toList ++ (takeDeclsUntil (some '}') (accept ';' (c :: rest))).1,
        (takeDeclsUntil (some '}') (accept ';' (c :: rest))).2) := by
  have hends : Ends c := ends_of_mem (by rcases hc with rfl | rfl <;> simp)
  rcases h.take hc rest with ⟨rfl, hskip⟩ | ⟨⟨e, u, he, hskip⟩, htake⟩
  · rw [takeDecls_step, hskip]
    rcases hc with rfl | rfl
    · have hident : takeDecl (';' :: rest) = (none, ';' :: rest) := by
        rw [takeDecl, takeIdent, skip_end hends]
        rfl
      rw [if_neg (by simp), hident, accept_cons]
      dsimp only
      rw [if_pos List.head?_cons]
      rfl
    · rw [if_pos (.inr ⟨rfl, rfl⟩), accept_other (by decide), takeDecls_end]
      rfl
  · have hbrace : e ≠ '}' := by
      rintro rfl
      exact absurd he (by decide)
    rw [takeDecls_step, if_neg (by rw [hskip]; simpa using hbrace), htake]
    cases d with
    | none =>
      dsimp only
      rcases hc with rfl | rfl
      · rw [if_pos List.head?_cons, accept_cons]
        rfl
      · rw [if_neg (by simp), accept_other (by decide), takeDecls_end]
        rfl
    | some d =>
      dsimp only
      rw [skip_end hends]
      rfl

/-- In a broken item the parser leaves the block, and not at its end. -/
theorem takeDecls_broken (h : Broken t) (hno : NoComment t) (hbrace : '}' ∉ t) (rest : List Char) :
    ∃ v, v ≠ [] ∧ v <:+ t ∧ takeDeclsUntil (some '}') (t ++ '}' :: rest) = ([], v ++ '}' :: rest) := by
  cases h with
  | @start c u hws hsemi hstart =>
    have hhead : c ≠ '}' := by
      rintro rfl
      exact hbrace List.mem_cons_self
    have hskip : skipWsAndComments (c :: u ++ '}' :: rest) = c :: (u ++ '}' :: rest) := by
      rw [skip_append hno (ends_of_mem (by simp)),
        List.dropWhile_cons_of_neg (by rw [hws]; exact Bool.false_ne_true)]
      rfl
    have htake : takeDecl (c :: (u ++ '}' :: rest)) = (none, c :: (u ++ '}' :: rest)) := by
      rw [List.cons_append] at hskip
      rw [takeDecl, takeIdent, hskip]
      dsimp only
      rw [hstart]
      rfl
    refine ⟨c :: u, List.cons_ne_nil _ _, List.suffix_rfl, ?_⟩
    rw [takeDecls_step, hskip, if_neg (by simpa using hhead), htake]
    dsimp only
    rw [if_neg (by simpa using hsemi)]
    rfl
  | @name n b u c hn hb hws hcolon hsemi hident =>
    have htext : n ++ (b ++ c :: u) ++ '}' :: rest = n ++ (b ++ (c :: (u ++ '}' :: rest))) := by simp
    have hsuffix : c :: u <:+ n ++ (b ++ c :: u) := ⟨n ++ b, by simp⟩
    have hskip : skipWsAndComments (b ++ (c :: (u ++ '}' :: rest))) = c :: (u ++ '}' :: rest) := by
      have hall := skip_append (hno.suffix ⟨n, rfl⟩ : NoComment (b ++ c :: u))
        (ends_of_mem (by simp) : Ends '}') rest
      rw [List.dropWhile_append_of_pos hb,
        List.dropWhile_cons_of_neg (by rw [hws]; exact Bool.false_ne_true)] at hall
      simpa using hall
    have hnext : ∀ d ∈ (b ++ (c :: (u ++ '}' :: rest))).head?, identChar d = false := by
      intro d hd
      cases b with
      | nil =>
        cases hd
        exact hident rfl
      | cons e b =>
        cases hd
        rcases (isWs_iff _).mp (hb _ List.mem_cons_self) with rfl | rfl | rfl | rfl <;> decide
    have htake : takeDecl (n ++ (b ++ (c :: (u ++ '}' :: rest)))) = (none, c :: (u ++ '}' :: rest)) := by
      rw [takeDecl, takeIdent_ident hn hnext]
      dsimp only
      rw [hskip, if_neg (by simpa using hcolon)]
    obtain ⟨e, m, hcons⟩ := List.exists_cons_of_ne_nil hn.ne
    have hhead : e ≠ '}' := by
      rintro rfl
      exact absurd (hn.start '}' (by rw [hcons]; rfl)) (by decide)
    have hends : ¬(n ++ (b ++ (c :: (u ++ '}' :: rest))) = [] ∨
        (some '}').isSome = true ∧ (n ++ (b ++ (c :: (u ++ '}' :: rest)))).head? = some '}') := by
      rw [hcons]
      simpa using hhead
    refine ⟨c :: u, List.cons_ne_nil _ _, hsuffix, ?_⟩
    rw [htext, takeDecls_step, hn.skip, if_neg hends, htake]
    dsimp only
    rw [if_neg (by simpa using hsemi)]
    rfl

theorem declaration_blank {b : List Char} (hb : Blank b) (part : List Char) :
    declaration (b ++ part) = declaration part := by
  have hplain : ∀ c ∈ b, c ≠ ':' := by
    rintro _ hc rfl
    exact absurd (hb ':' hc) (by decide)
  have hnot : ':' ∉ b := fun hmem => hplain ':' hmem rfl
  have hall : ∀ c ∈ b, decide (c ≠ ':') = true := fun c hc => decide_eq_true (hplain c hc)
  have hmem : ':' ∈ b ++ part ↔ ':' ∈ part := by simp [hnot]
  unfold declaration
  rw [List.takeWhile_append_of_pos hall, List.dropWhile_append_of_pos hall, trimMatches_append hb]
  simp only [hmem]

/-- What an item sets is what its text says. -/
theorem Item.uncomment {d : Option Decl} (h : Item raw d) :
    ∃ part, ';' ∉ part ∧ declaration part = d ∧ ∀ t, (∀ c ∈ t.head?, Ends c) →
      uncomment (raw ++ t) = part ++ uncomment t := by
  have hplain : ∀ {b : List Char}, Blank b → ';' ∉ b ∧ ':' ∉ b := fun hb =>
    ⟨fun hmem => absurd (hb ';' hmem) (by decide), fun hmem => absurd (hb ':' hmem) (by decide)⟩
  have hhead : ∀ {g t : List Char}, Gap g → (∀ c ∈ t.head?, Ends c) → ∀ d ∈ (g ++ t).head?, d ≠ '*' := by
    intro g t hg ht d hd
    cases t with
    | nil =>
      have hgap := gap_head hg (ends_of_mem (by simp) : Ends '}') []
      cases g with
      | nil => cases hd
      | cons e g => exact (hgap d hd).2
    | cons c t => exact (gap_head hg (ht c rfl) t d hd).2
  cases h with
  | gap hg =>
    obtain ⟨b, hb, heq⟩ := uncomment_gap hg
    refine ⟨b, (hplain hb).1, ?_, fun t _ => heq t⟩
    rw [declaration, if_neg (hplain hb).2]
  | @name g n g' hg hn hg' =>
    obtain ⟨b, hb, heq⟩ := uncomment_gap hg
    obtain ⟨b', hb', heq'⟩ := uncomment_gap hg'
    have hname : ';' ∉ n ∧ ':' ∉ n :=
      ⟨fun hmem => (identChar_plain (hn.chars ';' hmem)).2 (by simp),
        fun hmem => (identChar_plain (hn.chars ':' hmem)).2 (by simp)⟩
    refine ⟨b ++ (n ++ b'), ?_, ?_, fun t ht => ?_⟩
    · simp [(hplain hb).1, (hplain hb').1, hname.1]
    · rw [declaration, if_neg]
      simp [(hplain hb).2, (hplain hb').2, hname.2]
    · rw [List.append_assoc, heq, List.append_assoc, uncomment_append hn.noComment (hhead hg' ht), heq']
      simp
  | @decl g n g' g'' v hg hn hg' hg'' hv hsemi hbrace =>
    obtain ⟨b, hb, heq⟩ := uncomment_gap hg
    obtain ⟨b', hb', heq'⟩ := uncomment_gap hg'
    obtain ⟨b'', hb'', heq''⟩ := uncomment_gap hg''
    have hname : ';' ∉ n ∧ ':' ∉ n :=
      ⟨fun hmem => (identChar_plain (hn.chars ';' hmem)).2 (by simp),
        fun hmem => (identChar_plain (hn.chars ':' hmem)).2 (by simp)⟩
    refine ⟨b ++ (n ++ (b' ++ ':' :: (b'' ++ v))), ?_, ?_, fun t ht => ?_⟩
    · simp [(hplain hb).1, (hplain hb').1, (hplain hb'').1, hname.1, hsemi]
    · have hbefore : ∀ c ∈ b ++ (n ++ b'), decide (c ≠ ':') = true := by
        intro c hc
        rw [decide_eq_true_eq]
        rintro rfl
        simp [(hplain hb).2, (hplain hb').2, hname.2] at hc
      obtain ⟨htake, hdrop⟩ := @takeWhile_append_stop (b ++ (n ++ b')) (':' :: (b'' ++ v))
        (fun c => decide (c ≠ ':')) hbefore
        (by simp)
      have hsplit : v = v.takeWhile isWs ++ v.dropWhile isWs := (List.takeWhile_append_dropWhile).symm
      have hblank : Blank (b'' ++ v.takeWhile isWs) := by
        intro c hc
        rcases List.mem_append.mp hc with hc | hc
        · exact hb'' c hc
        · exact List.mem_takeWhile_imp hc
      have htext : b ++ (n ++ (b' ++ ':' :: (b'' ++ v))) = b ++ (n ++ b') ++ ':' :: (b'' ++ v) := by simp
      have hvalue : b'' ++ v = b'' ++ v.takeWhile isWs ++ v.dropWhile isWs := by
        rw [List.append_assoc, ← hsplit]
      rw [declaration, htext, if_pos (by simp), htake, hdrop,
        trimMatches_between hb hb' (fun d hd => (identChar_plain (hn.chars d hd)).1) hn.ne,
          List.drop_succ_cons, List.drop_zero]
      refine congrArg (Option.bind _) (funext fun prop => ?_)
      rw [parseValue_text prop hblank, ← hvalue]
    · have htext : g ++ (n ++ (g' ++ ':' :: (g'' ++ v))) ++ t =
        g ++ (n ++ (g' ++ ':' :: (g'' ++ (v ++ t)))) := by simp
      have hcolon := gap_head hg' (ends_of_mem (by simp) : Ends ':') (g'' ++ (v ++ t))
      rw [htext, heq, uncomment_append hn.noComment (fun d hd => (hcolon d hd).2), heq',
        uncomment_cons (by decide), heq'',
        uncomment_append hv (fun c hc => (ht c hc).star)]
      simp
  | @other g n g' v hg hn hg' hprop hv hsemi hbrace =>
    obtain ⟨b, hb, heq⟩ := uncomment_gap hg
    obtain ⟨b', hb', heq'⟩ := uncomment_gap hg'
    obtain ⟨w, hw, heq''⟩ := hv.uncomment
    have hname : ';' ∉ n ∧ ':' ∉ n :=
      ⟨fun hmem => (identChar_plain (hn.chars ';' hmem)).2 (by simp),
        fun hmem => (identChar_plain (hn.chars ':' hmem)).2 (by simp)⟩
    have hsemi' : ';' ∉ w := fun hmem => (hw ';' hmem).elim (by decide) hsemi
    refine ⟨b ++ (n ++ (b' ++ ':' :: w)), ?_, ?_, fun t ht => ?_⟩
    · simp [(hplain hb).1, (hplain hb').1, hname.1, hsemi']
    · have hbefore : ∀ c ∈ b ++ (n ++ b'), decide (c ≠ ':') = true := by
        intro c hc
        rw [decide_eq_true_eq]
        rintro rfl
        simp [(hplain hb).2, (hplain hb').2, hname.2] at hc
      have htake := (@takeWhile_append_stop (b ++ (n ++ b')) (':' :: w)
        (fun c => decide (c ≠ ':')) hbefore (by simp)).1
      have htext : b ++ (n ++ (b' ++ ':' :: w)) = b ++ (n ++ b') ++ ':' :: w := by simp
      rw [declaration, htext, if_pos (by simp), htake,
        trimMatches_between hb hb' (fun d hd => (identChar_plain (hn.chars d hd)).1) hn.ne, hprop]
      rfl
    · have htext : g ++ (n ++ (g' ++ ':' :: v)) ++ t = g ++ (n ++ (g' ++ ':' :: (v ++ t))) := by simp
      have hcolon := gap_head hg' (ends_of_mem (by simp) : Ends ':') (v ++ t)
      rw [htext, heq, uncomment_append hn.noComment (fun d hd => (hcolon d hd).2), heq',
        uncomment_cons (by decide),
        heq'' t fun c hc => (ht c hc).star]
      simp

/-- A block is read to its end or is left in a text that sets nothing, and what is read is what the
block sets. -/
theorem Block.take {ds : List Decl} (h : Block raw ds) (hbrace : '{' ∉ raw ∧ '}' ∉ raw) (rest : List Char) :
    (takeDeclsUntil (some '}') (raw ++ '}' :: rest)).1 = ds ∧
      parseStylesheet (accept '}' (takeDeclsUntil (some '}') (raw ++ '}' :: rest)).2) =
        parseStylesheet rest ∧
      declarations raw = ds := by
  induction h with
  | @last raw d hitem =>
    obtain ⟨part, hsemi, hpart, hunc⟩ := hitem.uncomment
    have hraw : uncomment raw = part := by
      have hnil := hunc [] (by simp)
      simpa [Lerux.Web.uncomment, uncommentFrom] using hnil
    rw [takeDecls_item hitem (.inr rfl), accept_other (by decide), takeDecls_end]
    refine ⟨List.append_nil _, by rw [accept_cons], ?_⟩
    rw [declarations, hraw, splitOn_last hsemi, List.filterMap_cons, hpart]
    cases d <;> rfl
  | @cons raw next d ds hitem _ ih =>
    obtain ⟨part, hsemi, hpart, hunc⟩ := hitem.uncomment
    have hnext : '{' ∉ next ∧ '}' ∉ next := by
      simp only [List.mem_append, List.mem_cons, not_or] at hbrace
      exact ⟨hbrace.1.2.2, hbrace.2.2.2⟩
    obtain ⟨hread, hparse, hdecls⟩ := ih hnext
    rw [List.append_assoc, List.cons_append, takeDecls_item hitem (.inl rfl), accept_cons]
    refine ⟨by rw [hread], hparse, ?_⟩
    rw [declarations, hunc (';' :: next) (by rintro _ ⟨rfl⟩; exact ends_of_mem (by simp)),
      uncomment_cons (by decide),
      splitOn_cons hsemi, List.filterMap_cons, hpart]
    rw [declarations] at hdecls
    cases d with
    | none => exact hdecls
    | some d => exact congrArg (d :: ·) hdecls
  | @broken g t hg hbroken hno hat hdecls =>
    simp only [List.mem_append, not_or] at hbrace
    obtain ⟨v, hne, hv, htake⟩ := takeDecls_broken hbroken hno hbrace.2.2 rest
    have hskip : takeDeclsUntil (some '}') (g ++ t ++ '}' :: rest) = takeDeclsUntil (some '}')
      (t ++ '}' :: rest) := by
      rw [takeDecls_step, takeDecls_step (t ++ '}' :: rest), List.append_assoc, skip_gap hg]
    obtain ⟨d, w, rfl⟩ := List.exists_cons_of_ne_nil hne
    have hd : d ≠ '}' := by
      rintro rfl
      exact hbrace.2.2 (hv.subset List.mem_cons_self)
    rw [hskip, htake]
    refine ⟨rfl, ?_, ?_⟩
    · rw [List.cons_append, accept_other hd, ← List.cons_append]
      exact parse_rest (hno.suffix hv) (fun hmem => hbrace.1.2 (hv.subset hmem))
        (fun hmem => hat (hv.subset hmem)) rest
    · obtain ⟨b, hb, heq⟩ := uncomment_gap hg
      rw [declarations, uncomment_eq hno] at hdecls
      rw [declarations, heq, uncomment_eq hno]
      have hsemi : ∀ c ∈ b, c ≠ ';' := by
        rintro _ hc rfl
        exact absurd (hb ';' hc) (by decide)
      have hsplit : ∃ first more, t.splitOn ';' = first :: more ∧
        (b ++ t).splitOn ';' = (b ++ first) :: more := by
        clear * - hsemi
        induction b with
        | nil =>
          obtain ⟨first, more, heq⟩ := List.exists_cons_of_ne_nil (List.splitOn_ne_nil ';' t)
          exact ⟨first, more, heq, heq⟩
        | cons c b ih =>
          obtain ⟨first, more, heq, heq'⟩ := ih fun d hd => hsemi d (List.mem_cons_of_mem c hd)
          have hc : (c == ';') = false := beq_eq_false_iff_ne.mpr (hsemi c List.mem_cons_self)
          refine ⟨first, more, heq, ?_⟩
          rw [List.cons_append, List.splitOn_cons_eq_if_modifyHead, hc, heq']
          rfl
      obtain ⟨first, more, hfirst, hall⟩ := hsplit
      rw [hall, List.filterMap_cons, declaration_blank hb]
      rwa [hfirst, List.filterMap_cons] at hdecls

/-! ### Rules -/

/-- The rules of a style sheet have their braces to themselves, and none is an at-rule. -/
structure Plain (rule : List Char × List Char) : Prop where
  prelude_ : ∀ c ∈ rule.1, c ≠ '{' ∧ c ≠ '}' ∧ c ≠ '@'
  block : ∀ c ∈ rule.2, c ≠ '{' ∧ c ≠ '}'

/-- A rule that is read with no recovery, but for the end of a block that sets nothing there; or one
whose prelude is no list and is passed with no list of selectors right before the brace; or one that
recovery takes for a rule that sets nothing. -/
inductive Fair : List Char × List Char → Prop
  | listed {p b : List Char} {sels : List Selector} {ds : List Decl} : Listed p sels → Block b ds →
      Fair (p, b)
  | passed {g p b : List Char} : Gap g → NoComment p → selectorList (g ++ p) = none → lands p = [] →
      NoComment b →
      '@' ∉ b → Fair (g ++ p, b)
  | idle {g p b : List Char} : Gap g → NoComment p → selectorList (g ++ p) = none → lands p ≠ [] →
      Block b [] → Fair (g ++ p, b)

theorem skip_skip (mode : GapMode) (t : List Char) : skipGap .out (skipGap mode t) = skipGap mode t := by
  induction t generalizing mode with
  | nil => cases mode <;> rfl
  | cons c t ih =>
    cases mode with
    | out =>
      rw [skipGap]
      split
      · exact ih _
      · next hws =>
        split
        · exact ih _
        · next hcomment => rw [skipGap, if_neg hws, if_neg hcomment]
    | opening => exact ih _
    | inside =>
      rw [skipGap]
      split
      · exact ih _
      · exact ih _
    | closing => exact ih _

theorem takeSelectors_skip (t : List Char) : takeSelectors (skipWsAndComments t) = takeSelectors t := by
  have hskip : skipWsAndComments (skipWsAndComments t) = skipWsAndComments t := skip_skip .out t
  rw [takeSelectors_step, takeSelectors_step t, hskip]

theorem takeSelector_head {sel : Selector} (h : takeSelector t = (some sel, u)) :
    t ≠ [] ∧ t.head? ≠ some '@' := by
  refine ⟨?_, fun hhead => ?_⟩
  · rintro rfl
    cases h
  · cases t with
    | nil => cases hhead
    | cons c t =>
      cases hhead
      have hnone : takeSelector ('@' :: t) = (none, '@' :: t) := by
        rw [takeSelector, if_neg (by simp), takeIdent, skip_of_plain (by decide) (by decide)]
        rfl
      rw [hnone] at h
      cases h

theorem Listed.parse {sels : List Selector} (h : Listed raw sels) (rest : List Char) :
    parseStylesheet (raw ++ '{' :: rest) = landed sels rest := by
  obtain ⟨hread, -, hne⟩ := h.take rest
  have hfirst : ∃ sel u, takeSelector (skipWsAndComments (raw ++ '{' :: rest)) = (some sel, u) := by
    cases h with
    | last hsel =>
      obtain ⟨u, htake, -⟩ := hsel.take (ends_of_mem (by simp) : Ends '{') rest
      exact ⟨_, u, htake⟩
    | @cons raw next sel sels hsel _ =>
      obtain ⟨u, htake, -⟩ := hsel.take (ends_of_mem (by simp) : Ends ',') (next ++ '{' :: rest)
      rw [List.append_assoc]
      exact ⟨_, u, htake⟩
  obtain ⟨sel, u, hfirst⟩ := hfirst
  obtain ⟨hnil, hat⟩ := takeSelector_head hfirst
  have hskip := skip_end (ends_of_mem (by simp) : Ends '{') rest
  rw [parseStylesheet_step, if_neg hnil, if_neg hat]
  unfold takeRule landed
  dsimp only
  rw [takeSelectors_skip, hread, if_neg hne]
  dsimp only
  rw [hskip, if_pos List.head?_cons, if_pos hne]
  simp [hne]

theorem parse_gap (h : Gap g) (t : List Char) : parseStylesheet (g ++ t) = parseStylesheet t := by
  rw [parseStylesheet_step, skip_gap h, ← parseStylesheet_step]

theorem Block.landed {sels : List Selector} {ds : List Decl} (h : Block raw ds)
    (hbrace : '{' ∉ raw ∧ '}' ∉ raw)
    (hne : sels ≠ []) (rest : List Char) :
    landed sels (raw ++ '}' :: rest) = (if ds = [] then none else some (Rule.mk sels ds)).toList ++
      parseStylesheet rest := by
  obtain ⟨hread, hparse, -⟩ := h.take hbrace rest
  unfold Lerux.Web.landed
  dsimp only
  rw [if_pos hne, hread, hparse]
  by_cases hds : ds = []
  · simp [hds]
  · simp [hds]

/-- A fair rule is read as the rule that it is, whatever is behind it. -/
theorem Fair.parse {rule : List Char × List Char} (h : Fair rule) (hplain : Plain rule) (rest : List Char) :
    parseStylesheet (writeRule rule ++ rest) = (expected rule).toList ++ parseStylesheet rest := by
  have hblock : '{' ∉ rule.2 ∧ '}' ∉ rule.2 :=
    ⟨fun hmem => (hplain.block _ hmem).1 rfl, fun hmem => (hplain.block _ hmem).2 rfl⟩
  have htext : writeRule rule ++ rest = rule.1 ++ '{' :: (rule.2 ++ '}' :: rest) := by simp [writeRule]
  rw [htext]
  cases h with
  | @listed p b sels ds hp hb =>
    obtain ⟨-, hlist, hne⟩ := hp.take []
    obtain ⟨-, -, hdecls⟩ := hb.take hblock []
    rw [hp.parse, hb.landed hblock hne, expected, hlist, hdecls]
    rfl
  | @passed g p b hg hno hlist hlands hnob hat =>
    have hp : '{' ∉ p ∧ '@' ∉ p := ⟨fun hmem => (hplain.prelude_ _ (List.mem_append_right g hmem)).1 rfl,
      fun hmem => (hplain.prelude_ _ (List.mem_append_right g hmem)).2.2 rfl⟩
    rw [List.append_assoc, parse_gap hg, parse_prelude hno hp.1 hp.2, hlands, expected, hlist]
    simp only [landed, ne_eq, not_true_eq_false, if_false]
    exact parse_rest hnob hblock.1 hat rest
  | @idle g p b hg hno hlist hlands hb =>
    have hp : '{' ∉ p ∧ '@' ∉ p := ⟨fun hmem => (hplain.prelude_ _ (List.mem_append_right g hmem)).1 rfl,
      fun hmem => (hplain.prelude_ _ (List.mem_append_right g hmem)).2.2 rfl⟩
    rw [List.append_assoc, parse_gap hg, parse_prelude hno hp.1 hp.2, hb.landed hblock hlands,
      expected, hlist]
    rfl

/-- A style sheet of fair rules applies what it sets, in its order, and nothing else. -/
theorem parseStylesheet_fair (sheet : List (List Char × List Char)) (hplain : ∀ rule ∈ sheet, Plain rule)
    (hfair : ∀ rule ∈ sheet, Fair rule) : parseStylesheet (sheet.flatMap writeRule) =
      sheet.filterMap expected := by
  induction sheet with
  | nil => rfl
  | cons rule sheet ih =>
    rw [List.forall_mem_cons] at hplain hfair
    rw [List.flatMap_cons, hfair.1.parse hplain.1, ih hplain.2 hfair.2, List.filterMap_cons]
    cases expected rule <;> rfl

/-- `p{color:red}.x{color:red}` -/
theorem parseStylesheet_fair_sample :
    parseStylesheet ['p', '{', 'c', 'o', 'l', 'o', 'r', ':', 'r', 'e', 'd', '}', '.', 'x', '{', 'c', '}'] =
      [⟨[.tag .p], [⟨.color, .color 0xff0000⟩]⟩] := by
  have hplain : ∀ rule ∈ [(['p'], ['c', 'o', 'l', 'o', 'r', ':', 'r', 'e', 'd']),
    (['.', 'x'], ['c'])], Plain rule := by
    simp only [List.forall_mem_cons, List.not_mem_nil, IsEmpty.forall_iff, implies_true, and_true]
    exact ⟨⟨by decide, by decide⟩, ⟨by decide, by decide⟩⟩
  have hname : Ident ['c', 'o', 'l', 'o', 'r'] := ⟨by decide, by decide, by decide⟩
  have hlisted : Listed ['p'] [.tag .p] :=
    .last (.tag .nil .nil (by decide : TagName.fromAscii ['p'] = some .p))
  have hblock := Block.last (@Item.decl [] _ [] [] ['r', 'e', 'd'] .nil hname .nil .nil (by decide)
    (by decide) (by decide))
  have hfair : ∀ rule ∈ [(['p'], ['c', 'o', 'l', 'o', 'r', ':', 'r', 'e', 'd']),
    (['.', 'x'], ['c'])], Fair rule := by
    simp only [List.forall_mem_cons, List.not_mem_nil, IsEmpty.forall_iff, implies_true, and_true]
    exact ⟨.listed hlisted hblock, .passed .nil (by decide) (by decide +kernel) (by decide +kernel)
      (by decide) (by decide)⟩
  have h := parseStylesheet_fair _ hplain hfair
  have hexpected : [(['p'], ['c', 'o', 'l', 'o', 'r', ':', 'r', 'e', 'd']),
    (['.', 'x'], ['c'])].filterMap expected =
      [⟨[.tag .p], [⟨.color, .color 0xff0000⟩]⟩] := by decide +kernel
  rw [hexpected] at h
  exact h

/-- `.p{color:red}`: the class is read as the tag. -/
theorem classSelector_applied : Plain (['.', 'p'], ['c', 'o', 'l', 'o', 'r', ':', 'r', 'e', 'd']) ∧
    expected (['.', 'p'], ['c', 'o', 'l', 'o', 'r', ':', 'r', 'e', 'd']) = none ∧
      parseStylesheet (writeRule (['.', 'p'], ['c', 'o', 'l', 'o', 'r', ':', 'r', 'e', 'd'])) =
        [⟨[.tag .p], [⟨.color, .color 0xff0000⟩]⟩] :=
  ⟨⟨by decide, by decide⟩, by decide +kernel, by decide +kernel⟩

end Lerux.Web
