import Lerux.Html.Token

/-!
# The tokenizer reads back what is written

A document is written as a list of pieces (`Piece`), each attribute with a space before it and its
value in one of the three forms of HTML. The tokenizer reads the pieces back one by one, each
whatever is behind it, except that it ends a value without quotes at a `/`, which HTML does not
(`tokenize_write`).
-/

namespace Lerux.Html

open scoped Along

/-! ### Written pieces -/

inductive Quoting
  | double | single | unquoted
deriving DecidableEq

structure WrittenAttr where
  name : List Char
  value : List Char
  quoting : Quoting
deriving DecidableEq

namespace WrittenAttr

def attr (a : WrittenAttr) : Attr := ⟨a.name.map Char.toLower, a.value⟩

def valueText (a : WrittenAttr) : List Char :=
  match a.quoting with
  | .double => '"' :: (a.value ++ ['"'])
  | .single => '\'' :: (a.value ++ ['\''])
  | .unquoted => a.value

def text (a : WrittenAttr) : List Char := ' ' :: (a.name ++ '=' :: a.valueText)

/-- What a value can have in it in its form. -/
def ValueOk (a : WrittenAttr) : Prop :=
  match a.quoting with
  | .double => '"' ∉ a.value
  | .single => '\'' ∉ a.value
  | .unquoted => a.value ≠ [] ∧ ∀ c ∈ a.value, isWs c = false ∧ c ∉ ['"', '\'', '=', '<', '>', '\x60']

structure Ok (a : WrittenAttr) : Prop where
  name : a.name ≠ []
  nameChars : ∀ c ∈ a.name, c.isAlphanum = true ∨ c ∈ ['-', '_', ':']
  value : a.ValueOk

/-- No value without quotes has a `/`. -/
def Whole (a : WrittenAttr) : Prop := a.quoting = .unquoted → '/' ∉ a.value

end WrittenAttr

inductive Piece
  | startTag (name : TagName) (attrs : List WrittenAttr) (selfClosing : Bool)
  | styleElement (attrs : List WrittenAttr) (selfClosing : Bool) (raw : List Char)
  | endTag (name : TagName)
  | text (s : List Char)

namespace Piece

def startText (name : TagName) (attrs : List WrittenAttr) (selfClosing : Bool) : List Char :=
  '<' :: (name.asStr ++ (attrs.flatMap WrittenAttr.text ++ if selfClosing then [' ', '/', '>'] else ['>']))

def endText (name : TagName) : List Char := '<' :: '/' :: (name.asStr ++ ['>'])

def write : Piece → List Char
  | startTag name attrs selfClosing => startText name attrs selfClosing
  | styleElement attrs selfClosing raw => startText .style attrs selfClosing ++ (raw ++ endText .style)
  | endTag name => endText name
  | text s => s

def tokens : Piece → List Token
  | startTag name attrs selfClosing => [.start name (attrs.map WrittenAttr.attr)
    (selfClosing || name.isVoid)]
  | styleElement attrs selfClosing raw =>
    .start .style (attrs.map WrittenAttr.attr) selfClosing ::
      ((if raw = [] then [] else [.text raw]) ++ [.end_ .style])
  | endTag name => [.end_ name]
  | text s => [.text s]

def attrs : Piece → List WrittenAttr
  | startTag _ attrs _ | styleElement attrs _ _ => attrs
  | _ => []

def IsText : Piece → Prop
  | text _ => True
  | _ => False

/-- The end tag of `style`, in either case, is nowhere in a text. -/
def NoStyleEnd (raw : List Char) : Prop :=
  ∀ before behind : List Char, raw = before ++ behind →
    startsIgnoreAscii behind TagName.style.endTagBytes = false

def Ok : Piece → Prop
  | startTag name attrs _ => name.isRawText = false ∧ ∀ a ∈ attrs, a.Ok
  | styleElement attrs _ raw => (∀ a ∈ attrs, a.Ok) ∧ NoStyleEnd raw
  | endTag _ => True
  | text s => s ≠ [] ∧ '<' ∉ s

end Piece

/-- Every piece is one, and no two texts are next to each other. -/
structure Writable (pieces : List Piece) : Prop where
  ok : ∀ p ∈ pieces, p.Ok
  texts : pieces.IsChain fun p q => ¬(p.IsText ∧ q.IsText)

/-! ### Attributes -/

section attributes

variable {a : WrittenAttr} {attrs : List WrittenAttr} {name t u : List Char}

theorem isAttrNameChar_of_ok {c : Char} (h : c.isAlphanum = true ∨ c ∈ ['-', '_', ':']) :
    isAttrNameChar c = true := by
  simp only [isAttrNameChar, Bool.or_eq_true, decide_eq_true_eq]
  simp only [List.mem_cons, List.not_mem_nil, or_false] at h
  tauto

/-- A character of a name is none of the others. -/
theorem attrNameChar_plain {c : Char} (h : isAttrNameChar c = true) :
    isWs c = false ∧ c ≠ '>' ∧ c ≠ '/' ∧ c ≠ '=' := by
  refine ⟨Bool.eq_false_iff.mpr fun hws => ?_, ?_, ?_, ?_⟩
  · rcases (isWs_iff c).mp hws with rfl | rfl | rfl | rfl <;> exact absurd h (by decide)
  · rintro rfl
    exact absurd h (by decide)
  · rintro rfl
    exact absurd h (by decide)
  · rintro rfl
    exact absurd h (by decide)

theorem skipWs_cons {c : Char} (h : isWs c = false) (t : List Char) : skipWs (c :: t) = c :: t := by
  rw [skipWs, List.dropWhile_cons_of_neg]
  rw [h]
  exact Bool.false_ne_true

theorem skipWs_space (t : List Char) : skipWs (' ' :: t) = skipWs t := rfl

theorem takeAttrName_append (hne : name ≠ []) (hname : ∀ c ∈ name, isAttrNameChar c = true)
    (ht : ∀ c ∈ t.head?, isAttrNameChar c = false) : takeAttrName (name ++ t) =
      some (name.map Char.toLower, t) := by
  obtain ⟨htake, hdrop⟩ := takeWhile_append_stop hname ht
  rw [takeAttrName, htake, hdrop, if_neg hne]

/-- A quoted value ends at its quote. -/
theorem takeAttrValue_quoted {q : Char} (hq : q = '"' ∨ q = '\'') {value : List Char}
    (hvalue : q ∉ value) (t : List Char) :
    takeAttrValue (q :: (value ++ q :: t)) = (value, t) := by
  have hchars : ∀ c ∈ value, (decide (c ≠ q)) = true := by
    intro c hc
    rw [decide_eq_true_eq]
    rintro rfl
    exact hvalue hc
  obtain ⟨htake, hdrop⟩ := @takeWhile_append_stop value (q :: t) (fun c => decide (c ≠ q)) hchars (by simp)
  unfold takeAttrValue
  rcases hq with rfl | rfl
  · rw [if_pos List.head?_cons, List.drop_one, List.tail_cons, htake, hdrop]
    rfl
  · rw [if_neg (by simp), if_pos List.head?_cons, List.drop_one, List.tail_cons, htake, hdrop]
    rfl

theorem takeAttrValue_unquoted {c : Char} (hc : c ≠ '"' ∧ c ≠ '\'') (t : List Char) :
    takeAttrValue (c :: t) = ((c :: t).takeWhile (!endsValue ·), (c :: t).dropWhile (!endsValue ·)) := by
  unfold takeAttrValue
  rw [if_neg (by simpa using hc.1), if_neg (by simpa using hc.2)]

theorem endsValue_iff (c : Char) : endsValue c = true ↔ isWs c = true ∨ c = '>' ∨ c = '/' := by
  simp [endsValue, or_assoc]

/-- A value without quotes, up to its first `/`. -/
theorem takeAttrValue_written (ha : a.Ok) (ht : ∀ c ∈ t.head?, endsValue c = true) :
    (a.Whole → takeAttrValue (a.valueText ++ t) = (a.value, t)) ∧
      (¬a.Whole → (takeAttrValue (a.valueText ++ t)).1 ≠ a.value) := by
  have hvalue := ha.value
  unfold WrittenAttr.ValueOk at hvalue
  unfold WrittenAttr.valueText WrittenAttr.Whole
  cases hquoting : a.quoting with
  | double =>
    rw [hquoting] at hvalue
    refine ⟨fun _ => ?_, fun h => absurd (fun hq => by cases hq) h⟩
    have hread := takeAttrValue_quoted (.inl rfl) hvalue t
    simpa using hread
  | single =>
    rw [hquoting] at hvalue
    refine ⟨fun _ => ?_, fun h => absurd (fun hq => by cases hq) h⟩
    have hread := takeAttrValue_quoted (.inr rfl) hvalue t
    simpa using hread
  | unquoted =>
    rw [hquoting] at hvalue
    obtain ⟨hne, hchars⟩ := hvalue
    obtain ⟨c, rest, hcons⟩ := List.exists_cons_of_ne_nil hne
    have hc : c ≠ '"' ∧ c ≠ '\'' := by
      have hplain := (hchars c (by rw [hcons]; exact List.mem_cons_self)).2
      simp only [List.mem_cons, not_or] at hplain
      exact ⟨hplain.1, hplain.2.1⟩
    have hread : takeAttrValue (a.value ++ t) =
        ((a.value ++ t).takeWhile (!endsValue ·), (a.value ++ t).dropWhile (!endsValue ·)) := by
      rw [hcons]
      exact takeAttrValue_unquoted hc (rest ++ t)
    dsimp only
    rw [hread]
    constructor
    · intro hwhole
      have hends : ∀ c ∈ a.value, endsValue c = false := by
        intro c hc
        rw [← Bool.not_eq_true, endsValue_iff]
        obtain ⟨hws, hplain⟩ := hchars c hc
        rintro (h | rfl | rfl)
        · rw [hws] at h
          cases h
        · simp at hplain
        · exact hwhole rfl hc
      obtain ⟨htake, hdrop⟩ := takeWhile_append_tail hends ht
      rw [htake, hdrop]
    · intro hslash heq
      have hmem : '/' ∈ a.value := by simpa using hslash
      have htaken : '/' ∈ (a.value ++ t).takeWhile (!endsValue ·) := by
        dsimp only at heq
        rw [heq]
        exact hmem
      exact absurd (mem_takeWhile_not htaken) (by decide)

/-- One attribute is read, whatever is behind it. -/
theorem takeAttrs_written (ha : a.Ok) (ht : ∀ c ∈ t.head?, endsValue c = true) :
    (a.Whole → takeAttrs (a.text ++ t) = (a.attr :: (takeAttrs t).1, (takeAttrs t).2)) ∧
      (¬a.Whole → ∃ value attrs u, value ≠ a.value ∧
        takeAttrs (a.text ++ t) = (⟨a.name.map Char.toLower, value⟩ :: attrs, u)) := by
  have hchars : ∀ c ∈ a.name, isAttrNameChar c = true :=
    fun c hc => isAttrNameChar_of_ok (ha.nameChars c hc)
  obtain ⟨c, rest, hcons⟩ := List.exists_cons_of_ne_nil ha.name
  obtain ⟨hws, hgt, hslash, -⟩ := attrNameChar_plain (hchars c (by rw [hcons]; exact List.mem_cons_self))
  have hskip : skipWs (a.text ++ t) = a.name ++ '=' :: (a.valueText ++ t) := by
    rw [WrittenAttr.text, List.cons_append, skipWs_space, List.append_assoc, List.cons_append,
      hcons, List.cons_append,
      skipWs_cons hws]
  have hhead : (skipWs (a.text ++ t)).head? = some c := by
    rw [hskip, hcons]
    rfl
  have hname : takeAttrName (skipWs (a.text ++ t)) =
    some (a.name.map Char.toLower, '=' :: (a.valueText ++ t)) := by
    rw [hskip]
    exact takeAttrName_append ha.name hchars (by rintro _ ⟨rfl⟩; decide)
  have hvalue : takeValue (skipWs ('=' :: (a.valueText ++ t))) = takeAttrValue (a.valueText ++ t) := by
    have hstart : skipWs (a.valueText ++ t) = a.valueText ++ t := by
      have hok := ha.value
      unfold WrittenAttr.ValueOk at hok
      unfold WrittenAttr.valueText
      cases hquoting : a.quoting with
      | double => rfl
      | single => rfl
      | unquoted =>
        rw [hquoting] at hok
        obtain ⟨d, value, hd⟩ := List.exists_cons_of_ne_nil hok.1
        dsimp only
        rw [hd, List.cons_append]
        exact skipWs_cons (hok.2 d (by rw [hd]; exact List.mem_cons_self)).1 _
    rw [skipWs_cons (by decide), takeValue, if_pos List.head?_cons, List.drop_one, List.tail_cons, hstart]
  have hstep := takeAttrs_step (by rw [hhead]; simp [hgt, hslash]) hname
  rw [hvalue] at hstep
  obtain ⟨hwhole, hcut⟩ := takeAttrValue_written ha ht
  refine ⟨fun h => ?_, fun h => ⟨_, _, _, hcut h, hstep⟩⟩
  rw [hstep, hwhole h]
  rfl

/-- The attributes of a tag are read, up to what ends it. -/
theorem takeAttrs_all (hattrs : ∀ a ∈ attrs, a.Ok) (ht : ∀ c ∈ t.head?, endsValue c = true)
    (hend : (skipWs t).head? = some '>' ∨ (skipWs t).head? = some '/') :
    ((∀ a ∈ attrs, a.Whole) →
      takeAttrs (attrs.flatMap WrittenAttr.text ++ t) = (attrs.map WrittenAttr.attr, skipWs t)) ∧
      ((takeAttrs (attrs.flatMap WrittenAttr.text ++ t)).1 = attrs.map WrittenAttr.attr →
        ∀ a ∈ attrs, a.Whole) := by
  induction attrs with
  | nil => exact ⟨fun _ => takeAttrs_end hend, fun _ a ha => by cases ha⟩
  | cons a attrs ih =>
    have ⟨hread, hback⟩ := ih fun b hb => hattrs b (List.mem_cons_of_mem a hb)
    have hnext : ∀ c ∈ (attrs.flatMap WrittenAttr.text ++ t).head?, endsValue c = true := by
      cases attrs with
      | nil => exact ht
      | cons b attrs =>
        rintro _ ⟨rfl⟩
        decide
    obtain ⟨hwhole, hcut⟩ := takeAttrs_written (hattrs a List.mem_cons_self) hnext
    rw [List.flatMap_cons, List.append_assoc, List.map_cons]
    constructor
    · intro hall
      rw [hwhole (hall a List.mem_cons_self), hread fun b hb => hall b (List.mem_cons_of_mem a hb)]
    · intro heq
      by_cases ha : a.Whole
      · rw [hwhole ha] at heq
        intro b hb
        rcases List.mem_cons.mp hb with rfl | hb
        · exact ha
        · exact hback (List.cons.inj heq).2 b hb
      · obtain ⟨value, more, u, hne, htake⟩ := hcut ha
        rw [htake] at heq
        have hvalue := congrArg Attr.value (List.cons.inj heq).1
        exact absurd hvalue hne

end attributes

/-! ### Tags -/

section tags

variable {name : TagName} {attrs : List WrittenAttr} {selfClosing : Bool} {raw s t : List Char}

theorem asStr_nameChars (name : TagName) : ∃ c rest, name.asStr = c :: rest ∧ c.isAlpha = true ∧
    (∀ d ∈ rest, isNameChar d = true) := by
  cases name <;> exact ⟨_, _, rfl, by decide, by decide⟩

theorem fromAscii_asStr (name : TagName) : TagName.fromAscii name.asStr = some name := by
  cases name <;> decide

theorem takeName_asStr (name : TagName) (ht : ∀ c ∈ t.head?, isNameChar c = false) :
    takeName (name.asStr ++ t) = some (name.asStr, t) := by
  obtain ⟨c, rest, hcons, hc, hrest⟩ := asStr_nameChars name
  obtain ⟨htake, hdrop⟩ := takeWhile_append_stop hrest ht
  rw [hcons, List.cons_append, takeName, if_pos hc, htake, hdrop]

/-- The character behind the `<` of a tag is a letter or a `/`, which no other markup has there. -/
theorem startsIgnoreAscii_markup {c : Char} (hc : c ≠ '!') (t pre : List Char) :
    startsIgnoreAscii ('<' :: c :: t) ('<' :: '!' :: pre) = false := by
  unfold startsIgnoreAscii eqIgnoreAsciiCase
  rw [Bool.and_eq_false_iff]
  right
  simp only [List.length_cons, List.take_succ_cons, List.map_cons, decide_eq_false_iff_not,
    List.cons.injEq, not_and]
  intro _ hlower
  exact absurd ((toLower_eq_iff (by decide)).mp hlower) hc

theorem takeTag_start (name : TagName) (ht : ∀ c ∈ t.head?, isNameChar c = false) :
    takeTag ('<' :: (name.asStr ++ t)) = (some
      (.start name (takeAttrs t).1 ((takeClose (takeAttrs t).2).1 || name.isVoid)),
      (takeClose (takeAttrs t).2).2) := by
  obtain ⟨c, rest, hcons, hc, -⟩ := asStr_nameChars name
  have hslash : c ≠ '/' := by
    rintro rfl
    exact absurd hc (by decide)
  have haccept : accept '/' (name.asStr ++ t) = name.asStr ++ t := by
    rw [hcons]
    exact accept_other hslash _
  have hhead : (name.asStr ++ t).head? ≠ some '/' := by
    rw [hcons]
    simpa using hslash
  unfold takeTag
  simp only [List.drop_succ_cons, List.drop_zero]
  rw [haccept, takeName_asStr name ht]
  dsimp only
  rw [fromAscii_asStr]
  dsimp only
  rw [if_neg hhead]

theorem takeTag_end (name : TagName) (t : List Char) : takeTag (Piece.endText name ++ t) =
    (some (.end_ name), t) := by
  have hname := @takeName_asStr ('>' :: t) name (by rintro _ ⟨rfl⟩; decide)
  have htext : Piece.endText name ++ t = '<' :: '/' :: (name.asStr ++ '>' :: t) := by
    simp [Piece.endText]
  rw [htext]
  unfold takeTag
  simp only [List.drop_succ_cons, List.drop_zero]
  rw [accept_cons, hname]
  dsimp only
  rw [fromAscii_asStr]
  dsimp only
  rw [if_pos List.head?_cons, skipWs_cons (by decide), accept_cons]

/-- A written start tag gives its token exactly if its attributes are read whole. -/
theorem takeTag_written (hattrs : ∀ a ∈ attrs, a.Ok) (t : List Char) :
    ((∀ a ∈ attrs, a.Whole) → takeTag (Piece.startText name attrs selfClosing ++ t) =
      (some (.start name (attrs.map WrittenAttr.attr) (selfClosing || name.isVoid)), t)) ∧
    ∃ read closing u,
      takeTag (Piece.startText name attrs selfClosing ++ t) = (some (.start name read closing), u) ∧
      (read = attrs.map WrittenAttr.attr → ∀ a ∈ attrs, a.Whole) := by
  obtain ⟨close, hclose, hskip, htake⟩ : ∃ close, (if selfClosing then [' ', '/', '>']
    else ['>']) ++ t = close ∧
      ((skipWs close).head? = some '>' ∨ (skipWs close).head? = some '/') ∧
        takeClose (skipWs close) = (selfClosing, t) := by
    cases selfClosing
    · refine ⟨_, rfl, .inl rfl, ?_⟩
      unfold takeClose
      rw [show skipWs ((if false = true then [' ', '/', '>'] else ['>']) ++ t) = '>' :: t from rfl,
        skipWs_cons (by decide),
        accept_other (by decide), skipWs_cons (by decide), accept_cons]
      rfl
    · refine ⟨_, rfl, .inr rfl, ?_⟩
      unfold takeClose
      rw [show skipWs ((if true = true then [' ', '/', '>'] else ['>']) ++ t) = '/' :: '>' :: t from rfl,
        skipWs_cons (by decide), accept_cons, skipWs_cons (by decide), accept_cons]
      rfl
  have htext : Piece.startText name attrs selfClosing ++ t =
    '<' :: (name.asStr ++ (attrs.flatMap WrittenAttr.text ++ close)) := by
    rw [← hclose]
    simp [Piece.startText]
  have hstops : ∀ c ∈ close.head?, endsValue c = true ∧ isNameChar c = false := by
    rw [← hclose]
    cases selfClosing
    · rintro _ ⟨rfl⟩
      decide
    · rintro _ ⟨rfl⟩
      decide
  have hname : ∀ c ∈ (attrs.flatMap WrittenAttr.text ++ close).head?, isNameChar c = false := by
    cases attrs with
    | nil => exact fun c hc => (hstops c hc).2
    | cons b attrs =>
      rintro _ ⟨rfl⟩
      decide
  obtain ⟨hread, hback⟩ := takeAttrs_all hattrs (fun c hc => (hstops c hc).1) hskip
  rw [htext, takeTag_start name hname]
  refine ⟨fun hall => ?_, _, _, _, rfl, hback⟩
  rw [hread hall, htake]

/-! ### Raw text -/

/-- An end tag begins with its only `<`, so that none begins in the text before it. -/
theorem startsIgnoreAscii_append {c : Char} (hc : c.isAlpha = false) {before pre t : List Char}
    (hpre : c ∉ pre)
    (hne : before ≠ []) (h : startsIgnoreAscii (before ++ c :: t) (c :: pre) = true) :
    startsIgnoreAscii before (c :: pre) = true := by
  unfold startsIgnoreAscii eqIgnoreAsciiCase at *
  rw [Bool.and_eq_true, decide_eq_true_eq, decide_eq_true_eq] at *
  obtain ⟨hlen, heq⟩ := h
  have hshort : (c :: pre).length ≤ before.length := by
    by_contra hlt
    obtain ⟨d, rest, rfl⟩ := List.exists_cons_of_ne_nil hne
    rw [List.length_cons, List.cons_append, List.take_succ_cons, List.map_cons, List.map_cons,
      List.cons.injEq] at heq
    have hmem : c ∈ (rest ++ c :: t).take pre.length := by
      rw [List.take_append]
      simp only [List.length_cons] at hlt
      obtain ⟨k, hk⟩ : ∃ k, pre.length - rest.length = k + 1 := ⟨pre.length - rest.length - 1, by omega⟩
      rw [hk, List.take_succ_cons]
      exact List.mem_append_right _ List.mem_cons_self
    have hlower := (mem_lower hc _).mpr hmem
    rw [heq.2] at hlower
    exact hpre ((mem_lower hc _).mp hlower)
  exact ⟨hshort, by rwa [List.take_append_of_le_length hshort] at heq⟩

theorem untilStart_raw (hraw : Piece.NoStyleEnd raw) (t : List Char) :
    untilStart TagName.style.endTagBytes (raw ++ (Piece.endText .style ++ t)) =
      (raw, Piece.endText .style ++ t) := by
  induction raw with
  | nil =>
    rw [List.nil_append, show Piece.endText .style ++ t =
      '<' :: ('/' :: (TagName.style.asStr ++ ['>']) ++ t) from rfl, untilStart,
      if_pos]
    rw [startsIgnoreAscii, Bool.and_eq_true]
    constructor
    · simp [TagName.endTagBytes, TagName.asStr]
    · rfl
  | cons c raw ih =>
    have hno : startsIgnoreAscii (c :: raw ++
      (Piece.endText .style ++ t)) TagName.style.endTagBytes = false := by
      rw [Bool.eq_false_iff]
      intro hstart
      have hbefore : startsIgnoreAscii (c :: raw) TagName.style.endTagBytes = true :=
        startsIgnoreAscii_append (by decide) (by decide) (List.cons_ne_nil c raw) hstart
      rw [hraw [] (c :: raw) rfl] at hbefore
      cases hbefore
    have htail : Piece.NoStyleEnd raw := by
      intro before behind hsplit
      exact hraw (c :: before) behind (by rw [hsplit, List.cons_append])
    rw [List.cons_append] at hno ⊢
    rw [untilStart, hno, ih htail]
    rfl

theorem takeRawText_written (hraw : Piece.NoStyleEnd raw) (t : List Char) :
    takeRawText .style (raw ++ (Piece.endText .style ++ t)) =
      ((if raw = [] then [] else [.text raw]) ++ [.end_ .style], t) := by
  unfold takeRawText
  rw [untilStart_raw hraw]
  have hne : Piece.endText .style ++ t ≠ [] := List.append_ne_nil_of_left_ne_nil (List.cons_ne_nil _ _) t
  dsimp only
  rw [if_neg hne, takeTag_end]
  rfl

theorem takeText_written (hne : s ≠ []) (hs : '<' ∉ s) (ht : ∀ c ∈ t.head?, c = '<') :
    takeText (s ++ t) = some (s, t) := by
  have hchars : ∀ c ∈ s, decide (c ≠ '<') = true := by
    intro c hc
    rw [decide_eq_true_eq]
    rintro rfl
    exact hs hc
  obtain ⟨htake, hdrop⟩ := @takeWhile_append_stop s t (fun c => decide (c ≠ '<')) hchars (by
    intro c hc
    simp [ht c hc])
  rw [takeText, htake, hdrop, if_neg hne]

end tags

/-! ### Pieces -/

section pieces

variable {p : Piece} {pieces : List Piece} {t : List Char}

def Piece.Whole (p : Piece) : Prop := ∀ a ∈ p.attrs, a.Whole

theorem startText_head (name : TagName) (attrs : List WrittenAttr) (selfClosing : Bool) (t : List Char) :
    ∃ c u, c ≠ '!' ∧ Piece.startText name attrs selfClosing ++ t = '<' :: c :: u := by
  obtain ⟨c, rest, hcons, hc, -⟩ := asStr_nameChars name
  refine ⟨c, rest ++ ((attrs.flatMap WrittenAttr.text ++ if selfClosing then [' ', '/', '>']
    else ['>']) ++ t), ?_, ?_⟩
  · rintro rfl
    exact absurd hc (by decide)
  · simp [Piece.startText, hcons]

/-- Behind a `<` that begins no other markup a tag is read. -/
theorem next_tag {c : Char} {u : List Char} (hc : c ≠ '!') (ht : t = '<' :: c :: u) : next t =
    match takeTag t with
    | (none, u) => ([], u)
    | (some (.start name attrs selfClosing), u) =>
      if name.isRawText then (.start name attrs selfClosing :: (takeRawText name u).1,
        (takeRawText name u).2)
      else ([.start name attrs selfClosing], u)
    | (some tok, u) => ([tok], u) := by
  unfold next
  rw [if_pos (by rw [ht]; rfl), ht, startsIgnoreAscii_markup hc, startsIgnoreAscii_markup hc]
  rfl

/-- A piece whose values are read whole gives its tokens, in one turn. -/
theorem next_whole (hp : p.Ok) (hwhole : p.Whole) (ht : p.IsText → ∀ c ∈ t.head?, c = '<') :
    next (p.write ++ t) = (p.tokens, t) := by
  cases p with
  | startTag name attrs selfClosing =>
    obtain ⟨c, u, hc, htext⟩ := startText_head name attrs selfClosing t
    obtain ⟨hread, -⟩ := @takeTag_written name attrs selfClosing hp.2 t
    rw [Piece.write, next_tag hc htext, hread hwhole]
    dsimp only
    rw [hp.1]
    rfl
  | styleElement attrs selfClosing raw =>
    obtain ⟨c, u, hc, htext⟩ := startText_head .style attrs selfClosing (raw ++ Piece.endText .style ++ t)
    obtain ⟨hread, -⟩ := @takeTag_written .style attrs selfClosing hp.1 (raw ++ Piece.endText .style ++ t)
    rw [Piece.write, List.append_assoc, next_tag hc htext, hread hwhole, List.append_assoc]
    dsimp only
    rw [takeRawText_written hp.2, if_pos (show TagName.isRawText .style = true from rfl),
      Piece.tokens, show TagName.isVoid .style = false from rfl, Bool.or_false]
  | endTag name =>
    have htext : Piece.endText name ++ t = '<' :: '/' :: ((name.asStr ++ ['>']) ++ t) := rfl
    rw [Piece.write, next_tag (by decide) htext, takeTag_end]
    rfl
  | text s =>
    obtain ⟨hne, hs⟩ := hp
    obtain ⟨c, rest, rfl⟩ := List.exists_cons_of_ne_nil hne
    have hc : ¬(c :: rest ++ t).head? = some '<' := by
      intro hhead
      cases hhead
      exact hs List.mem_cons_self
    rw [Piece.write, next, if_neg hc, takeText_written hne hs (ht trivial)]
    rfl

/-- A piece with a value that is not read whole gives another token in the place of its first. -/
theorem next_cut (hp : p.Ok) (hcut : ¬p.Whole) (t : List Char) :
    ∃ token tokens u, next (p.write ++ t) = (token :: tokens, u) ∧ ∃ token' tokens',
      p.tokens = token' :: tokens' ∧ token ≠ token' := by
  have htag : ∀ (name : TagName) (attrs : List WrittenAttr) (selfClosing closing : Bool) (t : List Char),
      (∀ a ∈ attrs, a.Ok) → (¬∀ a ∈ attrs, a.Whole) → ∃ token tokens u,
        next (Piece.startText name attrs selfClosing ++ t) = (token :: tokens, u) ∧
          token ≠ .start name (attrs.map WrittenAttr.attr) closing := by
    intro name attrs selfClosing closing t hattrs hcut
    obtain ⟨c, u, hc, htext⟩ := startText_head name attrs selfClosing t
    obtain ⟨-, read, readClosing, v, hread, hback⟩ := @takeTag_written name attrs selfClosing hattrs t
    have hne : Token.start name read readClosing ≠ .start name (attrs.map WrittenAttr.attr) closing := by
      intro heq
      cases heq
      exact hcut (hback rfl)
    rw [next_tag hc htext, hread]
    dsimp only
    split
    · exact ⟨_, _, _, rfl, hne⟩
    · exact ⟨_, _, _, rfl, hne⟩
  cases p with
  | startTag name attrs selfClosing =>
    obtain ⟨token, tokens, u, hnext, hne⟩ :=
      htag name attrs selfClosing (selfClosing || name.isVoid) t hp.2 hcut
    exact ⟨token, tokens, u, hnext, _, _, rfl, hne⟩
  | styleElement attrs selfClosing raw =>
    obtain ⟨token, tokens, u, hnext, hne⟩ :=
      htag .style attrs selfClosing selfClosing (raw ++ Piece.endText .style ++ t) hp.1 hcut
    rw [Piece.write, List.append_assoc]
    exact ⟨token, tokens, u, hnext, _, _, rfl, hne⟩
  | endTag name => exact absurd (fun a ha => by cases ha) hcut
  | text s => exact absurd (fun a ha => by cases ha) hcut

theorem Piece.Ok.write_ne_nil (hp : p.Ok) : p.write ≠ [] := by
  cases p with
  | text s => exact hp.1
  | startTag name attrs selfClosing => exact List.cons_ne_nil _ _
  | styleElement attrs selfClosing raw => exact List.cons_ne_nil _ _
  | endTag name => exact List.cons_ne_nil _ _

/-- Behind a text a tag begins, or nothing is left. -/
theorem Writable.head (h : Writable (p :: pieces)) (htext : p.IsText) :
    ∀ c ∈ (pieces.flatMap Piece.write).head?, c = '<' := by
  cases pieces with
  | nil => simp
  | cons q pieces =>
    have hq : ¬q.IsText := fun hq => (List.isChain_cons_cons.mp h.texts).1 ⟨htext, hq⟩
    cases q with
    | text s => exact absurd trivial hq
    | startTag name attrs selfClosing =>
      rintro _ ⟨rfl⟩
      rfl
    | styleElement attrs selfClosing raw =>
      rintro _ ⟨rfl⟩
      rfl
    | endTag name =>
      rintro _ ⟨rfl⟩
      rfl

theorem Writable.tail (h : Writable (p :: pieces)) : Writable pieces where
  ok q hq := h.ok q (List.mem_cons_of_mem p hq)
  texts := h.texts.tail

/-- What is written is read back exactly if no value that is written without quotes has a `/` in it. -/
theorem tokenize_write (h : Writable pieces) :
    tokenize (pieces.flatMap Piece.write) = pieces.flatMap Piece.tokens ↔
      ∀ p ∈ pieces, ∀ a ∈ p.attrs, a.quoting = .unquoted → '/' ∉ a.value := by
  induction pieces with
  | nil => exact ⟨fun _ p hp => (List.not_mem_nil hp).elim, fun _ => rfl⟩
  | cons p pieces ih =>
    have hp := h.ok p List.mem_cons_self
    have hne : p.write ++ pieces.flatMap Piece.write ≠ [] :=
      List.append_ne_nil_of_left_ne_nil hp.write_ne_nil _
    rw [List.flatMap_cons, List.flatMap_cons, tokenize_step hne, List.forall_mem_cons]
    by_cases hwhole : p.Whole
    · rw [next_whole hp hwhole h.head, List.append_cancel_left_eq, ih h.tail]
      exact ⟨fun hrest => ⟨hwhole, hrest⟩, fun hall => hall.2⟩
    · obtain ⟨token, tokens, u, hnext, token', tokens', htokens, hne'⟩ :=
        next_cut hp hwhole (pieces.flatMap Piece.write)
      rw [hnext, htokens]
      exact ⟨fun heq => absurd (List.cons.inj heq).1 hne', fun hall => absurd hall.1 hwhole⟩

theorem tokenize_write_sample :
    tokenize ['<', 'p', ' ', 'I', 'D', '=', 'x', '>', 'y', '<', '/', 'p', '>'] =
      [.start .p [⟨['i', 'd'], ['x']⟩] false, .text ['y'], .end_ .p] := by
  have hattr : WrittenAttr.Ok ⟨['I', 'D'], ['x'], .unquoted⟩ :=
    ⟨by decide, by decide, ⟨List.cons_ne_nil _ _, by decide⟩⟩
  have hok : Writable [.startTag .p [⟨['I', 'D'], ['x'], .unquoted⟩] false, .text ['y'], .endTag .p] := by
    refine ⟨?_, ?_⟩
    · simp only [List.forall_mem_cons, List.not_mem_nil, IsEmpty.forall_iff, implies_true, and_true]
      refine ⟨⟨rfl, ?_⟩, ⟨List.cons_ne_nil _ _, by decide⟩, trivial⟩
      simpa only [List.forall_mem_singleton] using hattr
    · refine .cons_cons (fun h => h.1) (.cons_cons (fun h => h.2) (.singleton _))
  refine (tokenize_write hok).mpr ?_
  simp [Piece.attrs]

/-- The address of a link without quotes: `<a href=/s>`. -/
theorem unquotedSlash_cut : Writable [.startTag .a [⟨['h', 'r', 'e', 'f'], ['/', 's'], .unquoted⟩] false] ∧
    tokenize (Piece.write (.startTag .a [⟨['h', 'r', 'e', 'f'], ['/', 's'], .unquoted⟩] false)) ≠
      Piece.tokens (.startTag .a [⟨['h', 'r', 'e', 'f'], ['/', 's'], .unquoted⟩] false) := by
  refine ⟨⟨?_, .singleton _⟩, by decide⟩
  rw [List.forall_mem_singleton]
  refine ⟨rfl, ?_⟩
  rw [List.forall_mem_singleton]
  exact ⟨by decide, by decide, ⟨List.cons_ne_nil _ _, by decide⟩⟩

end pieces

end Lerux.Html
