import Lerux.Cli.Channels

/-!
# Composition of system descriptions

`ComponentSet::parse`, `select_components` and `compose_system`: the protection domains of a
template are found in its text, the optional ones that a profile does not select are cut out of it,
and the channel blocks of the template are replaced with those of the profile.

A template is a `Template`: a head, a list of items (white space, regions, protection domains and
channel blocks) and what is behind the closing tag. What comes out is again such a text
(`composeSystem_doc`). The end of a channel is looked up under its normalised name and among all
domains of the template, but it is written as it was given and the domain may have been cut:
`compose_exact` says when the ends of the output name domains of the output.
-/

namespace Lerux.Cli

open Pattern
open scoped Along

structure Component where
  name : List Char
  /-- From `<protection_domain` through `</protection_domain>`. -/
  xml : List Char
  deriving DecidableEq

inductive SystemError
  | unclosed
  | duplicate (name : List Char)
  | unknownComponent (sdfName : List Char)
  | missingBracket
  | missingName
  | missingQuote
  | missingComponent (name : List Char)
  | channels (e : ChannelError)
  deriving DecidableEq

def openMark : List Char := "<protection_domain".toList

def closeMark : List Char := "</protection_domain>".toList

def nameMark : List Char := "name=\"".toList

def componentName (xml : List Char) : Except SystemError (List Char) :=
  match breakOn ['>'] xml with
  | none => .error .missingBracket
  | some (tag, _) =>
    match breakOn nameMark tag with
    | none => .error .missingName
    | some (_, rest) =>
      match breakOn ['"'] rest with
      | none => .error .missingQuote
      | some (name, _) => .ok name

/-- The loop of `ComponentSet::parse`. -/
def parseFrom (order : List Component) (rest : List Char) : Except SystemError (List Component) :=
  match hopen : breakOn openMark rest with
  | none => .ok order
  | some (_, behind) =>
    match hclose : breakOn closeMark (openMark ++ behind) with
    | none => .error .unclosed
    | some (inner, behindClose) =>
      have : behindClose.length < rest.length := by
        have hrest := congrArg List.length (breakOn_eq_some hopen)
        have hafter := congrArg List.length (breakOn_eq_some hclose)
        simp only [List.length_append] at hrest hafter
        have hmark : closeMark.length = 20 := rfl
        omega
      match componentName (inner ++ closeMark) with
      | .error e => .error e
      | .ok name =>
        if name ∈ order.map Component.name then .error (.duplicate name)
        else parseFrom (order ++ [⟨name, inner ++ closeMark⟩]) behindClose
termination_by rest.length

def ComponentSet.parse (templateBody : List Char) : Except SystemError (List Component) :=
  parseFrom [] templateBody

def resolve (set : List Component) (pd : List Char) : Option Component :=
  set.find? (·.name = toSdfPdName pd)

/-- Every protection domain of the profile and every end must resolve. -/
def selectComponents (set : List Component) (pds : List (List Char)) (channels : List ChannelSpec) :
    Except SystemError (List Component) :=
  match (pds ++ (channels.flatMap ChannelSpec.ends).map ChannelEnd.pd).find? fun pd =>
    (resolve set pd).isNone with
  | some pd => .error (.unknownComponent (toSdfPdName pd))
  | none => .ok (set.filter (·.name ∈ (pds.filterMap (resolve set)).map Component.name))

/-- The loop of `compose_system` that cuts out what is not kept. -/
def dropComponents (keep : Component → Bool) : List Component → List Char → Except SystemError (List Char)
  | [], composed => .ok composed
  | c :: order, composed =>
    if keep c then dropComponents keep order composed
    else
      match breakOn c.xml composed with
      | none => .error (.missingComponent c.name)
      | some (before, behind) => dropComponents keep order (before ++ behind)

def composeSystem (body : List Char) (set selected : List Component) (optional : List (List Char))
    (channels : List ChannelSpec) : Except SystemError (List Char) :=
  match dropComponents (fun c => c.name ∉ optional || c.name ∈ selected.map Component.name) set body with
  | .error e => .error e
  | .ok composed =>
    if channels = [] then .ok composed
    else
      match replaceChannelsInSystem composed channels (set.map Component.name) with
      | .error e => .error (.channels e)
      | .ok out => .ok out

/-! ### Templates -/

def marks : List (List Char) := [openMark, closeMark, "<channel>".toList, "</channel>".toList,
    "</system>".toList]

/-- A text without the tags that are looked for. -/
abbrev Free (u : List Char) : Prop := ∀ m ∈ marks, ¬ m <:+: u

/-- The element of a protection domain. `before` and `behind` are what stands around the name in its
opening tag. -/
structure DomainText where
  before : List Char
  name : List Char
  behind : List Char
  body : List Char
  tag_chars : ∀ c ∈ ['<', '>'], c ∉ before ∧ c ∉ name ∧ c ∉ behind
  name_chars : '"' ∉ name
  space : ∀ c ∈ before.head?, isWhitespace c = true
  space_ne : before ≠ []
  name_first : ¬ nameMark <:+: before
  body_free : Free body

def DomainText.text (d : DomainText) : List Char :=
  openMark ++ (d.before ++ (nameMark ++ (d.name ++ '"' :: (d.behind ++ '>' :: (d.body ++ closeMark)))))

inductive Item
  | blank (w : List Char) (space : ∀ c ∈ w, isWhitespace c = true)
  | region (u : List Char) (free : Free u) (first : u.head? = some '<') (last : u.getLast? = some '>')
  | domain (d : DomainText)
  | channel (c : ChannelSpec) (names : ∀ e ∈ c.ends, '<' ∉ e.pd)

def Item.text : Item → List Char
  | .blank w _ => w
  | .region u .. => u
  | .domain d => d.text
  | .channel c _ => "<channel>".toList ++ (c.body ++ "</channel>".toList)

def Item.isBlank : Item → Bool
  | .blank .. => true
  | _ => false

def Item.domain? : Item → Option DomainText
  | .domain d => some d
  | _ => none

def Item.channel? : Item → Option ChannelSpec
  | .channel c _ => some c
  | _ => none

/-- A region, or a protection domain whose name is kept. -/
def Item.isKept (keep : List Char → Bool) : Item → Bool
  | .region .. => true
  | .domain d => keep d.name
  | _ => false

/-- The text of a description with these items. -/
def doc (head : List Char) (items : List Item) (tail : List Char) : List Char :=
  head ++ (items.flatMap Item.text ++ ("</system>".toList ++ tail))

structure Template where
  head : List Char
  items : List Item
  tail : List Char
  head_free : Free head
  head_last : ∀ c ∈ head.getLast?, isWhitespace c = false
  tail_free : Free tail
  nodup : ((items.filterMap Item.domain?).map DomainText.name).Nodup

def Template.text (t : Template) : List Char := doc t.head t.items t.tail

def Template.domains (t : Template) : List DomainText := t.items.filterMap Item.domain?

def Template.channels (t : Template) : List ChannelSpec := t.items.filterMap Item.channel?

def DomainText.component (d : DomainText) : Component := ⟨d.name, d.text⟩

/-! ### Tags in the text of a template -/

/-- Nothing can go on with a tag here. -/
def Tame (t : List Char) : Prop := ∀ c ∈ t.head?, c = '<' ∨ isWhitespace c = true

section tags

variable {m m' u t : List Char} {ps : List Piece} {d : DomainText} {x : Item} {items : List Item}

theorem mark_eq (hm : m ∈ marks) : m = '<' :: m.tail ∧ ∀ c ∈ m.tail, c ≠ '<' ∧ isWhitespace c = false := by
  revert m
  decide

theorem mark_boundary (hm : m ∈ marks) (ht : Tame t) : ∀ c ∈ t.head?, c ∉ m.tail := by
  intro c hc hmem
  obtain ⟨hne, hspace⟩ := (mark_eq hm).2 c hmem
  obtain h | h := ht c hc
  · exact hne h
  · rw [h] at hspace
    cases hspace

theorem Free.silent (hu : Free u) (hm : m ∈ marks) (ht : Tame t) : Silent (.lit m :: ps) u t := by
  have hno := hu m hm
  rw [(mark_eq hm).1] at hno ⊢
  exact silent_of_no_part hno (mark_boundary hm ht)

theorem silent_of_no_tag (hm : m ∈ marks) (hu : '<' ∉ u) : Silent (.lit m :: ps) u t := by
  rw [(mark_eq hm).1]
  exact silent_of_not_mem hu

theorem silent_mark (hm : m ∈ marks) (hm' : m' ∈ marks) (hne : m ≠ m') : Silent (.lit m :: ps) m' t := by
  have hapart : ∀ m ∈ marks, ∀ m' ∈ marks, m <+: m' ∨ m' <+: m → m = m' := by decide
  have hhead : ¬ m <+: m' ++ t := fun h =>
    hne (hapart m hm m' hm' (List.prefix_or_prefix_of_prefix h (List.prefix_append m' t)))
  have htail : Silent (.lit m :: ps) m'.tail t := silent_of_no_tag hm fun h => ((mark_eq hm').2 _ h).1 rfl
  obtain ⟨heq, -⟩ := mark_eq hm'
  rw [heq] at hhead ⊢
  exact ⟨matchAt_lit_none hhead, htail⟩

theorem tame_mark (hm : m ∈ marks) (t : List Char) : Tame (m ++ t) := by
  rw [(mark_eq hm).1]
  intro c hc
  exact .inl (Option.some.inj hc).symm

/-- What stands in the opening tag behind its name. -/
def DomainText.tag (d : DomainText) : List Char :=
  d.before ++ (nameMark ++ (d.name ++ '"' :: (d.behind ++ ['>'])))

theorem DomainText.text_eq (d : DomainText) : d.text = openMark ++ (d.tag ++ (d.body ++ closeMark)) := by
  rw [DomainText.text, DomainText.tag]
  simp

theorem DomainText.tag_no_tag (d : DomainText) : '<' ∉ d.tag := by
  obtain ⟨hbefore, hname, hbehind⟩ := d.tag_chars '<' (by decide)
  have hmark : '<' ∉ nameMark := by decide
  simp_all [DomainText.tag]

/-- Behind its first character an element has none of the tags but its closing one. -/
theorem DomainText.silent_inner (hm : m ∈ marks) (hclose : m ≠ closeMark) (d : DomainText) (t : List Char) :
    Silent (.lit m :: ps) (d.tag ++ (d.body ++ closeMark)) t :=
  (silent_of_no_tag hm d.tag_no_tag).append
    ((d.body_free.silent hm (tame_mark (by decide) _)).append (silent_mark hm (by decide) hclose))

def Item.owns : Item → List (List Char)
  | .domain _ => [openMark, closeMark]
  | .channel .. => ["<channel>".toList, "</channel>".toList]
  | _ => []

/-- An item has no other tags than its own. -/
theorem Item.silent (hm : m ∈ marks) (hx : m ∉ x.owns) (ht : Tame t) : Silent (.lit m :: ps) x.text t := by
  cases x with
  | blank w space => exact silent_of_no_tag hm fun h => absurd (space _ h) (by decide)
  | region u free first last => exact free.silent hm ht
  | domain d =>
    obtain ⟨hopen, hclose⟩ : m ≠ openMark ∧ m ≠ closeMark := by simpa [Item.owns] using hx
    have hsilent : Silent (.lit m :: ps) (openMark ++ (d.tag ++ (d.body ++ closeMark))) t :=
      (silent_mark hm (by decide) hopen).append (d.silent_inner hm hclose t)
    rwa [← d.text_eq] at hsilent
  | channel c names =>
    obtain ⟨hopen, hclose⟩ : m ≠ "<channel>".toList ∧ m ≠ "</channel>".toList := by
      simpa [Item.owns] using hx
    have hletter : ∀ m ∈ marks, m = '<' :: m.tail.headD 'e' :: m.tail.tail ∧
      m.tail.headD 'e' ≠ 'e' := by decide
    have hbody : Silent (.lit m :: ps) c.body ("</channel>".toList ++ t) := by
      obtain ⟨heq, hne⟩ := hletter m hm
      rw [heq]
      exact c.silent_body hne names _
    exact (silent_mark hm (by decide) hopen).append (hbody.append (silent_mark hm (by decide) hclose))

theorem Item.tame (x : Item) (ht : Tame t) : Tame (x.text ++ t) := by
  cases x with
  | blank w space =>
    cases w with
    | nil => exact ht
    | cons c w =>
      intro c' hc
      obtain rfl := Option.some.inj hc
      exact .inr (space c List.mem_cons_self)
  | region u free first last =>
    obtain ⟨u', rfl⟩ := List.head?_eq_some_iff.mp first
    exact fun c hc => .inl (Option.some.inj hc).symm
  | domain d => exact fun c hc => .inl (Option.some.inj hc).symm
  | channel c names => exact fun c hc => .inl (Option.some.inj hc).symm

theorem tame_items (ht : Tame t) : Tame (items.flatMap Item.text ++ t) := by
  induction items with
  | nil => exact ht
  | cons x items ih =>
    rw [List.flatMap_cons, List.append_assoc]
    exact x.tame ih

theorem tame_end (tail : List Char) : Tame ("</system>".toList ++ tail) := tame_mark (by decide) tail

end tags

/-! ### Components -/

section components

variable {d d' : DomainText} {items : List Item} {u t rest : List Char} {order : List Component}
  {keep : List Char → Bool}

theorem DomainText.text_split (d : DomainText) : d.text = (openMark ++ (d.tag ++ d.body)) ++ closeMark := by
  rw [d.text_eq]
  simp

theorem breakOn_close (d : DomainText) (t : List Char) :
    breakOn closeMark (d.text ++ t) = some (openMark ++ (d.tag ++ d.body), t) := by
  have hsilent : Silent [.lit closeMark] (openMark ++ (d.tag ++ d.body)) (closeMark ++ t) :=
    (silent_mark (by decide) (by decide) (by decide)).append
      ((silent_of_no_tag (by decide) d.tag_no_tag).append
      (d.body_free.silent (by decide) (tame_mark (by decide) _)))
  rw [d.text_split, List.append_assoc]
  exact breakOn_silent_append hsilent (List.cons_ne_nil _ _)

theorem componentName_text (d : DomainText) : componentName d.text = .ok d.name := by
  obtain ⟨hbefore, hname, hbehind⟩ := d.tag_chars '>' (by decide)
  have htag : breakOn ['>'] d.text = some (openMark ++
    (d.before ++ (nameMark ++ (d.name ++ '"' :: d.behind))), d.body ++ closeMark) := by
    have hno : '>' ∉ openMark ++ (d.before ++ (nameMark ++ (d.name ++ '"' :: d.behind))) := by
      have hopen : '>' ∉ openMark := by decide
      have hmark : '>' ∉ nameMark := by decide
      simp_all
    rw [d.text_eq, DomainText.tag, show openMark ++
      (d.before ++ (nameMark ++ (d.name ++ '"' :: (d.behind ++ ['>']))) ++ (d.body ++ closeMark)) =
      (openMark ++ (d.before ++ (nameMark ++ (d.name ++ '"' :: d.behind)))) ++ '>' ::
        (d.body ++ closeMark) by simp]
    exact breakOn_singleton_append _ hno
  have hbreak : breakOn nameMark (openMark ++ (d.before ++ (nameMark ++ (d.name ++ '"' :: d.behind)))) =
      some (openMark ++ d.before, d.name ++ '"' :: d.behind) := by
    have hfirst : ∀ c ∈ (d.before ++ (nameMark ++ (d.name ++ '"' :: d.behind))).head?,
      c ∉ "ame=\"".toList := by
      intro c hc hmem
      have hspace : isWhitespace c = true := d.space c (by
        obtain ⟨b, before, hb⟩ := List.exists_cons_of_ne_nil d.space_ne
        rw [hb] at hc ⊢
        exact hc)
      have hno : ∀ c ∈ "ame=\"".toList, isWhitespace c = false := by decide
      rw [hno c hmem] at hspace
      cases hspace
    have hsilent : Silent [.lit nameMark] (openMark ++ d.before)
      (nameMark ++ (d.name ++ '"' :: d.behind)) :=
      (silent_of_no_part (x := 'n') (m := "ame=\"".toList) (by decide) hfirst).append
        (silent_of_no_part (x := 'n') (m := "ame=\"".toList) d.name_first (by
          intro c hc
          obtain rfl := Option.some.inj hc
          decide))
    rw [← List.append_assoc]
    exact breakOn_silent_append hsilent (List.cons_ne_nil _ _)
  rw [componentName, htag]
  simp only
  rw [hbreak]
  simp only
  rw [breakOn_singleton_append _ d.name_chars]

theorem parseFrom_none (h : breakOn openMark rest = none) : parseFrom order rest = .ok order := by
  rw [parseFrom]
  split
  · rfl
  · next hsome =>
    rw [h] at hsome
    cases hsome

theorem parseFrom_some {before behind inner behindClose : List Char} {name : List Char}
    (hopen : breakOn openMark rest = some (before, behind))
      (hclose : breakOn closeMark (openMark ++ behind) = some (inner, behindClose))
    (hname : componentName (inner ++ closeMark) = .ok name) (hnew : name ∉ order.map Component.name) :
    parseFrom order rest = parseFrom (order ++ [⟨name, inner ++ closeMark⟩]) behindClose := by
  rw [parseFrom]
  split
  · next hnone =>
    rw [hopen] at hnone
    cases hnone
  · next hsome =>
    cases hopen.symm.trans hsome
    split
    · next hnone =>
      rw [hclose] at hnone
      cases hnone
    · next hsome' =>
      cases hclose.symm.trans hsome'
      rw [hname]
      simp only
      rw [if_neg hnew]

/-- The components are the protection domains, in order and with their own text. -/
theorem parseFrom_items {tail : List Char} (htail : Free tail)
    (hu : ∀ t, Tame t → Silent [.lit openMark] u t)
    (h : (order.map Component.name ++ (items.filterMap Item.domain?).map DomainText.name).Nodup) :
    parseFrom order (u ++ (items.flatMap Item.text ++ ("</system>".toList ++ tail))) =
      .ok (order ++ (items.filterMap Item.domain?).map DomainText.component) := by
  induction items generalizing u order with
  | nil =>
    have hend : Silent [.lit openMark] (u ++ ("</system>".toList ++ tail)) [] :=
      (hu _ (by rw [List.append_nil]; exact tame_end tail)).append
        ((silent_mark (by decide) (by decide) (by decide)).append
        (htail.silent (by decide) fun c hc => by cases hc))
    rw [List.filterMap_nil, List.map_nil, List.append_nil]
    exact parseFrom_none (breakOn_eq_none hend)
  | cons x items ih =>
    have hskip (hx : x.domain? = none) (howns : openMark ∉ x.owns) :
        parseFrom order (u ++ ((x :: items).flatMap Item.text ++ ("</system>".toList ++ tail))) =
          .ok (order ++ ((x :: items).filterMap Item.domain?).map DomainText.component) := by
      rw [List.filterMap_cons_none hx] at h ⊢
      rw [List.flatMap_cons, List.append_assoc, ← List.append_assoc]
      exact ih (fun t ht => (hu _ (x.tame ht)).append (Item.silent (by decide) howns ht)) h
    cases x with
    | blank w space => exact hskip rfl List.not_mem_nil
    | region u free first last => exact hskip rfl List.not_mem_nil
    | channel c names => exact hskip rfl (by simp only [Item.owns]; decide)
    | domain d =>
      have htext : u ++ ((Item.domain d :: items).flatMap Item.text ++ ("</system>".toList ++ tail)) =
          u ++ (openMark ++ (d.tag ++ (d.body ++ closeMark) ++
            (items.flatMap Item.text ++ ("</system>".toList ++ tail)))) := by
        rw [List.flatMap_cons, List.append_assoc]
        show u ++ (d.text ++ _) = _
        rw [d.text_eq, List.append_assoc]
      have hopen := breakOn_silent_append (hu _ (tame_mark (m := openMark) (by decide)
        (d.tag ++ (d.body ++ closeMark) ++
        (items.flatMap Item.text ++ ("</system>".toList ++ tail))))) (List.cons_ne_nil _ _)
      have hclose := breakOn_close d (items.flatMap Item.text ++ ("</system>".toList ++ tail))
      rw [d.text_eq, List.append_assoc] at hclose
      have hnew : d.name ∉ order.map Component.name := fun hmem =>
        (List.nodup_append.mp h).2.2 _ hmem _ List.mem_cons_self rfl
      have hname : componentName (openMark ++ (d.tag ++ d.body) ++ closeMark) = .ok d.name := by
        rw [← d.text_split]
        exact componentName_text d
      rw [htext, parseFrom_some hopen hclose hname hnew, ← d.text_split]
      have hrest : ((order ++ [d.component]).map Component.name ++
        (items.filterMap Item.domain?).map DomainText.name).Nodup := by
        rw [List.map_append, List.append_assoc]
        exact h
      have hih : parseFrom (order ++ [d.component])
        ([] ++ (items.flatMap Item.text ++ ("</system>".toList ++ tail))) = _ :=
        ih (fun _ _ => trivial) hrest
      rw [List.nil_append, List.append_assoc] at hih
      exact hih

theorem parse_template (t : Template) : ComponentSet.parse t.text =
    .ok (t.domains.map DomainText.component) :=
  parseFrom_items t.tail_free (fun _ ht => t.head_free.silent (by decide) ht) t.nodup

/-- The text of a domain is not at the head of the text of another one. -/
theorem not_prefix_text (h : d.name ≠ d'.name) : ¬ d.text <+: d'.text ++ t := by
  rintro ⟨t', ht⟩
  have hclose := breakOn_close d' t
  rw [← ht, breakOn_close d t'] at hclose
  have hsame : d.text = d'.text := by
    rw [d.text_split, d'.text_split, (Prod.mk.inj (Option.some.inj hclose)).1]
  have hname := componentName_text d
  rw [hsame, componentName_text d'] at hname
  exact h (Except.ok.inj hname).symm

/-- Before the element of a domain no place looks like it. -/
theorem silent_domain (hitems : ∀ x ∈ items, ∀ d', x.domain? = some d' → d'.name ≠ d.name) (ht : Tame t) :
    Silent [.lit d.text] (items.flatMap Item.text) t := by
  induction items with
  | nil => trivial
  | cons x items ih =>
    rw [List.flatMap_cons]
    refine Silent.append ?_ (ih fun y hy => hitems y (List.mem_cons_of_mem _ hy))
    have htame : Tame (items.flatMap Item.text ++ t) := tame_items ht
    cases x with
    | domain d' =>
      have hinner : Silent (.lit (openMark ++ (d.tag ++ (d.body ++ closeMark))) :: [])
        (openMark.tail ++ (d'.tag ++ (d'.body ++ closeMark)))
          (items.flatMap Item.text ++ t) :=
        (Silent.append (silent_of_no_tag (by decide) (by decide))
          (d'.silent_inner (by decide) (by decide) _)).extend
      have hhead := not_prefix_text (t := items.flatMap Item.text ++ t)
        (hitems _ List.mem_cons_self d' rfl).symm
      rw [← d.text_eq] at hinner
      show Silent _ d'.text _
      rw [d'.text_eq] at hhead ⊢
      exact ⟨matchAt_lit_none hhead, hinner⟩
    | blank w space =>
      rw [d.text_eq]
      exact (Item.silent (x := .blank w space) (by decide) List.not_mem_nil htame).extend
    | region u free first last =>
      rw [d.text_eq]
      exact (Item.silent (x := .region u free first last) (by decide) List.not_mem_nil htame).extend
    | channel c names =>
      rw [d.text_eq]
      exact (Item.silent (x := .channel c names) (by decide)
        (by simp only [Item.owns]; decide) htame).extend

/-- The items without the domains of some names. -/
def cutItems (names : List (List Char)) (items : List Item) : List Item :=
  items.filter fun x => !(x.domain?.any fun d => d.name ∈ names)

theorem breakOn_domain {head : List Char} (tail : List Char) (hhead : Free head)
    (hnodup : ((items.filterMap Item.domain?).map DomainText.name).Nodup)
    (hd : .domain d ∈ items) : ∃ before behind,
      breakOn d.text (doc head items tail) = some (before, behind) ∧
      before ++ behind = doc head (cutItems [d.name] items) tail := by
  obtain ⟨pre, post, rfl⟩ := List.append_of_mem hd
  have hsplit : ((pre ++ .domain d :: post).filterMap Item.domain?).map DomainText.name =
      (pre.filterMap Item.domain?).map DomainText.name ++ d.name ::
        (post.filterMap Item.domain?).map DomainText.name := by
    rw [List.filterMap_append, List.map_append]
    rfl
  rw [hsplit] at hnodup
  have hpre : ∀ x ∈ pre, ∀ d', x.domain? = some d' → d'.name ≠ d.name := fun x hx d' hd' heq =>
    (List.nodup_append.mp hnodup).2.2 _ (List.mem_map_of_mem
      (List.mem_filterMap.mpr ⟨x, hx, hd'⟩)) _ List.mem_cons_self heq
  have hpost : ∀ x ∈ post, ∀ d', x.domain? = some d' → d'.name ≠ d.name := fun x hx d' hd' heq =>
    (List.nodup_cons.mp (List.nodup_append.mp hnodup).2.1).1
      (heq ▸ List.mem_map_of_mem (List.mem_filterMap.mpr ⟨x, hx, hd'⟩))
  have hkeep {l : List Item} (h : ∀ x ∈ l, ∀ d', x.domain? = some d' →
    d'.name ≠ d.name) : cutItems [d.name] l = l := by
    refine List.filter_eq_self.mpr fun x hx => ?_
    cases hdom : x.domain? with
    | none => rfl
    | some d' => simpa using h x hx d' hdom
  have hcut : cutItems [d.name] (pre ++ .domain d :: post) = pre ++ post := by
    have hdrop : cutItems [d.name] (.domain d :: post) = cutItems [d.name] post := by
      rw [cutItems, List.filter_cons, if_neg (by simp [Item.domain?])]
      rfl
    rw [cutItems, List.filter_append]
    show cutItems [d.name] pre ++ cutItems [d.name] (.domain d :: post) = _
    rw [hdrop, hkeep hpre, hkeep hpost]
  have hsilent : Silent [.lit d.text] (head ++ pre.flatMap Item.text)
    (d.text ++ (post.flatMap Item.text ++ ("</system>".toList ++ tail))) := by
    have htame : Tame (d.text ++ (post.flatMap Item.text ++ ("</system>".toList ++ tail))) :=
      Item.tame (.domain d) (tame_items (tame_end tail))
    refine Silent.append ?_ (silent_domain hpre htame)
    rw [d.text_eq] at htame ⊢
    exact (hhead.silent (by decide) (tame_items htame)).extend
  refine ⟨head ++ pre.flatMap Item.text, post.flatMap Item.text ++ ("</system>".toList ++ tail), ?_, ?_⟩
  · have hdoc : doc head (pre ++ .domain d :: post) tail = (head ++ pre.flatMap Item.text) ++
        (d.text ++ (post.flatMap Item.text ++ ("</system>".toList ++ tail))) := by
      rw [doc, List.flatMap_append, List.flatMap_cons]
      show head ++ (pre.flatMap Item.text ++ (d.text ++ post.flatMap Item.text) ++ _) = _
      simp only [List.append_assoc]
    rw [hdoc]
    exact breakOn_silent_append hsilent (List.cons_ne_nil _ _)
  · rw [hcut, doc, List.flatMap_append]
    simp only [List.append_assoc]

theorem cutItems_cons (n : List Char) (names : List (List Char)) (items : List Item) :
    cutItems names (cutItems [n] items) = cutItems (n :: names) items := by
  rw [cutItems, cutItems, cutItems, List.filter_filter]
  refine List.filter_congr fun x _ => ?_
  cases x.domain? with
  | none => rfl
  | some d =>
    by_cases h : d.name = n
    · simp [h]
    · simp [h]

/-- The domains that are not kept are cut out, each with its whole element. -/
theorem dropComponents_items (keep : List Char → Bool) (ds : List DomainText) {head : List Char}
    (tail : List Char) (hhead : Free head)
    (hnames : (ds.map DomainText.name).Nodup) (hds : ∀ d ∈ ds, .domain d ∈ items)
    (hnodup : ((items.filterMap Item.domain?).map DomainText.name).Nodup) :
    dropComponents (fun c => keep c.name) (ds.map DomainText.component) (doc head items tail) =
      .ok (doc head (cutItems ((ds.filter fun d => !keep d.name).map DomainText.name) items) tail) := by
  induction ds generalizing items with
  | nil =>
    have hall : cutItems (([].filter fun d : DomainText => !keep d.name).map DomainText.name)
      items = items :=
      List.filter_eq_self.mpr fun x _ => by cases x.domain? <;> rfl
    rw [hall]
    rfl
  | cons d ds ih =>
    obtain ⟨hd, hrest⟩ := List.nodup_cons.mp hnames
    have hmem := fun d' hd' => hds d' (List.mem_cons_of_mem d hd')
    rw [List.map_cons, dropComponents]
    cases hkeep : keep d.name with
    | true =>
      rw [if_pos (by exact hkeep), ih hrest hmem hnodup, List.filter_cons, if_neg (by simp [hkeep])]
    | false =>
      obtain ⟨before, behind, hbreak, hdoc⟩ := breakOn_domain tail hhead hnodup (hds d List.mem_cons_self)
      have hstill : ∀ d' ∈ ds, .domain d' ∈ cutItems [d.name] items := fun d' hd' => by
        refine List.mem_filter.mpr ⟨hmem d' hd', ?_⟩
        have hne : d'.name ≠ d.name := fun h => hd (h ▸ List.mem_map_of_mem hd')
        simpa [Item.domain?] using hne
      have hsub : (((cutItems [d.name] items).filterMap Item.domain?).map DomainText.name).Nodup :=
        hnodup.sublist ((List.filter_sublist.filterMap _).map _)
      rw [if_neg (by simp; exact hkeep), show d.component.xml = d.text from rfl, hbreak]
      simp only
      rw [hdoc, ih hrest hstill hsub, cutItems_cons, List.filter_cons, if_pos (by simp [hkeep])]
      rfl

end components

/-! ### Channel blocks -/

/-- The items without the channels, and without the white space behind each. `after` tells that a
channel was just passed. -/
def stripItems : Bool → List Item → List Item
  | _, [] => []
  | _, .channel .. :: items => stripItems true items
  | after, .blank w space :: items => if after then stripItems true items
      else .blank w space :: stripItems false items
  | _, .region u free first last :: items => .region u free first last :: stripItems false items
  | _, .domain d :: items => .domain d :: stripItems false items

section blocks

variable {items : List Item} {head tail t u s : List Char} {keep : List Char → Bool}
  {channels : List ChannelSpec}

theorem matchAt_block {c : ChannelSpec} (names : ∀ e ∈ c.ends, '<' ∉ e.pd)
    (hu : ∀ c ∈ u, isWhitespace c = true)
    (ht : ∀ c ∈ t.head?, isWhitespace c = false) :
    matchAt channelBlock (("<channel>".toList ++ (c.body ++ ("</channel>".toList ++ u))) ++ t) =
      some ([], t) := by
  have hclose : matchAt [.lit "</channel>".toList, .run isWhitespace 0 true false]
    ("</channel>".toList ++ (u ++ t)) = some ([], t) := by
    rw [matchAt_lit]
    exact matchAt_last hu ht
  have hsilent : Silent [.lit "</channel>".toList, .run isWhitespace 0 true false] c.body
    ("</channel>".toList ++ (u ++ t)) :=
    c.silent_body (x := '/') (s := "channel>".toList) (by decide) names _
  rw [List.append_assoc, List.append_assoc, List.append_assoc, channelBlock, matchAt_lit,
    matchAt_lazy (fun _ _ => rfl) hsilent hclose]
  rfl

/-- The blocks are taken out of the text of the items as the channels are out of the items. -/
theorem removeAll_items (htail : Free tail) (items : List Item) :
    removeAll channelBlock (items.flatMap Item.text ++ ("</system>".toList ++ tail)) =
        (stripItems false items).flatMap Item.text ++ ("</system>".toList ++ tail) ∧
      removeAll channelBlock ((items.flatMap Item.text ++
        ("</system>".toList ++ tail)).dropWhile isWhitespace) =
        (stripItems true items).flatMap Item.text ++ ("</system>".toList ++ tail) := by
  induction items with
  | nil =>
    have hend : removeAll channelBlock ("</system>".toList ++ tail) = "</system>".toList ++ tail := by
      have hsilent : Silent channelBlock ("</system>".toList ++ tail) [] :=
        (silent_mark (by decide) (by decide) (by decide)).append
          (htail.silent (by decide) fun c hc => by cases hc)
      have hremove := removeAll_of_silent hsilent
      rw [List.append_nil] at hremove
      rw [hremove]
      exact List.append_nil _
    exact ⟨hend, hend⟩
  | cons x items ih =>
    obtain ⟨hfalse, htrue⟩ := ih
    have htame : Tame (items.flatMap Item.text ++ ("</system>".toList ++ tail)) :=
      tame_items (tame_end tail)
    rw [List.flatMap_cons, List.append_assoc]
    generalize htext : items.flatMap Item.text ++ ("</system>".toList ++ tail) = rest at *
    have hkeep (howns : "<channel>".toList ∉ x.owns) : removeAll channelBlock (x.text ++ rest) =
        x.text ++ ((stripItems false items).flatMap Item.text ++ ("</system>".toList ++ tail)) := by
      have hsilent : Silent channelBlock x.text rest := Item.silent (by decide) howns htame
      rw [removeAll_of_silent hsilent, hfalse]
    cases x with
    | blank w space =>
      constructor
      · rw [hkeep List.not_mem_nil, ← List.append_assoc]
        rfl
      · show removeAll channelBlock ((w ++ rest).dropWhile isWhitespace) = _
        rw [List.dropWhile_append_of_pos space, htrue]
        rfl
    | region u free first last =>
      have hstop : ((Item.region u free first last).text ++ rest).dropWhile isWhitespace =
        (Item.region u free first last).text ++ rest := by
        obtain ⟨u', rfl⟩ := List.head?_eq_some_iff.mp first
        rfl
      rw [hstop, hkeep List.not_mem_nil, ← List.append_assoc]
      exact ⟨rfl, rfl⟩
    | domain d =>
      have hstop : ((Item.domain d).text ++ rest).dropWhile isWhitespace = (Item.domain d).text ++
        rest := rfl
      rw [hstop, hkeep (by simp only [Item.owns]; decide), ← List.append_assoc]
      exact ⟨rfl, rfl⟩
    | channel c names =>
      have hstop : ((Item.channel c names).text ++ rest).dropWhile isWhitespace =
        (Item.channel c names).text ++ rest := rfl
      have hblock : removeAll channelBlock ((Item.channel c names).text ++ rest) =
          (stripItems true items).flatMap Item.text ++ ("</system>".toList ++ tail) := by
        have hcut : (Item.channel c names).text ++ rest =
          ("<channel>".toList ++ (c.body ++ ("</channel>".toList ++
            rest.takeWhile isWhitespace))) ++ rest.dropWhile isWhitespace := by
          show ("<channel>".toList ++ (c.body ++ "</channel>".toList)) ++ rest = _
          simp only [List.append_assoc, List.takeWhile_append_dropWhile]
        have hstop' : ∀ c ∈ (rest.dropWhile isWhitespace).head?, isWhitespace c = false := by
          intro c hc
          have hhead := List.head?_dropWhile_not isWhitespace rest
          rw [Option.mem_def.mp hc] at hhead
          exact hhead
        have hmatch := matchAt_block (u := rest.takeWhile isWhitespace) names
          (fun c hc => List.mem_takeWhile_imp hc) hstop'
        rw [hcut, removeAll_of_match hmatch (List.cons_ne_nil _ _), htrue]
      rw [hstop, hblock]
      exact ⟨rfl, rfl⟩

theorem strip_doc (hhead : Free head) (htail : Free tail) (items : List Item) :
    stripChannelBlocks (doc head items tail) = doc head (stripItems false items) tail := by
  have hsilent : Silent channelBlock head (items.flatMap Item.text ++ ("</system>".toList ++ tail)) :=
    hhead.silent (by decide) (tame_items (tame_end tail))
  rw [stripChannelBlocks, doc, removeAll_of_silent hsilent, (removeAll_items htail items).1]
  rfl

theorem rfind_of_silent (h : Silent [.lit s] u []) : rfind s u = none := by
  induction u with
  | nil => rfl
  | cons c u ih =>
    have hno : ¬ s.isPrefixOf (c :: u) = true := by
      have hfront := not_prefix_of_matchAt h.1
      rwa [List.append_nil, ← List.isPrefixOf_iff_prefix] at hfront
    rw [rfind, ih h.2]
    simp only
    rw [if_neg hno]

theorem rfind_append {before : List Char} (u : List Char) (h : rfind s t = some before) :
    rfind s (u ++ t) = some (u ++ before) := by
  induction u with
  | nil => exact h
  | cons c u ih =>
    rw [List.cons_append, rfind, ih]
    rfl

theorem rfind_doc (htail : Free tail) : rfind "</system>".toList (doc head items tail) =
    some (head ++ items.flatMap Item.text) := by
  have hrest : rfind "</system>".toList ("/system>".toList ++ tail) = none := by
    have hsilent : Silent [.lit "</system>".toList] ("/system>".toList ++ tail) [] :=
      (silent_of_no_tag (by decide) (by decide)).append (htail.silent (by decide) fun c hc => by cases hc)
    exact rfind_of_silent hsilent
  have hend : rfind "</system>".toList ("</system>".toList ++ tail) = some [] := by
    show rfind "</system>".toList ('<' :: ("/system>".toList ++ tail)) = some []
    have hfront : "</system>".toList.isPrefixOf ('<' :: ("/system>".toList ++ tail)) = true :=
      List.isPrefixOf_iff_prefix.mpr (List.prefix_append "</system>".toList tail)
    rw [rfind, hrest]
    simp only
    rw [if_pos hfront]
  rw [doc, ← List.append_assoc, rfind_append _ hend, List.append_nil]

theorem trimEnd_append_space (hu : ∀ c ∈ u, isWhitespace c = true) (t : List Char) :
    trimEnd (t ++ u) = trimEnd t := by
  rw [trimEnd, trimEnd, List.rdropWhile, List.rdropWhile, List.reverse_append,
    List.dropWhile_append_of_pos fun c hc => hu c (List.mem_reverse.mp hc)]

theorem Item.text_last {x : Item} (h : x.isBlank = false) : ∃ u, x.text = u ++ ['>'] := by
  cases x with
  | blank w space => cases h
  | region u free first last =>
    obtain ⟨u', hu⟩ := List.getLast?_eq_some_iff.mp last
    exact ⟨u', hu⟩
  | domain d => exact ⟨openMark ++ (d.tag ++ (d.body ++ "</protection_domain".toList)), by
      show d.text = _
      rw [d.text_eq]
      simp only [List.append_assoc]
      rfl⟩
  | channel c names => exact ⟨"<channel>".toList ++ (c.body ++ "</channel".toList), by
      show "<channel>".toList ++ (c.body ++ "</channel>".toList) = _
      simp only [List.append_assoc]
      rfl⟩

/-- The white space before the end goes with the blank items before the end. -/
theorem trimEnd_items (hhead : ∀ c ∈ head.getLast?, isWhitespace c = false) (items : List Item) :
    trimEnd (head ++ items.flatMap Item.text) =
      head ++ (items.rdropWhile Item.isBlank).flatMap Item.text := by
  induction items using List.reverseRecOn with
  | nil =>
    rw [List.flatMap_nil, List.append_nil, List.rdropWhile_nil, List.flatMap_nil, List.append_nil, trimEnd,
      List.rdropWhile_eq_self_iff]
    intro hne
    rw [hhead _ (List.getLast?_eq_getLast_of_ne_nil hne)]
    decide
  | append_singleton items x ih =>
    rw [List.flatMap_append, List.flatMap_singleton, ← List.append_assoc]
    cases hx : x.isBlank with
    | true =>
      rw [List.rdropWhile_concat_pos _ _ _ hx, ← ih]
      cases x with
      | blank w space => exact trimEnd_append_space space _
      | region u free first last => cases hx
      | domain d => cases hx
      | channel c names => cases hx
    | false =>
      obtain ⟨u, hu⟩ := Item.text_last hx
      rw [List.rdropWhile_concat_neg _ _ _ (by rw [hx]; decide), hu, ← List.append_assoc, trimEnd,
        List.rdropWhile_concat_neg _ _ _ (by decide), List.flatMap_append, List.flatMap_singleton, hu]
      simp only [List.append_assoc]

theorem filter_rdropWhile (keep : List Char → Bool) (items : List Item) :
    (items.rdropWhile Item.isBlank).filter (Item.isKept keep) = items.filter (Item.isKept keep) ∧
    (items.rdropWhile Item.isBlank).filterMap Item.channel? = items.filterMap Item.channel? := by
  induction items using List.reverseRecOn with
  | nil => exact ⟨rfl, rfl⟩
  | append_singleton items x ih =>
    cases hx : x.isBlank with
    | true =>
      rw [List.rdropWhile_concat_pos _ _ _ hx, List.filter_append, List.filterMap_append, ih.1, ih.2]
      cases x with
      | blank w space => exact ⟨(List.append_nil _).symm, (List.append_nil _).symm⟩
      | region u free first last => cases hx
      | domain d => cases hx
      | channel c names => cases hx
    | false =>
      rw [List.rdropWhile_concat_neg _ _ _ (by rw [hx]; decide)]
      exact ⟨rfl, rfl⟩

theorem filter_stripItems (keep : List Char → Bool) (after : Bool) (items : List Item) :
    (stripItems after items).filter (Item.isKept keep) = items.filter (Item.isKept keep) ∧
      (stripItems after items).filterMap Item.channel? = [] := by
  fun_induction stripItems after items with
  | case1 => exact ⟨rfl, rfl⟩
  | case2 after c names items ih => exact ih
  | case3 w space items ih => exact ih
  | case4 after w space items h ih => exact ih
  | case5 after u free first last items ih => exact ⟨congrArg (List.cons _) ih.1, ih.2⟩
  | case6 after d items ih =>
    refine ⟨?_, ih.2⟩
    rw [List.filter_cons, List.filter_cons, ih.1]

theorem renderChannelsXml_cons (c c' : ChannelSpec) (channels : List ChannelSpec) :
    renderChannelsXml (c :: c' :: channels) =
      c.toXml ++ (['\n'] ++ renderChannelsXml (c' :: channels)) := by
  show List.intercalate ['\n'] (c.toXml :: c'.toXml :: channels.map ChannelSpec.toXml) = _
  rw [List.intercalate_cons_cons, List.append_assoc]
  rfl

/-- The rendered channels are blocks with white space between them. -/
theorem render_items (keep : List Char → Bool) (h : ∀ c ∈ channels, ∀ e ∈ c.ends, '<' ∉ e.pd) :
    ∃ items : List Item,
    items.flatMap Item.text = renderChannelsXml channels ∧ items.filterMap Item.channel? = channels ∧
      items.filter (Item.isKept keep) = [] := by
  induction channels with
  | nil => exact ⟨[], rfl, rfl, rfl⟩
  | cons c channels ih =>
    obtain ⟨items, htext, hchannels, hkept⟩ := ih fun c' hc' => h c' (List.mem_cons_of_mem _ hc')
    let block : List Item := [.blank "    ".toList (by decide), .channel c (h c List.mem_cons_self),
      .blank ['\n'] (by decide)]
    have hblock : block.flatMap Item.text = c.toXml := by
      have hxml := c.toXml_append []
      rw [List.append_nil] at hxml
      rw [hxml]
      show "    ".toList ++ (("<channel>".toList ++ (c.body ++ "</channel>".toList)) ++ ['\n']) = _
      simp only [List.append_assoc]
    cases channels with
    | nil =>
      exact ⟨block,
      by rw [hblock, renderChannelsXml, List.map_singleton, List.intercalate_singleton], rfl, rfl⟩
    | cons c' channels =>
      refine ⟨block ++ .blank ['\n'] (by decide) :: items, ?_, ?_, ?_⟩
      · rw [List.flatMap_append, hblock, List.flatMap_cons, htext, renderChannelsXml_cons]
        rfl
      · rw [List.filterMap_append]
        show c :: items.filterMap Item.channel? = _
        rw [hchannels]
      · rw [List.filter_append]
        exact hkept

end blocks

/-! ### The output -/

/-- What the output is to be: the regions of the template and its kept domains with their text, the
channels of the profile (or those of the template), and no end that names a domain that is not
there. -/
structure Faithful (t : Template) (keep : List Char → Bool) (channels : List ChannelSpec)
    (items : List Item) : Prop where
  kept : items.filter (Item.isKept fun _ => true) = t.items.filter (Item.isKept keep)
  channels : items.filterMap Item.channel? = if channels = [] then t.channels else channels
  ends : ∀ c ∈ items.filterMap Item.channel?, ∀ e ∈ c.ends, ∃ d, Item.domain d ∈ items ∧ d.name = e.pd

/-- A domain stays unless it is optional and not selected. -/
def keepName (pds optional : List (List Char)) (name : List Char) : Bool :=
  name ∉ optional || name ∈ pds.map toSdfPdName

/-- The composition of a system, whenever it succeeds, is what it is to be. -/
def Composes (t : Template) (pds : List (List Char)) (channels : List ChannelSpec)
    (optional : List (List Char)) : Prop :=
  ∀ set selected out, ComponentSet.parse t.text = .ok set →
    selectComponents set pds channels = .ok selected →
    composeSystem t.text set selected optional channels = .ok out →
    ∃ items tail, out = doc t.head items tail ∧ Faithful t (keepName pds optional) channels items

/-- Everything resolves and the channels are valid. -/
structure Accepted (t : Template) (pds : List (List Char)) (channels : List ChannelSpec) : Prop where
  pds : ∀ pd ∈ pds, toSdfPdName pd ∈ t.domains.map DomainText.name
  ends : ∀ c ∈ channels, ∀ e ∈ c.ends, toSdfPdName e.pd ∈ t.domains.map DomainText.name
  valid : channels ≠ [] → (validateChannels channels []).ok = true

section compose

variable {t : Template} {pds optional : List (List Char)} {channels : List ChannelSpec}
  {set selected : List Component}
  {out pd : List Char} {items : List Item} {keep : List Char → Bool}

theorem resolve_isSome : (resolve (t.domains.map DomainText.component) pd).isSome ↔
    toSdfPdName pd ∈ t.domains.map DomainText.name := by
  rw [resolve, List.find?_isSome]
  simp only [List.mem_map, decide_eq_true_eq]
  constructor
  · rintro ⟨_, ⟨d, hd, rfl⟩, hname⟩
    exact ⟨d, hd, hname⟩
  · rintro ⟨d, hd, hname⟩
    exact ⟨_, ⟨d, hd, rfl⟩, hname⟩

theorem resolve_name {c : Component} (h : resolve set pd = some c) : c.name = toSdfPdName pd := by
  simpa using List.find?_some h

/-- The selection succeeds where everything resolves, and selects the domains of the profile. -/
theorem selectComponents_ok : selectComponents (t.domains.map DomainText.component) pds channels =
    .ok selected ↔
    ((∀ pd ∈ pds, toSdfPdName pd ∈ t.domains.map DomainText.name) ∧
      ∀ c ∈ channels, ∀ e ∈ c.ends, toSdfPdName e.pd ∈ t.domains.map DomainText.name) ∧
      selected = (t.domains.map DomainText.component).filter
        (·.name ∈ (pds.filterMap (resolve (t.domains.map DomainText.component))).map Component.name) := by
  have hnone : (pds ++ (channels.flatMap ChannelSpec.ends).map ChannelEnd.pd).find?
      (fun pd => (resolve (t.domains.map DomainText.component) pd).isNone) = none ↔
      (∀ pd ∈ pds, toSdfPdName pd ∈ t.domains.map DomainText.name) ∧
        ∀ c ∈ channels, ∀ e ∈ c.ends, toSdfPdName e.pd ∈ t.domains.map DomainText.name := by
    rw [List.find?_eq_none]
    have hresolve (pd : List Char) : (¬ (resolve (t.domains.map DomainText.component) pd).isNone = true) ↔
        toSdfPdName pd ∈ t.domains.map DomainText.name := by
      rw [← resolve_isSome, ← Option.not_isSome, Bool.not_eq_true', Bool.not_eq_false]
    simp only [hresolve, List.mem_append, List.mem_map, List.mem_flatMap]
    constructor
    · intro h
      exact ⟨fun pd hpd => h pd (.inl hpd), fun c hc e he => h e.pd (.inr ⟨e, ⟨c, hc, he⟩, rfl⟩)⟩
    · rintro ⟨hpds, hends⟩ pd (hpd | ⟨e, ⟨c, hc, he⟩, rfl⟩)
      · exact hpds pd hpd
      · exact hends c hc e he
  rw [← hnone, selectComponents]
  constructor
  · intro h
    split at h
    · cases h
    · next hfind => exact ⟨hfind, (Except.ok.inj h).symm⟩
  · rintro ⟨hfind, rfl⟩
    rw [hfind]

theorem mem_selected {name : List Char} (hpds : ∀ pd ∈ pds, toSdfPdName pd ∈ t.domains.map DomainText.name)
    (hname : name ∈ t.domains.map DomainText.name) :
    name ∈ ((t.domains.map DomainText.component).filter
      (·.name ∈ (pds.filterMap (resolve (t.domains.map DomainText.component))).map
        Component.name)).map Component.name ↔
      name ∈ pds.map toSdfPdName := by
  have hnames : name ∈ (pds.filterMap (resolve (t.domains.map DomainText.component))).map Component.name ↔
      name ∈ pds.map toSdfPdName := by
    simp only [List.mem_map, List.mem_filterMap]
    constructor
    · rintro ⟨c, ⟨pd, hpd, hc⟩, rfl⟩
      exact ⟨pd, hpd, (resolve_name hc).symm⟩
    · rintro ⟨pd, hpd, rfl⟩
      obtain ⟨c, hc⟩ := Option.isSome_iff_exists.mp ((resolve_isSome).mpr (hpds pd hpd))
      exact ⟨c, ⟨pd, hpd, hc⟩, resolve_name hc⟩
  rw [← hnames, List.mem_map]
  constructor
  · rintro ⟨c, hc, rfl⟩
    exact of_decide_eq_true (List.mem_filter.mp hc).2
  · intro h
    obtain ⟨d, hd, rfl⟩ := List.mem_map.mp hname
    exact ⟨d.component, List.mem_filter.mpr ⟨List.mem_map_of_mem hd, decide_eq_true h⟩, rfl⟩

/-- Cutting out what is not kept leaves the rest of the items as they are. -/
theorem cutItems_eq : cutItems ((t.domains.filter fun d => !keep d.name).map DomainText.name) t.items =
    t.items.filter fun x => x.domain?.all fun d => keep d.name := by
  refine List.filter_congr fun x hx => ?_
  cases hdom : x.domain? with
  | none => rfl
  | some d =>
    have hd : d ∈ t.domains := List.mem_filterMap.mpr ⟨x, hx, hdom⟩
    have hmem : d.name ∈ (t.domains.filter fun d => !keep d.name).map DomainText.name ↔
      keep d.name = false := by
      rw [List.mem_map]
      constructor
      · rintro ⟨d', hd', hname⟩
        simpa [hname] using (List.mem_filter.mp hd').2
      · exact fun h => ⟨d, List.mem_filter.mpr ⟨hd, by rw [h]; rfl⟩, rfl⟩
    cases hkeep : keep d.name <;> simp [hmem, hkeep]

theorem filter_cut : (t.items.filter fun x => x.domain?.all fun d => keep d.name).filter
    (Item.isKept fun _ => true) =
    t.items.filter (Item.isKept keep) := by
  rw [List.filter_filter]
  refine List.filter_congr fun x _ => ?_
  cases x with
  | blank w space => rfl
  | region u free first last => rfl
  | domain d => rfl
  | channel c names => rfl

theorem channels_cut : (t.items.filter fun x => x.domain?.all fun d =>
    keep d.name).filterMap Item.channel? = t.channels := by
  rw [List.filterMap_filter]
  refine List.filterMap_congr fun x _ => ?_
  cases x with
  | blank w space => rfl
  | region u free first last => rfl
  | domain d => exact ite_self none
  | channel c names => rfl

theorem replaceChannels_ok {xml before : List Char} {known : List (List Char)} (hne : channels ≠ [])
    (hknown : ∀ c ∈ channels, ∀ e ∈ c.ends, toSdfPdName e.pd ∈ known.map toSdfPdName)
    (hbefore : rfind "</system>".toList (stripChannelBlocks xml) = some before) :
    replaceChannelsInSystem xml channels known = .ok out ↔ (validateChannels channels []).ok = true ∧
      out = trimEnd before ++ "\n\n".toList ++ renderChannelsXml channels ++ "</system>\n".toList := by
  have hfind : (channels.flatMap ChannelSpec.ends).find?
    (fun e => toSdfPdName e.pd ∉ known.map toSdfPdName) = none := by
    rw [List.find?_eq_none]
    intro e he
    obtain ⟨c, hc, he⟩ := List.mem_flatMap.mp he
    simpa using hknown c hc e he
  rw [replaceChannelsInSystem, if_neg hne, ensureChannelsValid, hfind, hbefore]
  by_cases hvalid : (validateChannels channels []).ok = true
  · rw [if_pos hvalid]
    constructor
    · intro h
      exact ⟨hvalid, (Except.ok.inj h).symm⟩
    · rintro ⟨-, rfl⟩
      rfl
  · rw [if_neg hvalid]
    constructor
    · intro h
      cases h
    · exact fun h => absurd h.1 hvalid

/-- The items that are not cut out. -/
def Template.keptItems (t : Template) (keep : List Char → Bool) : List Item :=
  t.items.filter fun x => x.domain?.all fun d => keep d.name

theorem dropComponents_kept (hselected : selectComponents
    (t.domains.map DomainText.component) pds channels = .ok selected) :
    dropComponents (fun c => c.name ∉ optional || c.name ∈ selected.map Component.name)
      (t.domains.map DomainText.component) t.text =
      .ok (doc t.head (t.keptItems (keepName pds optional)) t.tail) := by
  obtain ⟨⟨hpds, -⟩, rfl⟩ := (selectComponents_ok).mp hselected
  have hmem : ∀ d ∈ t.domains, Item.domain d ∈ t.items := by
    intro d hd
    obtain ⟨x, hx, hdom⟩ := List.mem_filterMap.mp hd
    cases x with
    | domain d' =>
      cases hdom
      exact hx
    | blank w space => cases hdom
    | region u free first last => cases hdom
    | channel c names => cases hdom
  have hdrop (keep : List Char → Bool) : dropComponents (fun c => keep c.name)
    (t.domains.map DomainText.component) t.text =
      .ok (doc t.head (t.keptItems keep) t.tail) := by
    have hcut := dropComponents_items keep t.domains t.tail t.head_free t.nodup hmem t.nodup
    rwa [cutItems_eq] at hcut
  refine (hdrop fun n => n ∉ optional || decide (n ∈ _)).trans
    (congrArg (fun items => Except.ok (doc t.head items t.tail))
    (List.filter_congr fun x hx => ?_))
  cases hdom : x.domain? with
  | none => rfl
  | some d =>
    have hname : d.name ∈ t.domains.map DomainText.name :=
      List.mem_map_of_mem (List.mem_filterMap.mpr ⟨x, hx, hdom⟩)
    show (decide (d.name ∉ optional) || decide _) = (decide (d.name ∉ optional) || decide _)
    rw [decide_eq_decide.mpr (mem_selected hpds hname)]

/-- What a composition with channels comes to. -/
theorem composeSystem_channels (hne : channels ≠ [])
    (hselected : selectComponents (t.domains.map DomainText.component) pds channels = .ok selected) :
    composeSystem t.text (t.domains.map DomainText.component) selected optional channels = .ok out ↔
      (validateChannels channels []).ok = true ∧
        out = trimEnd (t.head ++ (stripItems false (t.keptItems (keepName pds optional))).flatMap
          Item.text) ++ "\n\n".toList ++
          renderChannelsXml channels ++ "</system>\n".toList := by
  have hends := ((selectComponents_ok).mp hselected).1.2
  have hknown : ∀ c ∈ channels, ∀ e ∈ c.ends,
      toSdfPdName e.pd ∈ ((t.domains.map DomainText.component).map Component.name).map toSdfPdName := by
    intro c hc e he
    have hsame : toSdfPdName (toSdfPdName e.pd) = toSdfPdName e.pd := by
      rw [toSdfPdName, toSdfPdName, List.map_map]
      refine List.map_congr_left fun x _ => ?_
      show (if (if x = '-' then '_' else x) = '-' then '_' else if x = '-' then '_' else x) = if x =
        '-' then '_' else x
      split
      · rfl
      · rfl
    refine List.mem_map.mpr ⟨_, ?_, hsame⟩
    rw [List.map_map]
    exact hends c hc e he
  have hrfind : rfind "</system>".toList (stripChannelBlocks
    (doc t.head (t.keptItems (keepName pds optional)) t.tail)) =
      some (t.head ++ (stripItems false (t.keptItems (keepName pds optional))).flatMap Item.text) := by
    rw [strip_doc t.head_free t.tail_free, rfind_doc t.tail_free]
  rw [composeSystem, dropComponents_kept hselected]
  simp only
  rw [if_neg hne, ← replaceChannels_ok hne hknown hrfind]
  cases replaceChannelsInSystem (doc t.head (t.keptItems (keepName pds optional)) t.tail) channels
      ((t.domains.map DomainText.component).map Component.name) with
  | ok a =>
    constructor
    · intro h
      rw [Except.ok.inj h]
    · intro h
      rw [Except.ok.inj h]
  | error e =>
    constructor
    · intro h
      cases h
    · intro h
      cases h

theorem names_no_tag (hends : ∀ c ∈ channels, ∀ e ∈ c.ends, toSdfPdName e.pd ∈
    t.domains.map DomainText.name) :
    ∀ c ∈ channels, ∀ e ∈ c.ends, '<' ∉ e.pd := by
  intro c hc e he hmem
  obtain ⟨d, -, hname⟩ := List.mem_map.mp (hends c hc e he)
  apply (d.tag_chars '<' (by decide)).2.1
  rw [hname]
  exact List.mem_map.mpr ⟨'<', hmem, rfl⟩

/-- A composition that succeeds puts out the kept items of the template with the channels of the profile. -/
theorem composeSystem_doc (hselected : selectComponents
    (t.domains.map DomainText.component) pds channels = .ok selected)
    (hout : composeSystem t.text (t.domains.map DomainText.component) selected optional channels =
      .ok out) :
    ∃ items tail, out = doc t.head items tail ∧
      items.filter (Item.isKept fun _ => true) = t.items.filter (Item.isKept (keepName pds optional)) ∧
      items.filterMap Item.channel? = if channels = [] then t.channels else channels := by
  by_cases hne : channels = []
  · rw [composeSystem, dropComponents_kept hselected] at hout
    simp only [if_pos hne] at hout
    exact ⟨t.keptItems (keepName pds optional), t.tail, (Except.ok.inj hout).symm, filter_cut,
      by rw [if_pos hne]; exact channels_cut⟩
  · obtain ⟨-, rfl⟩ := (composeSystem_channels hne hselected).mp hout
    obtain ⟨blocks, htext, hchannels, hkept⟩ :=
      render_items (fun _ => true) (names_no_tag ((selectComponents_ok).mp hselected).1.2)
    refine ⟨(stripItems false (t.keptItems (keepName pds optional))).rdropWhile Item.isBlank ++
      .blank "\n\n".toList (by decide) :: blocks, ['\n'], ?_, ?_, ?_⟩
    · rw [trimEnd_items t.head_last, doc, List.flatMap_append, List.flatMap_cons, htext]
      show _ = t.head ++ ((_ ++ ("\n\n".toList ++ renderChannelsXml channels)) ++ "</system>\n".toList)
      simp only [List.append_assoc]
    · rw [List.filter_append, (filter_rdropWhile _ _).1, (filter_stripItems _ _ _).1,
        Template.keptItems, filter_cut]
      show _ ++ blocks.filter _ = _
      rw [hkept, List.append_nil]
    · rw [List.filterMap_append, (filter_rdropWhile (fun _ => true) _).2,
        (filter_stripItems (fun _ => true) _ _).2, if_neg hne]
      show [] ++ blocks.filterMap _ = _
      rw [hchannels, List.nil_append]

/-- A domain that is kept is in the output, and no other. -/
theorem mem_output {d : DomainText} (h : items.filter (Item.isKept fun _ => true) =
    t.items.filter (Item.isKept keep)) :
    Item.domain d ∈ items ↔ d ∈ t.domains ∧ keep d.name = true := by
  have hleft : Item.domain d ∈ items ↔ Item.domain d ∈ items.filter (Item.isKept fun _ => true) := by
    rw [List.mem_filter]
    exact ⟨fun h => ⟨h, rfl⟩, fun h => h.1⟩
  rw [hleft, h, List.mem_filter]
  refine and_congr_left fun _ => ?_
  rw [Template.domains, List.mem_filterMap]
  constructor
  · exact fun h => ⟨_, h, rfl⟩
  · rintro ⟨x, hx, hdom⟩
    cases x with
    | domain d' =>
      cases hdom
      exact hx
    | blank w space => cases hdom
    | region u free first last => cases hdom
    | channel c names => cases hdom

end compose

/-- Of what is composed rightly the ends are names of kept domains. -/
theorem Composes.ends_kept {t : Template} {pds optional : List (List Char)} {channels : List ChannelSpec}
    (h : Composes t pds channels optional) (haccepted : Accepted t pds channels) :
    ∀ c ∈ (if channels = [] then t.channels else channels), ∀ e ∈ c.ends,
      ∃ d ∈ t.domains, keepName pds optional d.name = true ∧ d.name = e.pd := by
  have hselected : selectComponents (t.domains.map DomainText.component) pds channels = .ok _ :=
    (selectComponents_ok).mpr ⟨⟨haccepted.pds, haccepted.ends⟩, rfl⟩
  obtain ⟨out, hout⟩ : ∃ out, composeSystem t.text
    (t.domains.map DomainText.component) _ optional channels = .ok out := by
    by_cases hne : channels = []
    · refine ⟨doc t.head (t.keptItems (keepName pds optional)) t.tail, ?_⟩
      rw [composeSystem, dropComponents_kept hselected]
      simp only [if_pos hne]
    · exact ⟨_, (composeSystem_channels hne hselected).mpr ⟨haccepted.valid hne, rfl⟩⟩
  obtain ⟨items, tail, -, hfaithful⟩ := h _ _ _ (parse_template t) hselected hout
  intro c hc e he
  rw [← hfaithful.channels] at hc
  obtain ⟨d, hd, hname⟩ := hfaithful.ends c hc e he
  obtain ⟨hmem, hkeep⟩ := (mem_output hfaithful.kept).mp hd
  exact ⟨d, hmem, hkeep, hname⟩

/-- A template of two domains. -/
def twoDomains : Template where
  head := "<system>".toList
  items :=
    [.domain ⟨" ".toList, "serial_driver".toList, [], [],
      by decide, by decide, by decide, by decide, by decide, by decide⟩,
      .domain ⟨" ".toList, "hello".toList, [], [],
        by decide, by decide, by decide, by decide, by decide, by decide⟩]
  tail := []
  head_free := by decide
  head_last := by decide
  tail_free := by decide
  nodup := by decide

def hyphenated : List ChannelSpec := [⟨none,
    [⟨"serial-driver".toList, 1, false⟩, ⟨"hello".toList, 0, true⟩]⟩]

end Lerux.Cli
