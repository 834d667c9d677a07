import Lerux.Web.Css
import Lerux.Html.WellFormed

/-!
# The cascade

`style.rs` gives an element its style: the rules of the user agent, the rules of the page and the
`style` attribute are applied one after the other to what the element inherits. A rule makes its
lengths pixels when it is applied, and the page's rules come from one text, the texts of all `style`
elements joined (`compute`). What the style should be is read off the declarations alone: of each
property the last one counts, and the lengths are those of the final font size (`cascaded`).
-/

namespace Lerux.Web

open Lerux.Html (Builder Document TagName parse tokenize)

/-- The last of what a list reads as. -/
def last {α β : Type} (read : α → Option β) (l : List α) : Option β := (l.filterMap read).getLast?

section last

variable {α β τ : Type} {read : α → Option β}

theorem last_append (l l' : List α) : last read (l ++ l') = (last read l').or (last read l) := by
  rw [last, List.filterMap_append, List.getLast?_append]
  rfl

theorem last_cons (a : α) (l : List α) : last read (a :: l) = (last read l).or (read a) := by
  rw [← List.singleton_append, last_append]
  congr 1
  rw [last, List.filterMap_cons]
  cases read a <;> rfl

theorem last_map (f : τ → α) (l : List τ) : last read (l.map f) = last (fun x => read (f x)) l := by
  rw [last, List.filterMap_map]
  rfl

end last

/-! ### Styles -/

structure Edges where
  top : Int
  right : Int
  bottom : Int
  left : Int
deriving DecidableEq, Repr

namespace Edges

def zero : Edges := ⟨0, 0, 0, 0⟩

def fromPx : List Int → Edges
  | [a] => ⟨a, a, a, a⟩
  | [a, b] => ⟨a, b, a, b⟩
  | [a, b, c] => ⟨a, b, c, b⟩
  | [a, b, c, d] => ⟨a, b, c, d⟩
  | _ => zero

end Edges

/-- The product of two numbers of 32 bits, which stays at the bound it passes. -/
def saturatingMul (a b : Int) : Int := max (-2 ^ 31) (min (2 ^ 31 - 1) (a * b))

def Length.toPx (emBase : Int) : Length → Int
  | px v => v
  | em v => saturatingMul v emBase

structure ComputedStyle where
  display : DisplayKind
  color : Nat
  background : Option Nat
  fontSize : Int
  margin : Edges
  padding : Edges
  width : Option Int
deriving DecidableEq, Repr

def ComputedStyle.initial : ComputedStyle := ⟨.block, 0, none, 16, .zero, .zero, none⟩

/-- What an element has before the rules: colour and font size of its parent. -/
def ComputedStyle.inherited (parent : ComputedStyle) : ComputedStyle :=
  ⟨.block, parent.color, none, parent.fontSize, .zero, .zero, none⟩

def applyFontSize (parentFont : Int) (style : ComputedStyle) (decl : Decl) : ComputedStyle :=
  match decl.prop, decl.value with
  | .fontSize, .lengths (len :: _) => { style with fontSize := max (len.toPx parentFont) 1 }
  | _, _ => style

def applyDecl (em : Int) (style : ComputedStyle) (decl : Decl) : ComputedStyle :=
  match decl.prop, decl.value with
  | .color, .color c => { style with color := c }
  | .backgroundColor, .color c => { style with background := some c }
  | .display, .display d => { style with display := d }
  | .width, .widthAuto => { style with width := none }
  | .width, .lengths (len :: _) => { style with width := some (max (len.toPx em) 0) }
  | .margin, .lengths v => { style with margin := .fromPx (v.map (Length.toPx em)) }
  | .padding, .lengths v => { style with padding := .fromPx (v.map (Length.toPx em)) }
  | _, _ => style

/-- The declarations of one rule: the font sizes first, and then all others at the font size they leave. -/
def applyDecls (parentFont : Int) (style : ComputedStyle) (decls : List Decl) : ComputedStyle :=
  let style := decls.foldl (applyFontSize parentFont) style
  decls.foldl (applyDecl style.fontSize) style

def Selector.selects (name : TagName) : Selector → Bool
  | star => true
  | tag t => t = name

def Rule.selects (tag : TagName) (rule : Rule) : Bool := rule.selectors.any (Selector.selects tag)

def applyMatching (tag : TagName) (parentFont : Int) (style : ComputedStyle) (sheet : List Rule) :
    ComputedStyle :=
  sheet.foldl (fun style rule => if rule.selects tag then applyDecls parentFont style rule.decls
    else style) style

/-! ### The code -/

def uaSheet : List Char :=
  "\nhtml \x7b display: block; color: #000000; background-color: #ffffff; \x7d\n".toList ++
  "head, title, style \x7b display: none; \x7d\n".toList ++
  "body \x7b display: block; margin: 8px; color: #000000; background-color: #ffffff; \x7d\n".toList ++
  "div, p, h1, h2, h3, ul, ol, li, pre \x7b display: block; \x7d\n".toList ++
  "span, a, strong, em, code, img \x7b display: inline; \x7d\n".toList ++
  "p \x7b margin: 16px 0; \x7d\n".toList ++
  "h1 \x7b font-size: 32px; margin: 16px 0; \x7d\n".toList ++
  "h2 \x7b font-size: 24px; margin: 16px 0; \x7d\n".toList ++
  "h3 \x7b font-size: 18px; margin: 16px 0; \x7d\n".toList ++
  "ul, ol \x7b margin: 16px 0; padding: 0 0 0 40px; \x7d\n".toList

/-- The value of the first attribute of the name. -/
def attr (doc : Document) (id : Nat) (name : List Char) : Option (List Char) :=
  doc.nodes[id]?.bind fun n =>
    match n.kind with
    | .element _ attrs => (attrs.find? (·.name = name)).map (·.value)
    | _ => none

def parseInlineDecls (input : List Char) : List Decl := (takeDeclsUntil none input).1

/-- The texts of the `style` elements among some nodes. -/
def styleTexts (doc : Document) (ids : List Nat) : List (List Char) :=
  (ids.filter fun id => doc.tag id = some .style).map doc.textContent

def authorCss (doc : Document) : List Char := (styleTexts doc (List.range doc.nodeCount)).flatten

structure Cascade where
  ua : List Rule
  author : List Rule

namespace Cascade

def new (doc : Document) : Cascade := ⟨parseStylesheet uaSheet, parseStylesheet (authorCss doc)⟩

/-- The rules of `ua.css`. -/
def uaRules : List Rule :=
  [⟨[.tag .html], [⟨.display, .display .block⟩, ⟨.color, .color 0⟩, ⟨.backgroundColor, .color 0xffffff⟩]⟩,
   ⟨[.tag .head, .tag .title, .tag .style], [⟨.display, .display .none⟩]⟩,
   ⟨[.tag .body], [⟨.display, .display .block⟩, ⟨.margin, .lengths [.px 8]⟩, ⟨.color, .color 0⟩,
     ⟨.backgroundColor, .color 0xffffff⟩]⟩,
   ⟨[.tag .div, .tag .p, .tag .h1, .tag .h2, .tag .h3, .tag .ul, .tag .ol, .tag .li, .tag .pre],
     [⟨.display, .display .block⟩]⟩,
   ⟨[.tag .span, .tag .a, .tag .strong, .tag .em, .tag .code, .tag .img], [⟨.display, .display .inline⟩]⟩,
   ⟨[.tag .p], [⟨.margin, .lengths [.px 16, .px 0]⟩]⟩,
   ⟨[.tag .h1], [⟨.fontSize, .lengths [.px 32]⟩, ⟨.margin, .lengths [.px 16, .px 0]⟩]⟩,
   ⟨[.tag .h2], [⟨.fontSize, .lengths [.px 24]⟩, ⟨.margin, .lengths [.px 16, .px 0]⟩]⟩,
   ⟨[.tag .h3], [⟨.fontSize, .lengths [.px 18]⟩, ⟨.margin, .lengths [.px 16, .px 0]⟩]⟩,
   ⟨[.tag .ul, .tag .ol], [⟨.margin, .lengths [.px 16, .px 0]⟩,
     ⟨.padding, .lengths [.px 0, .px 0, .px 0, .px 40]⟩]⟩]

theorem parseStylesheet_uaSheet : parseStylesheet uaSheet = uaRules := by
  unfold uaSheet
  iterate 10 rw [String.toList_ofList]
  decide +kernel

theorem new_eq (doc : Document) : new doc = ⟨uaRules, parseStylesheet (authorCss doc)⟩ := by
  rw [new, parseStylesheet_uaSheet]

def compute (cascade : Cascade) (doc : Document) (id : Nat) (parent : ComputedStyle) : ComputedStyle :=
  match doc.tag id with
  | none => parent
  | some tag =>
    let style := applyMatching tag parent.fontSize parent.inherited cascade.ua
    let style := applyMatching tag parent.fontSize style cascade.author
    match attr doc id ['s', 't', 'y', 'l', 'e'] with
    | some inline => applyDecls parent.fontSize style (parseInlineDecls inline)
    | none => style

end Cascade

/-! ### The last declaration of a property -/

namespace Decl

def displays (decl : Decl) : Option DisplayKind :=
  match decl.prop, decl.value with
  | .display, .display d => some d
  | _, _ => none

def colors (decl : Decl) : Option Nat :=
  match decl.prop, decl.value with
  | .color, .color c => some c
  | _, _ => none

def backgrounds (decl : Decl) : Option (Option Nat) :=
  match decl.prop, decl.value with
  | .backgroundColor, .color c => some (some c)
  | _, _ => none

def fontSizes (parentFont : Int) (decl : Decl) : Option Int :=
  match decl.prop, decl.value with
  | .fontSize, .lengths (len :: _) => some (max (len.toPx parentFont) 1)
  | _, _ => none

def margins (em : Int) (decl : Decl) : Option Edges :=
  match decl.prop, decl.value with
  | .margin, .lengths v => some (.fromPx (v.map (Length.toPx em)))
  | _, _ => none

def paddings (em : Int) (decl : Decl) : Option Edges :=
  match decl.prop, decl.value with
  | .padding, .lengths v => some (.fromPx (v.map (Length.toPx em)))
  | _, _ => none

/-- A width, where `auto` is none. -/
def widths (em : Int) (decl : Decl) : Option (Option Int) :=
  match decl.prop, decl.value with
  | .width, .widthAuto => some none
  | .width, .lengths (len :: _) => some (some (max (len.toPx em) 0))
  | _, _ => none

end Decl

def lastFontSize (parentFont font : Int) (decls : List Decl) : Int :=
  (last (Decl.fontSizes parentFont) decls).getD font

/-- The style declarations set in their order: a font size is one of the parent's, and any other
length one of the font size the declarations end with. -/
def cascaded (parent : ComputedStyle) (decls : List Decl) : ComputedStyle :=
  let font := lastFontSize parent.fontSize parent.fontSize decls
  { display := (last Decl.displays decls).getD .block
    color := (last Decl.colors decls).getD parent.color
    background := (last Decl.backgrounds decls).getD none
    fontSize := font
    margin := (last (Decl.margins font) decls).getD .zero
    padding := (last (Decl.paddings font) decls).getD .zero
    width := (last (Decl.widths font) decls).getD none }

def matching (tag : TagName) (sheet : List Rule) : List (List Decl) :=
  (sheet.filter (Rule.selects tag)).map Rule.decls

/-- The declarations that apply to an element, rule by rule, where the page has given rules. -/
def blocks (doc : Document) (id : Nat) (tag : TagName) (author : List Rule) : List (List Decl) :=
  matching tag (parseStylesheet uaSheet) ++ matching tag author ++
    (attr doc id ['s', 't', 'y', 'l', 'e']).toList.map parseInlineDecls

/-- The rules of the page: each `style` element is a sheet of its own, and they come in the order of
the document. -/
def authorRules (doc : Document) : List Rule :=
  (styleTexts doc (Lerux.preorder doc.children doc.nodeCount Document.root)).flatMap parseStylesheet

/-- The declarations that apply to an element. -/
def applicable (doc : Document) (id : Nat) (tag : TagName) : List Decl :=
  (blocks doc id tag (authorRules doc)).flatten

/-- The declarations of some rules, each with the font size in force behind its own rule. -/
def inForce (parentFont : Int) : Int → List (List Decl) → List (Int × Decl)
  | _, [] => []
  | font, decls :: rest =>
    decls.map (Prod.mk (lastFontSize parentFont font decls)) ++
      inForce parentFont (lastFontSize parentFont font decls) rest

/-- Of each property, the last declaration of some rules, its lengths those of the font size in
force behind its rule, sets what the last of the declarations sets, its lengths those of the final
font size. -/
structure Settled (parent : ComputedStyle) (rules : List (List Decl)) (decls : List Decl) : Prop where
  display : (last Decl.displays rules.flatten).getD .block = (last Decl.displays decls).getD .block
  color : (last Decl.colors rules.flatten).getD parent.color = (last Decl.colors decls).getD parent.color
  background : (last Decl.backgrounds rules.flatten).getD none = (last Decl.backgrounds decls).getD none
  fontSize : lastFontSize parent.fontSize parent.fontSize rules.flatten =
    lastFontSize parent.fontSize parent.fontSize decls
  margin : (last (fun x => x.2.margins x.1) (inForce parent.fontSize parent.fontSize rules)).getD .zero =
    (last (Decl.margins (lastFontSize parent.fontSize parent.fontSize decls)) decls).getD .zero
  padding : (last (fun x => x.2.paddings x.1) (inForce parent.fontSize parent.fontSize rules)).getD .zero =
    (last (Decl.paddings (lastFontSize parent.fontSize parent.fontSize decls)) decls).getD .zero
  width : (last (fun x => x.2.widths x.1) (inForce parent.fontSize parent.fontSize rules)).getD none =
    (last (Decl.widths (lastFontSize parent.fontSize parent.fontSize decls)) decls).getD none

/-! ### What the rules leave -/

section rules

variable {parentFont em : Int}

theorem applyFontSize_eq (style : ComputedStyle) (decl : Decl) : applyFontSize parentFont style decl =
    { style with fontSize := (decl.fontSizes parentFont).getD style.fontSize } := by
  unfold applyFontSize Decl.fontSizes
  split <;> rfl

theorem applyDecl_eq (style : ComputedStyle) (decl : Decl) : applyDecl em style decl =
    { display := decl.displays.getD style.display
      color := decl.colors.getD style.color
      background := decl.backgrounds.getD style.background
      fontSize := style.fontSize
      margin := (decl.margins em).getD style.margin
      padding := (decl.paddings em).getD style.padding
      width := (decl.widths em).getD style.width } := by
  obtain ⟨prop, value⟩ := decl
  cases value with
  | lengths lens => cases lens <;> cases prop <;> rfl
  | _ => cases prop <;> rfl

theorem foldl_applyFontSize (style : ComputedStyle) (decls : List Decl) :
    decls.foldl (applyFontSize parentFont) style =
    { style with fontSize := lastFontSize parentFont style.fontSize decls } := by
  induction decls generalizing style with
  | nil => rfl
  | cons decl decls ih => rw [List.foldl_cons, ih, applyFontSize_eq, lastFontSize, lastFontSize,
    last_cons, Option.getD_or]

theorem foldl_applyDecl (style : ComputedStyle) (decls : List Decl) : decls.foldl (applyDecl em) style =
    { display := (last Decl.displays decls).getD style.display
      color := (last Decl.colors decls).getD style.color
      background := (last Decl.backgrounds decls).getD style.background
      fontSize := style.fontSize
      margin := (last (Decl.margins em) decls).getD style.margin
      padding := (last (Decl.paddings em) decls).getD style.padding
      width := (last (Decl.widths em) decls).getD style.width } := by
  induction decls generalizing style with
  | nil => rfl
  | cons decl decls ih =>
    rw [List.foldl_cons, ih, applyDecl_eq]
    simp only [last_cons, Option.getD_or]

/-- What some rules leave: the last declaration of each property, at the font size in force behind
its rule. -/
theorem foldl_applyDecls (style : ComputedStyle) (rules : List (List Decl)) :
    rules.foldl (applyDecls parentFont) style =
    { display := (last Decl.displays rules.flatten).getD style.display
      color := (last Decl.colors rules.flatten).getD style.color
      background := (last Decl.backgrounds rules.flatten).getD style.background
      fontSize := lastFontSize parentFont style.fontSize rules.flatten
      margin := (last (fun x => x.2.margins x.1)
        (inForce parentFont style.fontSize rules)).getD style.margin
      padding := (last (fun x => x.2.paddings x.1)
        (inForce parentFont style.fontSize rules)).getD style.padding
      width := (last (fun x => x.2.widths x.1)
        (inForce parentFont style.fontSize rules)).getD style.width } := by
  induction rules generalizing style with
  | nil => rfl
  | cons decls rest ih =>
    rw [List.foldl_cons, ih, applyDecls, foldl_applyFontSize, foldl_applyDecl]
    simp only [List.flatten_cons, inForce, last_append, last_map, Option.getD_or, lastFontSize]

theorem foldl_applyDecls_eq_iff (parent : ComputedStyle) (rules : List (List Decl)) (decls : List Decl) :
    rules.foldl (applyDecls parent.fontSize) parent.inherited = cascaded parent decls ↔
      Settled parent rules decls := by
  rw [foldl_applyDecls, cascaded, ComputedStyle.mk.injEq]
  constructor
  · rintro ⟨hdisplay, hcolor, hbackground, hfontSize, hmargin, hpadding, hwidth⟩
    exact ⟨hdisplay, hcolor, hbackground, hfontSize, hmargin, hpadding, hwidth⟩
  · intro h
    exact ⟨h.display, h.color, h.background, h.fontSize, h.margin, h.padding, h.width⟩

end rules

section document

variable {doc : Document} {id : Nat} {tag : TagName} {parent : ComputedStyle}

theorem applyMatching_eq (parentFont : Int) (style : ComputedStyle) (sheet : List Rule) :
    applyMatching tag parentFont style sheet =
      (matching tag sheet).foldl (applyDecls parentFont) style := by
  rw [applyMatching, matching, List.foldl_map, List.foldl_filter]

/-- The style is what the rules leave that apply to the element, where the page has the rules of the
joined text. -/
theorem compute_eq (htag : doc.tag id = some tag) : (Cascade.new doc).compute doc id parent =
    (blocks doc id tag (parseStylesheet (authorCss doc))).foldl
      (applyDecls parent.fontSize) parent.inherited := by
  rw [Cascade.compute, htag, Cascade.new, blocks]
  generalize parseStylesheet uaSheet = ua
  rw [List.foldl_append, List.foldl_append, ← applyMatching_eq, ← applyMatching_eq]
  cases attr doc id ['s', 't', 'y', 'l', 'e'] <;> rfl

end document

/-- The texts of the `style` elements in the order of the nodes, which is that of the document. -/
def pageTexts (html : List Char) : List (List Char) :=
  styleTexts (parse html) (List.range (parse html).nodeCount)

theorem authorRules_parse (html : List Char) : authorRules (parse html) =
    (pageTexts html).flatMap parseStylesheet := by
  have hwell : (parse html).WellFormed := (Builder.grown_new.run (tokenize html)).1.wellFormed
  rw [authorRules, hwell.preorder]
  rfl

/-- The rules that apply where the texts are joined, and the declarations where they are parsed one
by one. -/
def Settles (html : List Char) (id : Nat) (tag : TagName) (parent : ComputedStyle) : Prop :=
  Settled parent (blocks (parse html) id tag (parseStylesheet (pageTexts html).flatten))
    (blocks (parse html) id tag ((pageTexts html).flatMap parseStylesheet)).flatten

theorem compute_eq_iff {html : List Char} {id : Nat} {tag : TagName} (htag : (parse html).tag id = some tag)
    (parent : ComputedStyle) : (Cascade.new (parse html)).compute (parse html) id parent =
      cascaded parent (applicable (parse html) id tag) ↔ Settles html id tag parent := by
  rw [compute_eq htag, foldl_applyDecls_eq_iff, applicable, authorRules_parse]
  rfl

/-- The style of an element is the cascade of its declarations just where the rules settle; and
where they do, nothing depends on how the declarations are divided into rules, sheets and attribute.
-/
theorem cascade_exact (html : List Char) {id : Nat} {tag : TagName} (htag : (parse html).tag id = some tag)
    (parent : ComputedStyle) :
    ((Cascade.new (parse html)).compute (parse html) id parent =
      cascaded parent (applicable (parse html) id tag) ↔
      Settles html id tag parent) ∧
    ∀ {html' : List Char} {id' : Nat} {tag' : TagName}, (parse html').tag id' = some tag' →
      applicable (parse html') id' tag' = applicable (parse html) id tag → Settles html id tag parent →
      Settles html' id' tag' parent → (Cascade.new (parse html')).compute (parse html') id' parent =
        (Cascade.new (parse html)).compute (parse html) id parent := by
  refine ⟨compute_eq_iff htag parent, ?_⟩
  intro html' id' tag' htag' hsame hsettles hsettles'
  rw [(compute_eq_iff htag parent).mpr hsettles, (compute_eq_iff htag' parent).mpr hsettles', hsame]

def splitPage : List Char :=
  "<style>p\x7bfont-size:10px;margin:1em\x7dp\x7bfont-size:32px\x7d</style><p>".toList

def wholePage : List Char := "<style>p\x7bfont-size:10px;margin:1em;font-size:32px\x7d</style><p>".toList

def splitRules : List Rule :=
  [⟨[.tag .p], [⟨.fontSize, .lengths [.px 10]⟩, ⟨.margin, .lengths [.em 1]⟩]⟩,
    ⟨[.tag .p], [⟨.fontSize, .lengths [.px 32]⟩]⟩]

def wholeRules : List Rule :=
  [⟨[.tag .p], [⟨.fontSize, .lengths [.px 10]⟩, ⟨.margin, .lengths [.em 1]⟩,
    ⟨.fontSize, .lengths [.px 32]⟩]⟩]

section pages

variable {html : List Char} {rules : List Rule}

theorem applicable_of_rules (hattr : attr (parse html) 3 ['s', 't', 'y', 'l', 'e'] = none)
    (hrules : (pageTexts html).flatMap parseStylesheet = rules) :
    applicable (parse html) 3 .p = (matching .p (parseStylesheet uaSheet)).flatten ++
      (matching .p rules).flatten := by
  rw [applicable, blocks, hattr, authorRules_parse, hrules, List.flatten_append, List.flatten_append]
  exact List.append_nil _

theorem compute_of_rules (htag : (parse html).tag 3 = some .p)
    (hattr : attr (parse html) 3 ['s', 't', 'y', 'l', 'e'] = none)
      (hrules : parseStylesheet (authorCss (parse html)) = rules) :
    ∃ style, (Cascade.new (parse html)).compute (parse html) 3 .initial =
      (matching .p rules).foldl (applyDecls 16) style := by
  refine ⟨(matching .p (parseStylesheet uaSheet)).foldl (applyDecls 16) ComputedStyle.initial.inherited, ?_⟩
  rw [compute_eq htag, blocks, hattr, hrules, List.foldl_append, List.foldl_append]
  generalize matching .p (parseStylesheet uaSheet) = ua
  rfl

end pages

theorem cascade_whole : (Cascade.new (parse wholePage)).compute (parse wholePage) 3 .initial =
    cascaded .initial (applicable (parse wholePage) 3 .p) ↔ Settles wholePage 3 .p .initial :=
  (cascade_exact wholePage (by decide +kernel) .initial).1

/-- A margin in `em`, and behind it a rule of the same selector with another font size. -/
theorem cascade_splits :
    (Cascade.new (parse splitPage)).compute (parse splitPage) 3 .initial ≠
      cascaded .initial (applicable (parse splitPage) 3 .p) ∧
    applicable (parse wholePage) 3 .p = applicable (parse splitPage) 3 .p ∧
    (Cascade.new (parse wholePage)).compute (parse wholePage) 3 .initial ≠
      (Cascade.new (parse splitPage)).compute (parse splitPage) 3 .initial := by
  have hsplit : ((Cascade.new (parse splitPage)).compute (parse splitPage) 3 .initial).margin =
    ⟨10, 10, 10, 10⟩ := by
    obtain ⟨style, hstyle⟩ := @compute_of_rules splitPage splitRules (by decide +kernel) (by decide +kernel)
      (by decide +kernel)
    rw [hstyle]
    rfl
  have hwhole : ((Cascade.new (parse wholePage)).compute (parse wholePage) 3 .initial).margin =
    ⟨32, 32, 32, 32⟩ := by
    obtain ⟨style, hstyle⟩ := @compute_of_rules wholePage wholeRules (by decide +kernel) (by decide +kernel)
      (by decide +kernel)
    rw [hstyle]
    rfl
  have happlicable : applicable (parse splitPage) 3 .p =
      (matching .p (parseStylesheet uaSheet)).flatten ++ (matching .p splitRules).flatten :=
    applicable_of_rules (by decide +kernel) (by decide +kernel)
  have happlicable' : applicable (parse wholePage) 3 .p =
      (matching .p (parseStylesheet uaSheet)).flatten ++ (matching .p wholeRules).flatten :=
    applicable_of_rules (by decide +kernel) (by decide +kernel)
  rw [happlicable', happlicable]
  generalize (matching .p (parseStylesheet uaSheet)).flatten = ua
  refine ⟨?_, rfl, ?_⟩
  · intro heq
    have hcascaded : (cascaded .initial (ua ++ (matching .p splitRules).flatten)).margin =
      ⟨32, 32, 32, 32⟩ := by
      show (last (Decl.margins (lastFontSize 16 16 (ua ++ (matching .p splitRules).flatten)))
        (ua ++ (matching .p splitRules).flatten)).getD Edges.zero = _
      rw [last_append, lastFontSize, last_append]
      rfl
    rw [heq, hcascaded] at hsplit
    exact absurd hsplit (by decide)
  · intro heq
    rw [heq, hsplit] at hwhole
    exact absurd hwhole (by decide)

end Lerux.Web
