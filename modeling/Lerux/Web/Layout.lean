import Lerux.Base.Exact
import Lerux.Base.Tree
import Lerux.Web.Cascade

/-!
# Block layout

`layout.rs`: the blocks of a page below each other, and between them runs of inline content that are
broken into lines. The coordinates are numbers of 32 bits, and every addition and subtraction is
checked here: the layout is none if one overflows.
-/

namespace Lerux.Web

open Lerux.Html (Document NodeKind TagName)
open Lerux.Base

def imgPlaceholder : Int := 16

structure GlyphRun where
  x : Int
  y : Int
  text : List Char
  color : Nat
  fontSize : Int

structure Replaced where
  x : Int
  y : Int
  width : Int
  height : Int
  color : Nat

structure LayoutBox where
  x : Int
  y : Int
  width : Int
  height : Int
  background : Option Nat
  runs : List GlyphRun
  replaced : List Replaced
  children : List LayoutBox

def emptyBox (x y w h : Int) (background : Option Nat) : LayoutBox := ⟨x, y, w, h, background, [], [], []⟩

/-! ### Inline content -/

structure InlineCursor where
  x : Int
  y : Int
  lineH : Int
  contentX : Int
  maxX : Int
  startY : Int
  runs : List GlyphRun
  replaced : List Replaced

def newLine (cur : InlineCursor) : Option InlineCursor := do
  let y ← add32 cur.y (max cur.lineH 1)
  return { cur with y, x := cur.contentX, lineH := 0 }

/-- A line break before what would end behind the right edge, unless the line is empty. -/
def breakLine (cur : InlineCursor) (right : Int) : Option InlineCursor :=
  if cur.maxX < right ∧ cur.contentX < cur.x then newLine cur else some cur

def wrapIfNeeded (cur : InlineCursor) (w h : Int) : Option InlineCursor := do
  let right ← add32 cur.x w
  let cur ← breakLine cur right
  return { cur with lineH := max cur.lineH h }

def pushReplaced (cur : InlineCursor) (w h : Int) (color : Nat) : Option InlineCursor := do
  let cur ← wrapIfNeeded cur w h
  let replaced := cur.replaced ++ [⟨cur.x, cur.y, w, h, color⟩]
  let x ← add32 cur.x w
  return { cur with replaced, x, lineH := max cur.lineH h }

/-- The cursor of a text, with the characters that are in no run yet and where they begin. -/
structure Pen where
  cur : InlineCursor
  buf : List Char
  runX : Int
  runY : Int

def flushRun (pen : Pen) (color : Nat) (fontSize : Int) : Pen :=
  if pen.buf = [] then pen
  else { pen with cur.runs := pen.cur.runs ++ [⟨pen.runX, pen.runY, pen.buf, color, fontSize⟩], buf := [] }

/-- A line break before a character that would end behind the right edge. -/
def wrapChar (color : Nat) (fontSize : Int) (pen : Pen) (right : Int) : Option Pen :=
  if pen.cur.maxX < right ∧ pen.cur.contentX < pen.cur.x then do
    let pen := flushRun pen color fontSize
    let cur ← newLine pen.cur
    return { pen with cur, runX := cur.x, runY := cur.y }
  else some pen

def putChar (fontSize : Int) (pen : Pen) (ch : Char) : Option Pen := do
  let pen := if pen.buf = [] then { pen with runX := pen.cur.x, runY := pen.cur.y } else pen
  let x ← add32 pen.cur.x fontSize
  return { pen with buf := pen.buf ++ [ch], cur.x := x, cur.lineH := max pen.cur.lineH fontSize }

def pushChar (color : Nat) (fontSize : Int) (preserve : Bool) (pen : Pen) (ch : Char) : Option Pen :=
  if ch = ' ' ∧ preserve = false ∧ pen.cur.x = pen.cur.contentX ∧ pen.buf = [] then some pen
  else do
    let right ← add32 pen.cur.x fontSize
    let pen ← wrapChar color fontSize pen right
    putChar fontSize pen ch

def pushChars (cur : InlineCursor) (text : List Char) (color : Nat) (fontSize : Int)
    (preserve : Bool) : Option InlineCursor := do
  let pen ← text.foldlM (pushChar color fontSize preserve) ⟨cur, [], cur.x, cur.y⟩
  return (flushRun pen color fontSize).cur

/-- White space becomes one space. The bytes of the text become a character each. -/
def collapseWs (text : List Char) : List Char :=
  ((text.flatMap String.utf8EncodeChar).foldl (fun (out, prevWs) b =>
    if b = 0x20 ∨ b = 0x09 ∨ b = 0x0a ∨ b = 0x0d then (if prevWs then out else out ++ [' '], true)
    else (out ++ [Char.ofNat b.toNat], false)) (([] : List Char), false)).1

def pushLine (color : Nat) (fontSize : Int) (cur : InlineCursor) (line : List Char) :
    Option InlineCursor := do
  let cur ← newLine cur
  pushChars cur line color fontSize true

def pushText (cur : InlineCursor) (text : List Char) (color : Nat) (fontSize : Int)
    (preserve : Bool) : Option InlineCursor :=
  if preserve then
    match text.splitOn '\n' with
    | [] => some cur
    | line :: lines => do
      let cur ← pushChars cur line color fontSize true
      lines.foldlM (pushLine color fontSize) cur
  else pushChars cur (collapseWs text) color fontSize false

section page

variable (doc : Document) (cascade : Cascade)

/-- The tree below a node. -/
def tree (id : Nat) : Tree := Tree.grow doc.children doc.nodeCount id

/-- A text in a `pre` is kept as it is. -/
def preserves (id : Nat) : Bool := (doc.nodes[id]?.bind (·.parent)).any fun p => doc.tag p = some .pre

mutual

def emitInline : Tree → ComputedStyle → InlineCursor → Option InlineCursor
  | .node id children, parent, cur =>
    match doc.nodes[id]?.map Html.Node.kind with
    | some (.text text) => pushText cur text parent.color parent.fontSize (preserves doc id)
    | some (.element name _) =>
      let style := cascade.compute doc id parent
      if style.display = .none then some cur
      else if name = .img then pushReplaced cur imgPlaceholder imgPlaceholder 0x808080
      else emitInlines children style cur
    | _ => some cur

def emitInlines : List Tree → ComputedStyle → InlineCursor → Option InlineCursor
  | [], _, cur => some cur
  | t :: ts, parent, cur => do
    let cur ← emitInline t parent cur
    emitInlines ts parent cur

end

def layoutInlineRun (ids : List Tree) (parent : ComputedStyle) (contentX contentY contentW : Int) :
    Option (List GlyphRun × List Replaced × Int) := do
  let maxX ← add32 contentX contentW
  let cur ← emitInlines doc cascade ids parent ⟨contentX, contentY, 0, contentX, maxX, contentY, [], []⟩
  let h ← sub32 cur.y cur.startY
  let h ← add32 h (max cur.lineH 0)
  return (cur.runs, cur.replaced, max h 0)

/-! ### Blocks -/

def isBlockChild (parent : ComputedStyle) (t : Tree) : Bool :=
  match doc.tag t.id with
  | some _ => (cascade.compute doc t.id parent).display =
    .block || (cascade.compute doc t.id parent).display = .none
  | none => false

structure ContentPlace where
  x : Int
  y : Int
  w : Int

/-- What of the available width the margins and the padding leave. -/
def autoWidth (style : ComputedStyle) (availW : Int) : Option Int := do
  let w ← sub32 availW style.margin.left
  let w ← sub32 w style.margin.right
  let w ← sub32 w style.padding.left
  let w ← sub32 w style.padding.right
  return max w 0

def widthOr (style : ComputedStyle) (availW : Int) : Option Int :=
  match style.width with
  | some w => some w
  | none => autoWidth style availW

/-- The box of a block, and the place of its content. -/
def openBlock (style : ComputedStyle) (x y availW : Int) : Option (LayoutBox × ContentPlace) := do
  let borderX ← add32 x style.margin.left
  let borderY ← add32 y style.margin.top
  let widthForContent ← widthOr style availW
  let borderW ← add32 widthForContent style.padding.left
  let borderW ← add32 borderW style.padding.right
  let contentX ← add32 borderX style.padding.left
  let padding ← add32 style.padding.top style.padding.bottom
  let contentY ← add32 borderY style.padding.top
  return (emptyBox borderX borderY borderW padding style.background, ⟨contentX, contentY, widthForContent⟩)

/-- The height of a block whose content is placed. -/
def closeBlock (style : ComputedStyle) (borderY : Int) (place : ContentPlace) (box : LayoutBox) :
    Option LayoutBox := do
  let height ← sub32 place.y borderY
  let height ← add32 height style.padding.bottom
  let padding ← add32 style.padding.top style.padding.bottom
  return { box with height := if height < padding then padding else height }

/-- The inline children that have been taken are laid out. -/
def closeRun (style : ComputedStyle) (run : List Tree) (place : ContentPlace) (box : LayoutBox) :
    Option (ContentPlace × LayoutBox) :=
  if run = [] then some (place, box)
  else do
    let (runs, replaced, h) ← layoutInlineRun doc cascade run style place.x place.y place.w
    let y ← add32 place.y h
    return ({ place with y }, { box with runs := box.runs ++ runs, replaced := box.replaced ++ replaced })

/-- The bottom of a child with its margin. -/
def childBottom (style : ComputedStyle) (t : Tree) (child : LayoutBox) : Option Int := do
  let bottom ← add32 child.y child.height
  add32 bottom (cascade.compute doc t.id style).margin.bottom

mutual

def layoutBlock : Tree → ComputedStyle → Int → Int → Int → Option LayoutBox
  | .node id children, parent, x, y, availW =>
    let style := cascade.compute doc id parent
    if style.display = .none then some (emptyBox x y 0 0 none)
    else if style.display = .inline then some (emptyBox x y 0 0 none)
    else do
      let (box, place) ← openBlock style x y availW
      let (place, box') ← layoutBlockChildren children style [] place box
      closeBlock style box.y place box'

/-- The loop over the children. The inline children since the last block are a run. -/
def layoutBlockChildren : List Tree → ComputedStyle → List Tree → ContentPlace → LayoutBox →
    Option (ContentPlace × LayoutBox)
  | [], style, run, place, box => closeRun doc cascade style run place box
  | t :: ts, style, run, place, box =>
    if isBlockChild doc cascade style t then do
      let (place, box) ← closeRun doc cascade style run place box
      -- a block child is an element, which `layout_node` lays out
      let child ← layoutBlock t style place.x place.y place.w
      let bottom ← childBottom doc cascade style t child
      layoutBlockChildren ts style [] { place with y := bottom }
        { box with children := box.children ++ [child] }
    else layoutBlockChildren ts style (run ++ [t]) place box

end

/-- An element of a page without a root element. -/
def layoutNode (parent : ComputedStyle) (availW : Int) (state : Int × LayoutBox) (t : Tree) :
    Option (Int × LayoutBox) :=
  match doc.tag t.id with
  | some _ => do
    let child ← layoutBlock doc cascade t parent 0 state.1 availW
    let bottom ← childBottom doc cascade parent t child
    return (bottom, { state.2 with children := state.2.children ++ [child] })
  | none => some state

end page

/-- The first element of a name. -/
def firstElement (doc : Document) (name : TagName) : Option Nat :=
  (List.range doc.nodeCount).find? fun id => doc.tag id = some name

/-- The box of a page without a root element. -/
def layoutNodes (doc : Document) (cascade : Cascade) (viewportW viewportH : Int) : Option LayoutBox := do
  let (y, anon) ← ((doc.children Document.root).map (tree doc)).foldlM
    (layoutNode doc cascade .initial viewportW)
    (0, emptyBox 0 0 viewportW 0 ComputedStyle.initial.background)
  return { anon with height := max y viewportH }

def layoutRoot (doc : Document) (cascade : Cascade) (viewportW viewportH : Int) : Option LayoutBox :=
  match firstElement doc .html with
  | some html => layoutBlock doc cascade (tree doc html) .initial 0 0 viewportW
  | none => layoutNodes doc cascade viewportW viewportH

def layoutDocument (doc : Document) (viewportW viewportH : Int) : Option LayoutBox := do
  let root ← layoutRoot doc (Cascade.new doc) viewportW viewportH
  return { root with height := max root.height viewportH, width := max root.width viewportW }

end Lerux.Web
