import Lerux.Base.Preorder
import Lerux.Html.Token

/-!
# The tree builder of the HTML subset

`parse` of `lib.rs`: the nodes are a table, children and parents are indices in it, and the tokens
are worked off with a stack of open elements. The stack is a vector with its top at the end in the
source and a list with its top first here.
-/

namespace Lerux.Html

inductive NodeKind
  | document
  | element (name : TagName) (attrs : List Attr)
  | text (s : List Char)
deriving DecidableEq, Repr

structure Node where
  kind : NodeKind
  parent : Option Nat
  children : List Nat
deriving DecidableEq, Repr

namespace Node

def tag (n : Node) : Option TagName :=
  match n.kind with
  | .element name _ => some name
  | _ => none

def isText (n : Node) : Bool :=
  match n.kind with
  | .text _ => true
  | _ => false

/-- The text of the node itself. -/
def ownText (n : Node) : List Char :=
  match n.kind with
  | .text s => s
  | _ => []

end Node

structure Document where
  nodes : List Node
deriving DecidableEq, Repr

namespace Document

def new : Document := ⟨[⟨.document, none, []⟩]⟩

def root : Nat := 0

def nodeCount (doc : Document) : Nat := doc.nodes.length

def tag (doc : Document) (id : Nat) : Option TagName := doc.nodes[id]?.bind Node.tag

def children (doc : Document) (id : Nat) : List Nat := (doc.nodes[id]?.map Node.children).getD []

def isText (doc : Document) (id : Nat) : Bool := doc.nodes[id]?.any Node.isText

/-- The text below a node, down to a depth. -/
def collectText (doc : Document) : Nat → Nat → List Char
  | 0, _ => []
  | depth + 1, id =>
    match doc.nodes[id]? with
    | none => []
    | some n =>
      match n.kind with
      | .text s => s
      | _ => n.children.flatMap (collectText doc depth)

/-- No node is deeper than there are nodes. -/
def textContent (doc : Document) (id : Nat) : List Char := doc.collectText doc.nodeCount id

def append (doc : Document) (parent : Nat) (kind : NodeKind) : Document :=
  ⟨(doc.nodes ++ [Node.mk kind (some parent) []]).modify parent fun n =>
    { n with children := n.children ++ [doc.nodes.length] }⟩

/-- A text is added to the end of a text node. -/
def pushStr (doc : Document) (id : Nat) (text : List Char) : Document :=
  ⟨doc.nodes.modify id fun n => { n with kind := .text (n.ownText ++ text) }⟩

/-- The last child of a node, where that is a text node. -/
def lastText (doc : Document) (parent : Nat) : Option Nat :=
  (doc.children parent).getLast?.filter doc.isText

end Document

def keepText (doc : Document) (parent : Nat) (text : List Char) : Bool :=
  if text = [] then false
  else if (doc.tag parent).any TagName.preservesWhitespace then true
  else !text.all isWs

structure Builder where
  doc : Document
  opened : List Nat

namespace Builder

def new : Builder := ⟨.new, [Document.root]⟩

def parent (b : Builder) : Nat := b.opened.headD Document.root

/-- The innermost open element of the name is closed, with all that is open in it. -/
def close (b : Builder) (name : TagName) : Builder :=
  match b.opened.dropWhile fun id => b.doc.tag id ≠ some name with
  | [] => b
  | _ :: rest => { b with opened := if rest = [] then [Document.root] else rest }

def step (b : Builder) : Token → Builder
  | .start name attrs selfClosing =>
    ⟨b.doc.append b.parent (.element name attrs),
      if !selfClosing && !name.isVoid then b.doc.nodes.length :: b.opened else b.opened⟩
  | .end_ name => b.close name
  | .text text =>
    if keepText b.doc b.parent text then
      match b.doc.lastText b.parent with
      | some last => { b with doc := b.doc.pushStr last text }
      | none => { b with doc := b.doc.append b.parent (.text text) }
    else b

/-- The text a token adds to the document. -/
def keptText (b : Builder) : Token → Option (List Char)
  | .text text => if keepText b.doc b.parent text then some text else none
  | _ => none

/-- The text tokens that are kept, in their order. -/
def keptTexts (b : Builder) : List Token → List (List Char)
  | [] => []
  | token :: tokens => (b.keptText token).toList ++ (b.step token).keptTexts tokens

end Builder

def parse (input : List Char) : Document := ((tokenize input).foldl Builder.step .new).doc

end Lerux.Html
