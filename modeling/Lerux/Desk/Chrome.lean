import Lerux.Desk.Hosts

/-!
# The address line and its loads

`Chrome` is the line, the page area and the load in flight. `on_key` and `boot_load` answer what the
caller is to publish, and `accept` takes the outcome of a load. `onKey` is `none` where the source
panics, in `resolve_href`.

A line that is being edited is bytes: Backspace takes one byte, and a line that is no UTF-8 any more
reads as empty. Bytes behind the length are never read, so the line is the list of those before it.
-/

namespace Lerux.Desk

inductive FetchFail
  | nameLookup
  | certificate
  | connection
  | couldNotPaint
  deriving DecidableEq

inductive FailLine
  | fetch (fail : FetchFail)
  | notPublicHttps
  deriving DecidableEq

inductive Classify
  | empty
  | url (url : HttpsUrl)
  | rejected (reason : FailLine)

def classify (text : List Char) (policy : NamePolicy) : Classify :=
  if text.isEmpty then .empty
  else
    match normalize text policy with
    | some url => .url url
    | none => .rejected .notPublicHttps

/-! ### The line -/

inductive Selection
  | caret
  | all
  deriving DecidableEq

structure LineEdit where
  bytes : List UInt8
  cursor : Nat
  selection : Selection
  deriving DecidableEq

def asBytes (text : List Char) : List UInt8 := text.flatMap String.utf8EncodeChar

def fromUtf8 (bytes : List UInt8) : Option (List Char) :=
  (ByteArray.mk bytes.toArray).utf8Decode?.map Array.toList

namespace LineEdit

def empty : LineEdit := ⟨[], 0, .caret⟩

def fromUrl (url : HttpsUrl) (selection : Selection) : LineEdit :=
  let bytes := (asBytes url.text).take lineCap
  { bytes, selection
    cursor := match selection with
      | .all => 0
      | .caret => bytes.length }

def setText (edit : LineEdit) (text : List Char) : LineEdit :=
  if lineCap < byteLen text then edit
  else ⟨asBytes text, (asBytes text).length, .caret⟩

def text (edit : LineEdit) : List Char := (fromUtf8 edit.bytes).getD []

def insert (edit : LineEdit) (ch : UInt8) : LineEdit :=
  match edit.selection with
  | .all => ⟨[ch], 1, .caret⟩
  | .caret =>
    if lineCap ≤ edit.bytes.length then edit
    else
      let at_ := min edit.cursor edit.bytes.length
      { edit with bytes := edit.bytes.take at_ ++ ch :: edit.bytes.drop at_, cursor := at_ + 1 }

def backspace (edit : LineEdit) : LineEdit :=
  match edit.selection with
  | .all => ⟨[], 0, .caret⟩
  | .caret =>
    if edit.cursor = 0 then edit
    else { edit with
      bytes := edit.bytes.take (edit.cursor - 1) ++ edit.bytes.drop edit.cursor, cursor := edit.cursor - 1 }

def left (edit : LineEdit) : LineEdit :=
  match edit.selection with
  | .all => { edit with cursor := 0, selection := .caret }
  | .caret => { edit with cursor := edit.cursor - 1 }

def right (edit : LineEdit) : LineEdit :=
  match edit.selection with
  | .all => { edit with cursor := edit.bytes.length, selection := .caret }
  | .caret => if edit.cursor < edit.bytes.length then { edit with cursor := edit.cursor + 1 } else edit

end LineEdit

/-! ### The chrome -/

inductive Shown
  | blank
  | failed (reason : FailLine)
  | page (url : HttpsUrl)
  deriving DecidableEq

inductive Flight
  | idle
  | inFlight (url : HttpsUrl) (id : Nat)
  deriving DecidableEq

inductive LinkFocus
  | none
  | index (i : Nat)
  deriving DecidableEq

namespace LinkFocus

def clamp (focus : LinkFocus) (count : Nat) : LinkFocus :=
  match focus with
  | .index i => if i < count then .index i else .none
  | .none => .none

def next (focus : LinkFocus) (count : Nat) : LinkFocus :=
  if count = 0 then .none
  else
    match focus.clamp count with
    | .none => .index 0
    | .index i => .index ((i + 1) % min count 65535)

end LinkFocus

inductive ChromeInner
  | line (edit : LineEdit) (shown : Shown) (flight : Flight)
  | loading (target : HttpsUrl) (id : Nat) (shown : Shown) (focus : LinkFocus)
  | reading (page : HttpsUrl) (focus : LinkFocus)
  deriving DecidableEq

structure Chrome where
  inner : ChromeInner
  nextId : Nat
  deriving DecidableEq

inductive Key
  | char (ch : UInt8)
  | enter
  | backspace
  | escape
  | left
  | right
  | tab
  | up
  | down
  deriving DecidableEq

structure KeyEvent where
  key : Key
  ctrl : Bool
  deriving DecidableEq

inductive Effect
  | none
  | commit (url : HttpsUrl) (id : Nat)
  | drop (id : Nat)
  | pageKey (event : KeyEvent)

inductive Present
  | page
  | failure (reason : FailLine)
  | hold

inductive PaintOutcome
  | painted (url : HttpsUrl)
  | failed (fail : FetchFail)

/-- The load ids that there are, less zero, are those of a `u64`. -/
def idModulus : Nat := 2 ^ 64

def afterEscape (shown : Shown) (edit : LineEdit) : ChromeInner :=
  match shown with
  | .page page => .reading page .none
  | other => .line edit other .idle

namespace Chrome

def fresh : Chrome := ⟨.line .empty .blank .idle, 1⟩

/-- The id behind `id`. Zero is left out. -/
def followingId (id : Nat) : Nat := if (id + 1) % idModulus = 0 then 1 else (id + 1) % idModulus

def startLoad (c : Chrome) (url : HttpsUrl) (shown : Shown) : Chrome × Effect :=
  (⟨.loading url c.nextId shown .none, followingId c.nextId⟩, .commit url c.nextId)

def rejectLine (c : Chrome) : Chrome × Effect :=
  match c.inner with
  | .line edit _ flight =>
    ({ c with inner := .line edit (.failed .notPublicHttps) .idle },
      match flight with
      | .inFlight _ id => .drop id
      | .idle => .none)
  | _ => (c, .none)

def bootLoad (text : List Char) (policy : NamePolicy) : Chrome × Effect :=
  match classify text policy with
  | .empty => (fresh, .none)
  | .rejected _ => rejectLine { fresh with inner := .line (LineEdit.empty.setText text) .blank .idle }
  | .url url => fresh.startLoad url .blank

def enter (c : Chrome) (policy : NamePolicy) : Chrome × Effect :=
  match c.inner with
  | .line edit shown _ =>
    match classify edit.text policy with
    | .empty => (c, .none)
    | .rejected _ => c.rejectLine
    | .url url => c.startLoad url shown
  | _ => (c, .none)

/-- The edit that a key makes. -/
def editKey (edit : LineEdit) : Key → LineEdit
  | .backspace => edit.backspace
  | .left => edit.left
  | .right => edit.right
  | .char ch => if 0x20 ≤ ch ∧ ch ≤ 0x7E then edit.insert ch else edit
  | _ => edit

def onLineKey (c : Chrome) (event : KeyEvent) (policy : NamePolicy) : Chrome × Effect :=
  if event.ctrl then (c, .none)
  else if event.key = .enter then c.enter policy
  else
    match c.inner with
    | .line edit shown flight => ({ c with inner := .line (editKey edit event.key) shown flight }, .none)
    | _ => (c, .none)

def focusLine (c : Chrome) : Chrome :=
  { c with inner := match c.inner with
    | .line edit shown flight => .line { edit with selection := .all, cursor := 0 } shown flight
    | .loading target id shown _ => .line (.fromUrl target .all) shown (.inFlight target id)
    | .reading page _ => .line (.fromUrl page .all) (.page page) .idle }

def escape (c : Chrome) : Chrome × Effect :=
  match c.inner with
  | .reading _ _ => (c, .none)
  | .loading target id shown _ => ({ c with inner := afterEscape shown (.fromUrl target .caret) }, .drop id)
  | .line edit shown (.inFlight _ id) => ({ c with inner := afterEscape shown edit }, .drop id)
  | .line edit shown .idle => ({ c with inner := afterEscape shown edit }, .none)

def rejectFromPage (c : Chrome) (attempted : List Char) : Chrome × Effect :=
  (⟨.line (LineEdit.empty.setText attempted) (.failed .notPublicHttps) .idle, c.nextId⟩, .none)

def activateFocusedLink (c : Chrome) (base : HttpsUrl) (href : List Char) (shown : Shown)
    (policy : NamePolicy) :
    Option (Chrome × Effect) := do
  let trimmed := trimMatches isAsciiWhitespace href
  match ← resolveHref base href with
  | .script => some (c, .none)
  | .already => some (c, .none)
  | .rejected => some (c.rejectFromPage trimmed)
  | .fetch url =>
    match normalize url.text policy with
    | none => some (c.rejectFromPage trimmed)
    | some url => if url.text = base.text then some (c, .none) else some (c.startLoad url shown)
  | .fragment url =>
    match normalize url.text policy with
    | none => some (c.rejectFromPage trimmed)
    | some url => some ({ c with inner := .reading url .none }, .none)

def onPageKey (c : Chrome) (event : KeyEvent) (policy : NamePolicy) (links : List (List Char)) :
    Option (Chrome × Effect) :=
  match c.inner with
  | .loading _ _ _ _ => if event.key = .tab ∨ event.key = .enter then some (c, .none)
    else some (c, .pageKey event)
  | .reading page focus =>
    if event.key = .tab then some ({ c with inner := .reading page (focus.next links.length) }, .none)
    else if event.key = .enter then
      match focus with
      | .none => some (c, .none)
      | .index i =>
        match links[i]? with
        | none => some (c, .none)
        | some href => c.activateFocusedLink page href (.page page) policy
    else some (c, .pageKey event)
  | .line _ _ _ => some (c, .pageKey event)

def onKey (c : Chrome) (event : KeyEvent) (policy : NamePolicy) (links : List (List Char)) :
    Option (Chrome × Effect) :=
  if event.ctrl ∧ (event.key = .char 0x6C ∨ event.key = .char 0x4C) then some (c.focusLine, .none)
  else if event.key = .escape then some c.escape
  else
    match c.inner with
    | .line _ _ _ => some (c.onLineKey event policy)
    | _ => c.onPageKey event policy links

def land (c : Chrome) (edit : Option LineEdit) (flightUrl : HttpsUrl) (outcome : PaintOutcome) :
    Chrome × Present :=
  match outcome with
  | .painted url =>
    ({ c with inner := match edit with
      | some edit => .line edit (.page url) .idle
      | none => .reading url .none }, .page)
  | .failed fail =>
    let edit := match edit with
      | some edit => edit.setText flightUrl.text
      | none => .fromUrl flightUrl .all
    ({ c with inner := .line edit (.failed (.fetch fail)) .idle }, .failure (.fetch fail))

def accept (c : Chrome) (id : Nat) (outcome : PaintOutcome) : Chrome × Present :=
  match c.inner with
  | .loading target inflight _ _ => if inflight = id then c.land none target outcome else (c, .hold)
  | .line edit _ (.inFlight url inflight) => if inflight = id then c.land (some edit) url outcome
    else (c, .hold)
  | _ => (c, .hold)

/-- The final address of the page on screen. -/
def loadedAddress (c : Chrome) : Option HttpsUrl :=
  match c.inner with
  | .reading page _ => some page
  | .loading _ _ (.page url) _ => some url
  | .line _ (.page url) _ => some url
  | _ => none

end Chrome

end Lerux.Desk
