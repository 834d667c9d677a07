import Lerux.Html.Token

/-!
# The parser of the CSS subset

`css.rs`: a cursor over the text of a style sheet, which is the text behind it here. A function of
the parser gives what it takes and the text that is left, also when it takes nothing: the source
does not go back to where it began. The loops run on a count of turns, the length of the text
(`parseStylesheet_step`, `takeDecls_step`, `takeSelectors_step`).
-/

namespace Lerux.Web

open Lerux.Html (TagName isWs accept length_accept_le)

inductive DisplayKind
  | block | inline | none
deriving DecidableEq, Repr

inductive Length
  | px (n : Int)
  | em (n : Int)
deriving DecidableEq, Repr

inductive Selector
  | star
  | tag (name : TagName)
deriving DecidableEq, Repr

inductive Property
  | color | backgroundColor | fontSize | display | margin | padding | width
deriving DecidableEq, Repr

inductive Value
  | color (rgb : Nat)
  | display (kind : DisplayKind)
  | widthAuto
  | lengths (lens : List Length)
deriving DecidableEq, Repr

structure Decl where
  prop : Property
  value : Value
deriving DecidableEq, Repr

structure Rule where
  selectors : List Selector
  decls : List Decl
deriving DecidableEq, Repr

/-! ### Values -/

def stripSuffix (suffix t : List Char) : Option (List Char) :=
  if suffix.isSuffixOf t then some (t.take (t.length - suffix.length)) else none

/-- A number of 32 bits: a sign or none, and digits. -/
def parseI32 (t : List Char) : Option Int :=
  let negative := t.head? = some '-'
  let digits := if t.head? = some '-' ∨ t.head? = some '+' then t.drop 1 else t
  if digits = [] ∨ ¬digits.all Char.isDigit then none
  else
    let n : Int := (digits.foldl (fun n c => 10 * n + (c.toNat - 48)) 0 : Nat)
    let n := if negative then -n else n
    if -2 ^ 31 ≤ n ∧ n < 2 ^ 31 then some n else none

def hexNibble (c : Char) : Option Nat :=
  if c.isDigit then some (c.toNat - 48)
  else if 97 ≤ c.toNat ∧ c.toNat ≤ 102 then some (c.toNat - 97 + 10)
  else if 65 ≤ c.toNat ∧ c.toNat ≤ 70 then some (c.toNat - 65 + 10)
  else none

def parseHexColor : List Char → Option Nat
  | [r, g, b] => do
    let r ← hexNibble r
    let g ← hexNibble g
    let b ← hexNibble b
    return ((r * 0x11) <<< 16) ||| ((g * 0x11) <<< 8) ||| (b * 0x11)
  | [r₁, r₀, g₁, g₀, b₁, b₀] => do
    let r₁ ← hexNibble r₁
    let r₀ ← hexNibble r₀
    let g₁ ← hexNibble g₁
    let g₀ ← hexNibble g₀
    let b₁ ← hexNibble b₁
    let b₀ ← hexNibble b₀
    return (((r₁ <<< 4) ||| r₀) <<< 16) ||| (((g₁ <<< 4) ||| g₀) <<< 8) ||| ((b₁ <<< 4) ||| b₀)
  | _ => none

def colorNames : List (List Char × Nat) :=
  [(['b', 'l', 'a', 'c', 'k'], 0x000000), (['w', 'h', 'i', 't', 'e'], 0xffffff),
    (['r', 'e', 'd'], 0xff0000),
    (['g', 'r', 'e', 'e', 'n'], 0x008000), (['l', 'i', 'm', 'e'], 0x00ff00),
      (['b', 'l', 'u', 'e'], 0x0000ff),
    (['y', 'e', 'l', 'l', 'o', 'w'], 0xffff00), (['n', 'a', 'v', 'y'], 0x000080),
      (['m', 'a', 'r', 'o', 'o', 'n'], 0x800000),
    (['p', 'u', 'r', 'p', 'l', 'e'], 0x800080), (['t', 'e', 'a', 'l'], 0x008080),
      (['s', 'i', 'l', 'v', 'e', 'r'], 0xc0c0c0),
    (['g', 'r', 'a', 'y'], 0x808080), (['g', 'r', 'e', 'y'], 0x808080),
      (['o', 'r', 'a', 'n', 'g', 'e'], 0xffa500)]

def parseColor (raw : List Char) : Option Nat :=
  let s := trim raw
  if s.head? = some '#' then parseHexColor (s.drop 1) else colorNames.lookup s

def parseLength (raw : List Char) : Option Length :=
  let s := trim raw
  if s = ['0'] then some (.px 0)
  else
    match stripSuffix ['p', 'x'] s with
    | some n => (parseI32 (trim n)).map .px
    | none => (stripSuffix ['e', 'm'] s).bind fun n => (parseI32 (trim n)).map .em

def propertyNames : List (List Char × Property) :=
  [(['c', 'o', 'l', 'o', 'r'], .color),
    (['b', 'a', 'c', 'k', 'g', 'r', 'o', 'u', 'n', 'd', '-', 'c', 'o', 'l', 'o', 'r'], .backgroundColor),
    (['f', 'o', 'n', 't', '-', 's', 'i', 'z', 'e'], .fontSize),
      (['d', 'i', 's', 'p', 'l', 'a', 'y'], .display),
    (['m', 'a', 'r', 'g', 'i', 'n'], .margin), (['p', 'a', 'd', 'd', 'i', 'n', 'g'], .padding),
    (['w', 'i', 'd', 't', 'h'], .width)]

def propertyFromName (name : List Char) : Option Property := propertyNames.lookup name

def displayNames : List (List Char × DisplayKind) :=
  [(['b', 'l', 'o', 'c', 'k'], .block), (['i', 'n', 'l', 'i', 'n', 'e'], .inline),
    (['n', 'o', 'n', 'e'], .none)]

def splitWhitespace (t : List Char) : List (List Char) := (t.splitOnP isWhitespace).filter (· ≠ [])

def parseValue (prop : Property) (raw : List Char) : Option Value :=
  let raw := trim raw
  match prop with
  | .color | .backgroundColor => (parseColor raw).map .color
  | .display => (displayNames.lookup raw).map .display
  | .width =>
    if eqIgnoreAsciiCase raw ['a', 'u', 't', 'o'] then some .widthAuto
    else (parseLength raw).map fun l => .lengths [l]
  | .fontSize => (parseLength raw).map fun l => .lengths [l]
  | .margin | .padding =>
    ((splitWhitespace raw).mapM parseLength).bind fun lens =>
      if 1 ≤ lens.length ∧ lens.length ≤ 4 then some (.lengths lens) else none

/-! ### The cursor -/

inductive GapMode
  | out | opening | inside | closing

/-- Past white space and comments. A comment that is not closed goes to the end. -/
def skipGap : GapMode → List Char → List Char
  | _, [] => []
  | .out, c :: t =>
    if isWs c then skipGap .out t else if c = '/' ∧ t.head? = some '*' then skipGap .opening t else c :: t
  | .opening, _ :: t => skipGap .inside t
  | .inside, c :: t => if c = '*' ∧ t.head? = some '/' then skipGap .closing t else skipGap .inside t
  | .closing, _ :: t => skipGap .out t

def skipWsAndComments (t : List Char) : List Char := skipGap .out t

def skipBalanced : Nat → List Char → List Char
  | _, [] => []
  | depth, c :: t =>
    if c = '{' then skipBalanced (depth + 1) t
    else if c = '}' then if depth ≤ 1 then t else skipBalanced (depth - 1) t
    else skipBalanced depth t

def skipAtRule : List Char → List Char
  | [] => []
  | c :: t => if c = '{' then skipBalanced 0 (c :: t) else if c = ';' then t else skipAtRule t

def identStart (c : Char) : Bool := c.isAlpha || c = '_' || c = '-'

def identChar (c : Char) : Bool := c.isAlphanum || c = '-' || c = '_'

def takeIdent (t : List Char) : Option (List Char) × List Char :=
  match skipWsAndComments t with
  | [] => (none, [])
  | c :: u =>
    if identStart c then (some ((c :: u.takeWhile identChar).map Char.toLower),
      u.dropWhile identChar) else (none, c :: u)

def takeSelector (t : List Char) : Option Selector × List Char :=
  if t.head? = some '*' then (some .star, t.drop 1)
  else
    match takeIdent t with
    | (none, u) => (none, u)
    | (some name, u) => ((TagName.fromAscii name).map .tag, u)

def takeSelectorsFrom : Nat → List Char → List Selector × List Char
  | 0, t => ([], t)
  | fuel + 1, t =>
    match takeSelector (skipWsAndComments t) with
    | (none, u) => ([], u)
    | (some sel, u) =>
      if (skipWsAndComments u).head? = some ',' then
        let more := takeSelectorsFrom fuel ((skipWsAndComments u).drop 1)
        (sel :: more.1, more.2)
      else ([sel], skipWsAndComments u)

/-- The list is empty where the source has none. -/
def takeSelectors (t : List Char) : List Selector × List Char := takeSelectorsFrom (t.length + 1) t

def endsValue (c : Char) : Bool := c = ';' || c = '}'

def important : List Char := ['!', 'i', 'm', 'p', 'o', 'r', 't', 'a', 'n', 't']

/-- What stands before the first `!important`. -/
def beforeImportant (t : List Char) : List Char := ((breakOn important t).map Prod.fst).getD t

def takeValueText (t : List Char) : List Char × List Char :=
  let u := skipWsAndComments t
  (trimEnd (beforeImportant (u.takeWhile (!endsValue ·))), u.dropWhile (!endsValue ·))

def takeDecl (t : List Char) : Option Decl × List Char :=
  match takeIdent t with
  | (none, u) => (none, u)
  | (some name, u) =>
    if (skipWsAndComments u).head? = some ':' then
      let value := takeValueText ((skipWsAndComments u).drop 1)
      ((propertyFromName name).bind fun prop => (parseValue prop value.1).map (Decl.mk prop), value.2)
    else (none, skipWsAndComments u)

def takeDeclsFrom (end_ : Option Char) : Nat → List Char → List Decl × List Char
  | 0, t => ([], t)
  | fuel + 1, t =>
    let u := skipWsAndComments t
    if u = [] ∨ (end_.isSome ∧ u.head? = end_) then ([], u)
    else
      match takeDecl u with
      | (none, v) => if v.head? = some ';' then takeDeclsFrom end_ fuel (v.drop 1) else ([], v)
      | (some decl, v) =>
        let more := takeDeclsFrom end_ fuel (accept ';' (skipWsAndComments v))
        (decl :: more.1, more.2)

def takeDeclsUntil (end_ : Option Char) (t : List Char) : List Decl × List Char :=
  takeDeclsFrom end_ (t.length + 1) t

def takeRule (t : List Char) : Option Rule × List Char :=
  let selectors := takeSelectors t
  if selectors.1 = [] then (none, selectors.2)
  else if (skipWsAndComments selectors.2).head? = some '{' then
    let decls := takeDeclsUntil (some '}') ((skipWsAndComments selectors.2).drop 1)
    (some ⟨selectors.1, decls.1⟩, accept '}' decls.2)
  else (none, skipWsAndComments selectors.2)

def parseFrom : Nat → List Char → List Rule
  | 0, _ => []
  | fuel + 1, t =>
    let u := skipWsAndComments t
    if u = [] then []
    else if u.head? = some '@' then parseFrom fuel (skipAtRule u)
    else
      match takeRule u with
      | (none, v) => if v = [] then [] else parseFrom fuel (v.drop 1)
      | (some rule, v) =>
        if rule.selectors ≠ [] ∧ rule.decls ≠ [] then rule :: parseFrom fuel v else parseFrom fuel v

def parseStylesheet (input : List Char) : List Rule := parseFrom (input.length + 1) input

/-! ### Every turn takes a character -/

section turns

variable {t u : List Char} {end_ : Option Char}

theorem length_skipGap_le (mode : GapMode) (t : List Char) : (skipGap mode t).length ≤ t.length := by
  induction t generalizing mode with
  | nil => cases mode <;> exact le_rfl
  | cons c t ih =>
    have hstep : ∀ mode, (skipGap mode t).length ≤ (c :: t).length :=
      fun mode => Nat.le_succ_of_le (ih mode)
    cases mode with
    | out =>
      rw [skipGap]
      split
      · exact hstep _
      · split
        · exact hstep _
        · exact le_rfl
    | opening => exact hstep _
    | inside =>
      rw [skipGap]
      split
      · exact hstep _
      · exact hstep _
    | closing => exact hstep _

theorem length_skipWsAndComments_le (t : List Char) : (skipWsAndComments t).length ≤ t.length :=
  length_skipGap_le .out t

theorem length_skipBalanced_le (depth : Nat) (t : List Char) : (skipBalanced depth t).length ≤
    t.length - 1 := by
  induction t generalizing depth with
  | nil => exact le_rfl
  | cons c t ih =>
    rw [skipBalanced, List.length_cons, Nat.add_sub_cancel]
    have hstep : ∀ depth, (skipBalanced depth t).length ≤ t.length :=
      fun depth => (ih depth).trans (Nat.sub_le _ _)
    split
    · exact hstep _
    · split
      · split
        · exact le_rfl
        · exact hstep _
      · exact hstep _

theorem length_skipAtRule_le (t : List Char) : (skipAtRule t).length ≤ t.length - 1 := by
  induction t with
  | nil => exact le_rfl
  | cons c t ih =>
    rw [skipAtRule]
    split
    · exact length_skipBalanced_le 0 (c :: t)
    · rw [List.length_cons, Nat.add_sub_cancel]
      split
      · exact le_rfl
      · exact ih.trans (Nat.sub_le _ _)

theorem length_takeIdent_le (t : List Char) :
    (takeIdent t).2.length ≤ t.length ∧ ((takeIdent t).1.isSome → (takeIdent t).2.length < t.length) := by
  have hskip := length_skipWsAndComments_le t
  unfold takeIdent
  cases hu : skipWsAndComments t with
  | nil => simp
  | cons c u =>
    rw [hu, List.length_cons] at hskip
    have hrest := u.length_dropWhile_le identChar
    dsimp only
    split
    · exact ⟨by dsimp only; omega, fun _ => by dsimp only; omega⟩
    · exact ⟨hskip, fun h => by cases h⟩

theorem length_takeSelector_le (t : List Char) :
    (takeSelector t).2.length ≤ t.length ∧
      ((takeSelector t).1.isSome → (takeSelector t).2.length < t.length) := by
  have hident := length_takeIdent_le t
  unfold takeSelector
  split
  · next hhead =>
    cases t with
    | nil => cases hhead
    | cons c t => simp
  · split
    · next u htake =>
      rw [htake] at hident
      exact ⟨hident.1, fun h => by cases h⟩
    · next name u htake =>
      rw [htake] at hident
      exact ⟨hident.1, fun _ => hident.2 rfl⟩

theorem length_takeSelectorsFrom_le (fuel : Nat) (t : List Char) :
    (takeSelectorsFrom fuel t).2.length ≤ t.length := by
  induction fuel generalizing t with
  | zero => exact le_rfl
  | succ fuel ih =>
    have hskip := length_skipWsAndComments_le t
    have htake := (length_takeSelector_le (skipWsAndComments t)).1
    rw [takeSelectorsFrom]
    split
    · next u hu =>
      rw [hu] at htake
      exact htake.trans hskip
    · next sel u hu =>
      rw [hu] at htake
      have hskip' := length_skipWsAndComments_le u
      dsimp only at htake
      split
      · refine (ih _).trans ?_
        rw [List.length_drop]
        omega
      · dsimp only
        omega

theorem takeSelectorsFrom_eq {fuel : Nat} (h : t.length < fuel) : takeSelectorsFrom fuel t =
    takeSelectors t := by
  have hstable : ∀ n t m, t.length < n → n ≤ m → takeSelectorsFrom m t = takeSelectorsFrom n t := by
    intro n
    induction n with
    | zero =>
      intro t m ht
      cases ht
    | succ n ih =>
      intro t m ht hm
      obtain ⟨m, rfl⟩ : ∃ k, m = k + 1 := ⟨m - 1, by omega⟩
      have hskip := length_skipWsAndComments_le t
      have htake := length_takeSelector_le (skipWsAndComments t)
      rw [takeSelectorsFrom, takeSelectorsFrom]
      split
      · rfl
      · next sel u hu =>
        rw [hu] at htake
        have hlt := htake.2 rfl
        have hskip' := length_skipWsAndComments_le u
        dsimp only at hlt
        split
        · rw [ih _ m (by rw [List.length_drop]; omega) (by omega)]
        · rfl
  exact hstable _ t fuel (Nat.lt_succ_self _) h

theorem takeSelectors_step (t : List Char) : takeSelectors t =
    match takeSelector (skipWsAndComments t) with
    | (none, u) => ([], u)
    | (some sel, u) =>
      if (skipWsAndComments u).head? = some ',' then
        (sel :: (takeSelectors ((skipWsAndComments u).drop 1)).1,
          (takeSelectors ((skipWsAndComments u).drop 1)).2)
      else ([sel], skipWsAndComments u) := by
  have hskip := length_skipWsAndComments_le t
  have htake := length_takeSelector_le (skipWsAndComments t)
  rw [takeSelectors, takeSelectorsFrom]
  split
  · rfl
  · next sel u hu =>
    rw [hu] at htake
    have hlt := htake.2 rfl
    have hskip' := length_skipWsAndComments_le u
    dsimp only at hlt
    split
    · rw [takeSelectorsFrom_eq (by rw [List.length_drop]; omega)]
    · rfl

theorem length_takeValueText_le (t : List Char) : (takeValueText t).2.length ≤ t.length :=
  ((skipWsAndComments t).length_dropWhile_le _).trans (length_skipWsAndComments_le t)

theorem length_takeDecl_le (t : List Char) :
    (takeDecl t).2.length ≤ t.length ∧ ((takeDecl t).1.isSome → (takeDecl t).2.length < t.length) := by
  have hident := length_takeIdent_le t
  unfold takeDecl
  split
  · next u htake =>
    rw [htake] at hident
    exact ⟨hident.1, fun h => by cases h⟩
  · next name u htake =>
    rw [htake] at hident
    have hlt := hident.2 rfl
    have hskip := length_skipWsAndComments_le u
    dsimp only at hlt
    split
    · have hvalue := length_takeValueText_le ((skipWsAndComments u).drop 1)
      rw [List.length_drop] at hvalue
      dsimp only
      exact ⟨by omega, fun _ => by omega⟩
    · exact ⟨by dsimp only; omega, fun h => by cases h⟩

theorem length_takeDeclsFrom_le (fuel : Nat) (t : List Char) :
    (takeDeclsFrom end_ fuel t).2.length ≤ t.length := by
  induction fuel generalizing t with
  | zero => exact le_rfl
  | succ fuel ih =>
    have hskip := length_skipWsAndComments_le t
    have htake := (length_takeDecl_le (skipWsAndComments t)).1
    rw [takeDeclsFrom]
    dsimp only
    split
    · exact hskip
    · split
      · next v hv =>
        rw [hv] at htake
        dsimp only at htake
        split
        · refine (ih _).trans ?_
          rw [List.length_drop]
          omega
        · exact htake.trans hskip
      · next decl v hv =>
        rw [hv] at htake
        have haccept := length_accept_le ';' (skipWsAndComments v)
        have hskip' := length_skipWsAndComments_le v
        dsimp only at htake
        exact (ih _).trans (by omega)

theorem takeDeclsFrom_eq {fuel : Nat} (h : t.length < fuel) : takeDeclsFrom end_ fuel t =
    takeDeclsUntil end_ t := by
  have hstable : ∀ n t m, t.length < n → n ≤ m → takeDeclsFrom end_ m t = takeDeclsFrom end_ n t := by
    intro n
    induction n with
    | zero =>
      intro t m ht
      cases ht
    | succ n ih =>
      intro t m ht hm
      obtain ⟨m, rfl⟩ : ∃ k, m = k + 1 := ⟨m - 1, by omega⟩
      have hskip := length_skipWsAndComments_le t
      have htake := length_takeDecl_le (skipWsAndComments t)
      rw [takeDeclsFrom, takeDeclsFrom]
      dsimp only
      split
      · rfl
      · split
        · next v hv =>
          rw [hv] at htake
          dsimp only at htake
          split
          · next hhead =>
            have hpos : v ≠ [] := by
              rintro rfl
              cases hhead
            have := List.length_pos_of_ne_nil hpos
            rw [ih _ m (by rw [List.length_drop]; omega) (by omega)]
          · rfl
        · next decl v hv =>
          rw [hv] at htake
          have hlt := htake.2 rfl
          have haccept := length_accept_le ';' (skipWsAndComments v)
          have hskip' := length_skipWsAndComments_le v
          dsimp only at hlt
          rw [ih _ m (by omega) (by omega)]
  exact hstable _ t fuel (Nat.lt_succ_self _) h

theorem takeDecls_step (t : List Char) : takeDeclsUntil end_ t =
    if skipWsAndComments t = [] ∨ (end_.isSome ∧ (skipWsAndComments t).head? = end_) then
      ([], skipWsAndComments t)
    else
      match takeDecl (skipWsAndComments t) with
      | (none, v) => if v.head? = some ';' then takeDeclsUntil end_ (v.drop 1) else ([], v)
      | (some decl, v) =>
        (decl :: (takeDeclsUntil end_ (accept ';' (skipWsAndComments v))).1,
          (takeDeclsUntil end_ (accept ';' (skipWsAndComments v))).2) := by
  have hskip := length_skipWsAndComments_le t
  have htake := length_takeDecl_le (skipWsAndComments t)
  rw [takeDeclsUntil, takeDeclsFrom]
  dsimp only
  split
  · rfl
  · split
    · next v hv =>
      rw [hv] at htake
      dsimp only at htake
      split
      · next hhead =>
        have hpos : v ≠ [] := by
          rintro rfl
          cases hhead
        have := List.length_pos_of_ne_nil hpos
        rw [takeDeclsFrom_eq (by rw [List.length_drop]; omega)]
      · rfl
    · next decl v hv =>
      rw [hv] at htake
      have hlt := htake.2 rfl
      have haccept := length_accept_le ';' (skipWsAndComments v)
      have hskip' := length_skipWsAndComments_le v
      dsimp only at hlt
      rw [takeDeclsFrom_eq (by omega)]

theorem length_takeRule_le (t : List Char) :
    (takeRule t).2.length ≤ t.length ∧ ((takeRule t).1.isSome → (takeRule t).2.length < t.length) := by
  have hselectors := length_takeSelectorsFrom_le (t.length + 1) t
  have hskip := length_skipWsAndComments_le (takeSelectors t).2
  have hle : (skipWsAndComments (takeSelectors t).2).length ≤ t.length := hskip.trans hselectors
  unfold takeRule
  dsimp only
  split
  · exact ⟨hselectors, fun h => by cases h⟩
  · split
    · next hhead =>
      have hpos : skipWsAndComments (takeSelectors t).2 ≠ [] := by
        intro hnil
        rw [hnil] at hhead
        cases hhead
      have hlen := List.length_pos_of_ne_nil hpos
      have hdecls : (takeDeclsUntil (some '}') ((skipWsAndComments (takeSelectors t).2).drop 1)).2.length ≤
          ((skipWsAndComments (takeSelectors t).2).drop 1).length := length_takeDeclsFrom_le _ _
      have haccept := length_accept_le '}'
        (takeDeclsUntil (some '}') ((skipWsAndComments (takeSelectors t).2).drop 1)).2
      rw [List.length_drop] at hdecls
      dsimp only
      exact ⟨by omega, fun _ => by omega⟩
    · exact ⟨hle, fun h => by cases h⟩

theorem parseFrom_eq {fuel : Nat} (h : t.length < fuel) : parseFrom fuel t = parseStylesheet t := by
  have hstable : ∀ n t m, t.length < n → n ≤ m → parseFrom m t = parseFrom n t := by
    intro n
    induction n with
    | zero =>
      intro t m ht
      cases ht
    | succ n ih =>
      intro t m ht hm
      obtain ⟨m, rfl⟩ : ∃ k, m = k + 1 := ⟨m - 1, by omega⟩
      have hskip := length_skipWsAndComments_le t
      have htake := length_takeRule_le (skipWsAndComments t)
      have hat := length_skipAtRule_le (skipWsAndComments t)
      rw [parseFrom, parseFrom]
      split
      · rfl
      · next hne =>
        have hpos := List.length_pos_of_ne_nil hne
        split
        · rw [ih _ m (by omega) (by omega)]
        · split
          · next v hv =>
            rw [hv] at htake
            dsimp only at htake
            split
            · rfl
            · next hv' =>
              have := List.length_pos_of_ne_nil hv'
              rw [ih _ m (by rw [List.length_drop]; omega) (by omega)]
          · next rule v hv =>
            rw [hv] at htake
            have hlt := htake.2 rfl
            dsimp only at hlt
            rw [ih _ m (by omega) (by omega)]
  exact hstable _ t fuel (Nat.lt_succ_self _) h

theorem parseStylesheet_step (t : List Char) : parseStylesheet t =
    if skipWsAndComments t = [] then []
    else if (skipWsAndComments t).head? = some '@' then parseStylesheet (skipAtRule (skipWsAndComments t))
    else
      match takeRule (skipWsAndComments t) with
      | (none, v) => if v = [] then [] else parseStylesheet (v.drop 1)
      | (some rule, v) =>
        if rule.selectors ≠ [] ∧ rule.decls ≠ [] then rule :: parseStylesheet v else parseStylesheet v := by
  have hskip := length_skipWsAndComments_le t
  have htake := length_takeRule_le (skipWsAndComments t)
  have hat := length_skipAtRule_le (skipWsAndComments t)
  rw [parseStylesheet, parseFrom]
  split
  · rfl
  · next hne =>
    have hpos := List.length_pos_of_ne_nil hne
    split
    · rw [parseFrom_eq (by omega)]
    · split
      · next v hv =>
        rw [hv] at htake
        dsimp only at htake
        split
        · rfl
        · next hv' =>
          have := List.length_pos_of_ne_nil hv'
          rw [parseFrom_eq (by rw [List.length_drop]; omega)]
      · next rule v hv =>
        rw [hv] at htake
        have hlt := htake.2 rfl
        dsimp only at hlt
        rw [parseFrom_eq (by omega)]

end turns

end Lerux.Web
