import Lerux.Base.Text

/-!
# The tokenizer of the HTML subset

The scanner of `token.rs`. Its cursor is the text behind it: a function of the scanner gives what it
takes and the text that is left. The source compares bytes with ASCII delimiters only and cuts at
them, so that a text is its characters here. The two loops with a cursor (`takeAttrs`, `tokenize`)
run on a count of turns, which is the length of the text; every turn takes a character at least
(`tokenize_step`, `takeAttrs_step`).
-/

namespace Lerux.Html

/-! ### Tag names -/

inductive TagName
  | html | head | body | title | p | h1 | h2 | h3 | a | div | span | ul | ol | li | pre | code | strong | em | img | style
deriving DecidableEq, Repr

namespace TagName

def all : List TagName :=
  [html, head, body, title, p, h1, h2, h3, a, div, span, ul, ol, li, pre, code, strong, em, img, style]

def asStr : TagName → List Char
  | html => ['h', 't', 'm', 'l']
  | head => ['h', 'e', 'a', 'd']
  | body => ['b', 'o', 'd', 'y']
  | title => ['t', 'i', 't', 'l', 'e']
  | p => ['p']
  | h1 => ['h', '1']
  | h2 => ['h', '2']
  | h3 => ['h', '3']
  | a => ['a']
  | div => ['d', 'i', 'v']
  | span => ['s', 'p', 'a', 'n']
  | ul => ['u', 'l']
  | ol => ['o', 'l']
  | li => ['l', 'i']
  | pre => ['p', 'r', 'e']
  | code => ['c', 'o', 'd', 'e']
  | strong => ['s', 't', 'r', 'o', 'n', 'g']
  | em => ['e', 'm']
  | img => ['i', 'm', 'g']
  | style => ['s', 't', 'y', 'l', 'e']

/-- A name in either case; a name of more than 16 bytes is none. -/
def fromAscii (name : List Char) : Option TagName :=
  if name = [] ∨ 16 < name.length then none else all.find? fun tag => tag.asStr = name.map Char.toLower

def isVoid : TagName → Bool
  | img => true
  | _ => false

def isRawText : TagName → Bool
  | style => true
  | _ => false

def preservesWhitespace : TagName → Bool
  | pre | style | code | title => true
  | _ => false

def endTagBytes : TagName → List Char
  | style => ['<', '/', 's', 't', 'y', 'l', 'e']
  | _ => ['<', '/']

end TagName

structure Attr where
  name : List Char
  value : List Char
deriving DecidableEq, Repr

inductive Token
  | start (name : TagName) (attrs : List Attr) (selfClosing : Bool)
  | end_ (name : TagName)
  | text (s : List Char)
deriving DecidableEq, Repr

/-! ### The scanner -/

def isWs (c : Char) : Bool := c = ' ' || c = '\t' || c = '\n' || c = '\r'

def isAttrNameChar (c : Char) : Bool := c.isAlphanum || c = '-' || c = '_' || c = ':'

def startsIgnoreAscii (t pre : List Char) : Bool :=
  pre.length ≤ t.length && eqIgnoreAsciiCase (t.take pre.length) pre

def skipWs (t : List Char) : List Char := t.dropWhile isWs

def skipUntil (needle : Char) : List Char → List Char
  | [] => []
  | c :: t => if c = needle then t else skipUntil needle t

/-- What stands before the first place where the text starts with `pre`, and the text from there. -/
def untilStart (pre : List Char) : List Char → List Char × List Char
  | [] => ([], [])
  | c :: t =>
    if startsIgnoreAscii (c :: t) pre then ([], c :: t)
    else (c :: (untilStart pre t).1, (untilStart pre t).2)

def skipComment (t : List Char) : List Char := (untilStart ['-', '-', '>'] (t.drop 4)).2.drop 3

def takeText (t : List Char) : Option (List Char × List Char) :=
  if t.takeWhile (· ≠ '<') = [] then none else some (t.takeWhile (· ≠ '<'), t.dropWhile (· ≠ '<'))

def isNameChar (c : Char) : Bool := c.isAlphanum || c = '-'

def takeName : List Char → Option (List Char × List Char)
  | [] => none
  | first :: t => if first.isAlpha then some (first :: t.takeWhile isNameChar,
      t.dropWhile isNameChar) else none

def takeAttrName (t : List Char) : Option (List Char × List Char) :=
  if t.takeWhile isAttrNameChar = [] then none
  else some ((t.takeWhile isAttrNameChar).map Char.toLower, t.dropWhile isAttrNameChar)

/-- Ends a value without quotes. A `/` ends it too. -/
def endsValue (c : Char) : Bool := isWs c || c = '>' || c = '/'

def takeAttrValue (t : List Char) : List Char × List Char :=
  if t.head? = some '"' then
    ((t.drop 1).takeWhile (· ≠ '"'), ((t.drop 1).dropWhile (· ≠ '"')).drop 1)
  else if t.head? = some '\'' then
    ((t.drop 1).takeWhile (· ≠ '\''), ((t.drop 1).dropWhile (· ≠ '\'')).drop 1)
  else (t.takeWhile (!endsValue ·), t.dropWhile (!endsValue ·))

/-- The value of an attribute whose name is read: empty unless there is a `=`. -/
def takeValue (t : List Char) : List Char × List Char :=
  if t.head? = some '=' then takeAttrValue (skipWs (t.drop 1)) else ([], t)

def takeAttrsFrom : Nat → List Char → List Attr × List Char
  | 0, t => ([], t)
  | fuel + 1, t =>
    if (skipWs t).head? = none ∨ (skipWs t).head? = some '>' ∨ (skipWs t).head? = some '/' then
      ([], skipWs t)
    else
      match takeAttrName (skipWs t) with
      | none => ([], skipWs t)
      | some (name, u) =>
        let value := takeValue (skipWs u)
        let more := takeAttrsFrom fuel value.2
        (⟨name, value.1⟩ :: more.1, more.2)

def takeAttrs (t : List Char) : List Attr × List Char := takeAttrsFrom t.length t

def skipTagTail : Option Char → List Char → List Char
  | _, [] => []
  | some q, c :: t => skipTagTail (if c = q then none else some q) t
  | none, c :: t =>
    if c = '"' ∨ c = '\'' then skipTagTail (some c) t else if c = '>' then t else skipTagTail none t

/-- Past one character if it is next. -/
def accept (c : Char) (t : List Char) : List Char := if t.head? = some c then t.drop 1 else t

/-- The end of a start tag behind its attributes. -/
def takeClose (t : List Char) : Bool × List Char :=
  ((skipWs t).head? = some '/', accept '>' (skipWs (accept '/' (skipWs t))))

def takeTag (t : List Char) : Option Token × List Char :=
  let inside := t.drop 1
  let isEnd := inside.head? = some '/'
  match takeName (accept '/' inside) with
  | none => (some (.text ['<']), inside)
  | some (name, u) =>
    match TagName.fromAscii name with
    | none => (none, skipTagTail none u)
    | some tag =>
      if isEnd then (some (.end_ tag), accept '>' (skipWs u))
      else
        let attrs := takeAttrs u
        let close := takeClose attrs.2
        (some (.start tag attrs.1 (close.1 || tag.isVoid)), close.2)

/-- The text of an element whose contents are text, with the end tag that ends it. -/
def takeRawText (name : TagName) (t : List Char) : List Token × List Char :=
  let raw := untilStart name.endTagBytes t
  let out := if raw.1 = [] then [] else [.text raw.1]
  if raw.2 = [] then (out, []) else (out ++ (takeTag raw.2).1.toList, (takeTag raw.2).2)

/-- The tokens of one turn of the loop. -/
def next (t : List Char) : List Token × List Char :=
  if t.head? = some '<' then
    if startsIgnoreAscii t ['<', '!', '-', '-'] then ([], skipComment t)
    else if startsIgnoreAscii t ['<', '!', 'd', 'o', 'c', 't', 'y', 'p', 'e'] then ([], skipUntil '>' t)
    else
      match takeTag t with
      | (none, u) => ([], u)
      | (some (.start name attrs selfClosing), u) =>
        if name.isRawText then (.start name attrs selfClosing :: (takeRawText name u).1,
          (takeRawText name u).2)
        else ([.start name attrs selfClosing], u)
      | (some tok, u) => ([tok], u)
  else
    match takeText t with
    | some (text, u) => ([.text text], u)
    | none => ([], t)

def tokenizeFrom : Nat → List Char → List Token
  | 0, _ => []
  | fuel + 1, t => if t = [] then [] else (next t).1 ++ tokenizeFrom fuel (next t).2

def tokenize (input : List Char) : List Token := tokenizeFrom input.length input

/-! ### Every turn takes a character -/

theorem isWs_iff (c : Char) : isWs c = true ↔ c = ' ' ∨ c = '\t' ∨ c = '\n' ∨ c = '\r' := by
  simp [isWs, or_assoc]

section turns

variable {t u pre : List Char} {name : TagName}

theorem length_skipWs_le (t : List Char) : (skipWs t).length ≤ t.length := t.length_dropWhile_le _

theorem length_accept_le (c : Char) (t : List Char) : (accept c t).length ≤ t.length := by
  unfold accept
  split
  · simp
  · exact le_rfl

theorem accept_cons (c : Char) (t : List Char) : accept c (c :: t) = t := if_pos List.head?_cons

theorem accept_other {c d : Char} (h : d ≠ c) (t : List Char) : accept c (d :: t) = d :: t := by
  rw [accept, if_neg]
  rw [List.head?_cons, Option.some_inj]
  exact h

theorem length_skipUntil_le (c : Char) (t : List Char) : (skipUntil c t).length ≤ t.length - 1 := by
  induction t with
  | nil => exact le_rfl
  | cons d t ih =>
    rw [skipUntil, List.length_cons, Nat.add_sub_cancel]
    split
    · exact le_rfl
    · omega

theorem length_untilStart_le (pre t : List Char) : (untilStart pre t).2.length ≤ t.length := by
  induction t with
  | nil => exact le_rfl
  | cons c t ih =>
    rw [untilStart]
    split
    · exact le_rfl
    · simpa using Nat.le_succ_of_le ih

theorem length_skipTagTail_le (q : Option Char) (t : List Char) : (skipTagTail q t).length ≤ t.length := by
  induction t generalizing q with
  | nil => cases q <;> exact le_rfl
  | cons c t ih =>
    cases q with
    | some q => exact Nat.le_succ_of_le (ih _)
    | none =>
      rw [skipTagTail]
      split
      · exact Nat.le_succ_of_le (ih _)
      · split
        · exact Nat.le_succ _
        · exact Nat.le_succ_of_le (ih _)

theorem length_takeName_lt {s : List Char} (h : takeName t = some (s, u)) : u.length < t.length := by
  cases t with
  | nil => cases h
  | cons c t =>
    rw [takeName] at h
    split at h
    · cases h
      exact Nat.lt_succ_of_le (t.length_dropWhile_le _)
    · cases h

theorem length_takeAttrName_lt {s : List Char} (h : takeAttrName t = some (s, u)) :
    u.length < t.length := by
  unfold takeAttrName at h
  split at h
  · cases h
  · next hne =>
    cases h
    have hsplit := congrArg List.length (@List.takeWhile_append_dropWhile _ isAttrNameChar t)
    have hpos := List.length_pos_of_ne_nil hne
    rw [List.length_append] at hsplit
    omega

theorem length_takeAttrValue_le (t : List Char) : (takeAttrValue t).2.length ≤ t.length := by
  have hquoted : ∀ q : Char, (((t.drop 1).dropWhile (· ≠ q)).drop 1).length ≤ t.length := by
    intro q
    have := (t.drop 1).length_dropWhile_le (· ≠ q)
    simp only [List.length_drop] at this ⊢
    omega
  unfold takeAttrValue
  split
  · exact hquoted _
  · split
    · exact hquoted _
    · exact t.length_dropWhile_le _

theorem length_takeValue_le (t : List Char) : (takeValue t).2.length ≤ t.length := by
  unfold takeValue
  split
  · have hvalue := length_takeAttrValue_le (skipWs (t.drop 1))
    have hws := length_skipWs_le (t.drop 1)
    rw [List.length_drop] at hws
    omega
  · exact le_rfl

theorem length_takeAttrsFrom_le (fuel : Nat) (t : List Char) : (takeAttrsFrom fuel t).2.length ≤
    t.length := by
  induction fuel generalizing t with
  | zero => exact le_rfl
  | succ fuel ih =>
    have hws := length_skipWs_le t
    rw [takeAttrsFrom]
    split
    · exact hws
    · split
      · exact hws
      · next s u hname =>
        have hlt := length_takeAttrName_lt hname
        have hws' := length_skipWs_le u
        have hvalue := length_takeValue_le (skipWs u)
        have hrest := ih (takeValue (skipWs u)).2
        exact hrest.trans (by omega)

theorem length_takeClose_le (t : List Char) : (takeClose t).2.length ≤ t.length :=
  (length_accept_le _ _).trans ((length_skipWs_le _).trans
    ((length_accept_le _ _).trans (length_skipWs_le t)))

theorem length_takeTag_le (t : List Char) : (takeTag t).2.length ≤ t.length - 1 := by
  have hinside : (t.drop 1).length = t.length - 1 := List.length_drop
  unfold takeTag
  dsimp only
  split
  · exact hinside.le
  · next s u hname =>
    have hlt := length_takeName_lt hname
    have haccept := length_accept_le '/' (t.drop 1)
    split
    · exact (length_skipTagTail_le none u).trans (by omega)
    · split
      · have h := (length_accept_le '>' (skipWs u)).trans (length_skipWs_le u)
        exact h.trans (by omega)
      · have h := (length_takeClose_le (takeAttrs u).2).trans (length_takeAttrsFrom_le u.length u)
        exact h.trans (by omega)

theorem length_takeRawText_le (name : TagName) (t : List Char) : (takeRawText name t).2.length ≤
    t.length := by
  have huntil := length_untilStart_le name.endTagBytes t
  unfold takeRawText
  dsimp only
  split
  · exact Nat.zero_le _
  · have htag := length_takeTag_le (untilStart name.endTagBytes t).2
    exact htag.trans (by omega)

theorem length_next_lt (hne : t ≠ []) : (next t).2.length < t.length := by
  have hpos := List.length_pos_of_ne_nil hne
  have htag := length_takeTag_le t
  unfold next
  split
  · split
    · have huntil := length_untilStart_le ['-', '-', '>'] (t.drop 4)
      rw [skipComment]
      simp only [List.length_drop] at huntil ⊢
      omega
    · split
      · have := length_skipUntil_le '>' t
        dsimp only
        omega
      · cases htake : takeTag t with
        | mk token u =>
          rw [htake] at htag
          dsimp only at htag
          cases token with
          | none =>
            dsimp only
            omega
          | some token =>
            cases token with
            | start name attrs selfClosing =>
              dsimp only
              split
              · have := length_takeRawText_le name u
                dsimp only
                omega
              · dsimp only
                omega
            | end_ name =>
              dsimp only
              omega
            | text s =>
              dsimp only
              omega
  · next hhead =>
    unfold takeText
    cases t with
    | nil => cases hpos
    | cons c t =>
      have hc : (c ≠ '<') := by simpa using hhead
      have := t.length_dropWhile_le (· ≠ '<')
      simp only [hc, ne_eq, not_false_eq_true, decide_true, List.takeWhile_cons_of_pos,
        List.dropWhile_cons_of_pos,
        reduceCtorEq, if_false, List.length_cons]
      exact Nat.lt_succ_of_le this

theorem tokenizeFrom_eq {fuel : Nat} (h : t.length ≤ fuel) : tokenizeFrom fuel t = tokenize t := by
  have hstable : ∀ n t m, t.length ≤ n → n ≤ m → tokenizeFrom m t = tokenizeFrom n t := by
    intro n
    induction n with
    | zero =>
      intro t m ht _
      obtain rfl : t = [] := List.eq_nil_of_length_eq_zero (Nat.le_zero.mp ht)
      cases m <;> rfl
    | succ n ih =>
      intro t m ht hm
      obtain ⟨m, rfl⟩ : ∃ k, m = k + 1 := ⟨m - 1, by omega⟩
      rw [tokenizeFrom, tokenizeFrom]
      split
      · rfl
      · next hne =>
        have hlt := length_next_lt hne
        rw [ih _ m (by omega) (by omega)]
  exact hstable _ t fuel le_rfl h

/-- The count of turns never ends the loop. -/
theorem tokenize_step (hne : t ≠ []) : tokenize t = (next t).1 ++ tokenize (next t).2 := by
  have hlt := length_next_lt hne
  obtain ⟨n, hn⟩ : ∃ n, t.length = n + 1 := ⟨t.length - 1, by omega⟩
  rw [tokenize, hn, tokenizeFrom, if_neg hne, tokenizeFrom_eq (by omega)]

theorem takeAttrsFrom_eq {fuel : Nat} (h : t.length ≤ fuel) : takeAttrsFrom fuel t = takeAttrs t := by
  have hstable : ∀ n t m, t.length ≤ n → n ≤ m → takeAttrsFrom m t = takeAttrsFrom n t := by
    intro n
    induction n with
    | zero =>
      intro t m ht _
      obtain rfl : t = [] := List.eq_nil_of_length_eq_zero (Nat.le_zero.mp ht)
      cases m <;> rfl
    | succ n ih =>
      intro t m ht hm
      obtain ⟨m, rfl⟩ : ∃ k, m = k + 1 := ⟨m - 1, by omega⟩
      rw [takeAttrsFrom, takeAttrsFrom]
      split
      · rfl
      · split
        · rfl
        · next s u hname =>
          have hlt := length_takeAttrName_lt hname
          have hws := length_skipWs_le t
          have hws' := length_skipWs_le u
          have hvalue := length_takeValue_le (skipWs u)
          dsimp only
          rw [ih _ m (by omega) (by omega)]
  exact hstable _ t fuel le_rfl h

theorem takeAttrs_step {s : List Char} (hhead : (skipWs t).head? ≠ some '>' ∧ (skipWs t).head? ≠ some '/')
    (hname : takeAttrName (skipWs t) = some (s, u)) :
    takeAttrs t = (⟨s, (takeValue (skipWs u)).1⟩ :: (takeAttrs (takeValue (skipWs u)).2).1,
      (takeAttrs (takeValue (skipWs u)).2).2) := by
  have hlt := length_takeAttrName_lt hname
  have hws := length_skipWs_le t
  have hws' := length_skipWs_le u
  have hvalue := length_takeValue_le (skipWs u)
  have hne : (skipWs t).head? ≠ none := by
    intro hnone
    rw [List.head?_eq_none_iff.mp hnone] at hlt
    cases hlt
  obtain ⟨n, hn⟩ : ∃ n, t.length = n + 1 := ⟨t.length - 1, by omega⟩
  rw [takeAttrs, hn, takeAttrsFrom, if_neg (by tauto), hname]
  dsimp only
  rw [takeAttrsFrom_eq (by omega)]

/-- The attributes end where a `>` or a `/` is next. -/
theorem takeAttrs_end (hhead : (skipWs t).head? = some '>' ∨ (skipWs t).head? = some '/') :
    takeAttrs t = ([], skipWs t) := by
  have hws := length_skipWs_le t
  have hne : skipWs t ≠ [] := by
    intro hnil
    simp [hnil] at hhead
  have hpos := List.length_pos_of_ne_nil hne
  obtain ⟨n, hn⟩ : ∃ n, t.length = n + 1 := ⟨t.length - 1, by omega⟩
  rw [takeAttrs, hn, takeAttrsFrom, if_pos (by tauto)]

end turns

end Lerux.Html
