import Mathlib.Algebra.Group.Int.Defs
import Mathlib.Data.Int.Order.Basic
import Mathlib.Data.List.TakeWhile
import Mathlib.Tactic.SplitIfs

/-!
# The calculator

`lerux-calc`: `eval` is a recursive descent over the bytes, whose cursor is the text behind it here,
and the functions run on a count of calls that is three times the length of the text (`eval`). The
smallest number divided by -1 overflows, which stops the program (`divide`).
-/

namespace Lerux.Calc

/-! ### Numbers of 64 bits -/

def i64Min : Int := -2 ^ 63

def i64Max : Int := 2 ^ 63 - 1

def saturate (v : Int) : Int := max i64Min (min v i64Max)

/-- Why there is no value. `spent` is no answer of the source: the count of calls is used up. -/
inductive Stop
  | error
  | panic
  | spent
deriving DecidableEq

abbrev Parsed (α : Type) : Type := Except Stop α

instance parsedDecidableEq {α : Type} [DecidableEq α] : DecidableEq (Parsed α)
  | .ok a, .ok b => decidable_of_iff (a = b) (by simp)
  | .error e, .error e' => decidable_of_iff (e = e') (by simp)
  | .ok _, .error _ => isFalse (by simp)
  | .error _, .ok _ => isFalse (by simp)

def divide (value right : Int) : Parsed Int :=
  if right = 0 then .error .error
  else if value = i64Min ∧ right = -1 then .error .panic
  else .ok (value.tdiv right)

/-! ### The bytes of the grammar -/

def space : UInt8 := 32
def openParen : UInt8 := 40
def closeParen : UInt8 := 41
def star : UInt8 := 42
def plus : UInt8 := 43
def minus : UInt8 := 45
def slash : UInt8 := 47

def isDigit (b : UInt8) : Bool := 48 ≤ b && b ≤ 57

def digitValue (b : UInt8) : Nat := b.toNat - 48

/-! ### The parser -/

def skip (s : List UInt8) : List UInt8 := s.dropWhile (· = space)

def parseNumber (value : Int) : List UInt8 → Int × List UInt8
  | [] => (value, [])
  | b :: s =>
    if isDigit b then parseNumber (saturate (saturate (value * 10) + digitValue b)) s else (value, b :: s)

mutual

def parseExpr : Nat → List UInt8 → Parsed (Int × List UInt8)
  | 0, _ => .error .spent
  | calls + 1, s => do
    let (value, s) ← parseTerm calls s
    exprLoop calls value s

/-- The loop of `parse_expr`. -/
def exprLoop : Nat → Int → List UInt8 → Parsed (Int × List UInt8)
  | 0, _, _ => .error .spent
  | calls + 1, value, s =>
    match skip s with
    | [] => .ok (value, [])
    | b :: s =>
      if b = plus then do
        let (right, s) ← parseTerm calls s
        exprLoop calls (saturate (value + right)) s
      else if b = minus then do
        let (right, s) ← parseTerm calls s
        exprLoop calls (saturate (value - right)) s
      else .ok (value, b :: s)

def parseTerm : Nat → List UInt8 → Parsed (Int × List UInt8)
  | 0, _ => .error .spent
  | calls + 1, s => do
    let (value, s) ← parseFactor calls s
    termLoop calls value s

/-- The loop of `parse_term`. -/
def termLoop : Nat → Int → List UInt8 → Parsed (Int × List UInt8)
  | 0, _, _ => .error .spent
  | calls + 1, value, s =>
    match skip s with
    | [] => .ok (value, [])
    | b :: s =>
      if b = star then do
        let (right, s) ← parseFactor calls s
        termLoop calls (saturate (value * right)) s
      else if b = slash then do
        let (right, s) ← parseFactor calls s
        let value ← divide value right
        termLoop calls value s
      else .ok (value, b :: s)

def parseFactor : Nat → List UInt8 → Parsed (Int × List UInt8)
  | 0, _ => .error .spent
  | calls + 1, s =>
    match skip s with
    | [] => .error .error
    | b :: s =>
      if b = openParen then do
        let (value, s) ← parseExpr calls s
        if (skip s).head? = some closeParen then .ok (value, (skip s).drop 1) else .error .error
      else if b = plus then parseFactor calls s
      else if b = minus then do
        let (value, s) ← parseFactor calls s
        .ok (saturate (-value), s)
      else if isDigit b then .ok (parseNumber 0 (b :: s))
      else .error .error

end

def eval (input : List UInt8) : Parsed Int := do
  let (value, s) ← parseExpr (3 * input.length + 3) input
  if skip s = [] then .ok value else .error .error

/-! ### The grammar -/

inductive Token
  | number (digits : List UInt8)
  | plus
  | minus
  | star
  | slash
  | openParen
  | closeParen
  | other (b : UInt8)
deriving DecidableEq

/-- The token of a byte that is neither a space nor a digit. -/
def punctuation (b : UInt8) : Token :=
  if b = plus then .plus
  else if b = minus then .minus
  else if b = star then .star
  else if b = slash then .slash
  else if b = openParen then .openParen
  else if b = closeParen then .closeParen
  else .other b

/-- A digit before the tokens of a text, where the text goes on with the number. -/
def consDigit (b : UInt8) (more : Bool) : List Token → List Token
  | .number digits :: rest => if more then .number (b :: digits) :: rest
      else .number [b] :: .number digits :: rest
  | rest => .number [b] :: rest

/-- The tokens of a text: digits without a space between them are one number, and spaces are nothing
else. -/
def tokens : List UInt8 → List Token
  | [] => []
  | b :: s =>
    if b = space then tokens s
    else if isDigit b then consDigit b (s.head?.any isDigit) (tokens s)
    else punctuation b :: tokens s

def decimal (digits : List UInt8) : Nat := digits.foldl (fun n b => 10 * n + digitValue b) 0

inductive Stage
  | sum
  | product
  | factor

/-- Sums are products with `+` and `-` between them, products are factors with `*` and `/`, and a
factor is a number, a sum in parentheses, or a factor with a sign; with the values, from the left.
-/
inductive Derives : Stage → List Token → Int → Prop
  | number {digits : List UInt8} : Derives .factor [.number digits] (min (decimal digits) i64Max)
  | paren {ts : List Token} {v : Int} : Derives .sum ts v →
      Derives .factor (.openParen :: (ts ++ [.closeParen])) v
  | positive {ts : List Token} {v : Int} : Derives .factor ts v → Derives .factor (.plus :: ts) v
  | negative {ts : List Token} {v : Int} : Derives .factor ts v → Derives .factor (.minus :: ts)
      (saturate (-v))
  | factor {ts : List Token} {v : Int} : Derives .factor ts v → Derives .product ts v
  | times {ts us : List Token} {v w : Int} : Derives .product ts v → Derives .factor us w →
      Derives .product (ts ++ .star :: us) (saturate (v * w))
  | divided {ts us : List Token} {v w : Int} : Derives .product ts v → Derives .factor us w → w ≠ 0 →
      Derives .product (ts ++ .slash :: us) (v.tdiv w)
  | product {ts : List Token} {v : Int} : Derives .product ts v → Derives .sum ts v
  | add {ts us : List Token} {v w : Int} : Derives .sum ts v → Derives .product us w →
      Derives .sum (ts ++ .plus :: us) (saturate (v + w))
  | sub {ts us : List Token} {v w : Int} : Derives .sum ts v → Derives .product us w →
      Derives .sum (ts ++ .minus :: us) (saturate (v - w))

/-- The tokens between the beginning of one part of the grammar and that of a part of it, all before
which is derived. -/
inductive Leads : Stage → Stage → List Token → Prop
  | here {st : Stage} : Leads st st []
  | paren {st : Stage} {ts : List Token} : Leads st .factor ts → Leads st .sum (ts ++ [.openParen])
  | sign {st : Stage} {ts : List Token} {sign : Token} : Leads st .factor ts →
      sign = .plus ∨ sign = .minus →
      Leads st .factor (ts ++ [sign])
  | firstProduct {st : Stage} {ts : List Token} : Leads st .sum ts → Leads st .product ts
  | nextProduct {st : Stage} {ts us : List Token} {v : Int} {op : Token} : Leads st .sum ts →
      Derives .sum us v →
      op = .plus ∨ op = .minus → Leads st .product (ts ++ us ++ [op])
  | firstFactor {st : Stage} {ts : List Token} : Leads st .product ts → Leads st .factor ts
  | nextFactor {st : Stage} {ts us : List Token} {v : Int} {op : Token} : Leads st .product ts →
      Derives .product us v →
      op = .star ∨ op = .slash → Leads st .factor (ts ++ us ++ [op])

/-- Somewhere, behind tokens without an error, the smallest number is divided by -1. -/
def Overflows (st : Stage) (ts : List Token) : Prop :=
  ∃ before us vs after, ts = before ++ us ++ .slash :: (vs ++ after) ∧ Leads st .product before ∧
    Derives .product us i64Min ∧ Derives .factor vs (-1)

end Lerux.Calc
