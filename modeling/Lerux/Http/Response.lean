import Lerux.Base.Checked
import Lerux.Base.Search
import Mathlib

/-!
# Reading a response

`copy_body` and `content_length` of `sddf-agent/src/net.rs`; `sddf-shell/src/net.rs` has the same
text. The length of a body is what follows the first `Content-Length: ` in the head, wherever that
stands.

`Head` is a response head as the protocol has it: a status line, and fields with names in any letter
case and blanks around their values. `copyBody_exact` says for which heads the body is read as the
head's own length says.
-/

namespace Lerux.Http

open Lerux.Base

abbrev Byte := UInt8

/-- The bytes of a text. -/
def bytes (s : String) : List Byte := s.toList.map fun c => UInt8.ofNat c.toNat

def crlf : List Byte := [13, 10]

def blankLine : List Byte := crlf ++ crlf

def key : List Byte := bytes "Content-Length: "

/-- `is_ascii_digit`. -/
def isDigit (b : Byte) : Bool := 48 ≤ b && b ≤ 57

/-- The loop of `content_length`: the value so far, and whether there has been a digit. -/
def digits : List Byte → Nat → Bool → Option (Nat × Bool)
  | [], value, saw => some (value, saw)
  | b :: rest, value, saw =>
    if !isDigit b then some (value, saw)
    else do
      let value ← checkedMul 64 value 10
      let value ← checkedAdd 64 value (b - 48).toNat
      digits rest value true

/-- `content_length`. -/
def contentLength (headers : List Byte) : Option Nat := do
  let start ← position key headers
  let (value, saw) ← digits (headers.drop (start + key.length)) 0 false
  if saw then some value else none

/-- `copy_body`: the length, and the output afterwards. -/
def copyBody (raw out : List Byte) : Option (Nat × List Byte) := do
  let split ← position blankLine raw
  let len ← contentLength (raw.take split)
  let body ← if split + 4 ≤ raw.length then some (raw.drop (split + 4)) else none
  if body.length < len ∨ out.length < len then none
  else some (len, body.take len ++ out.drop len)

/-! ### Response heads -/

/-- The bytes of a field name. -/
def isToken (b : Byte) : Bool :=
  isDigit b || (65 ≤ b && b ≤ 90) || (97 ≤ b && b ≤ 122) ||
    [33, 35, 36, 37, 38, 39, 42, 43, 45, 46, 94, 95, 96, 124, 126].contains b

def isBlank (b : Byte) : Bool := b = 32 || b = 9

/-- The bytes of a field value and of a reason. -/
def isText (b : Byte) : Bool := b = 9 || (32 ≤ b && b ≠ 127)

def lower (b : Byte) : Byte := if 65 ≤ b ∧ b ≤ 90 then b + 32 else b

/-- A header field. -/
structure Field where
  name : List Byte
  before : List Byte
  value : List Byte
  after : List Byte
  named : name ≠ []
  token : ∀ b ∈ name, isToken b = true
  blankBefore : ∀ b ∈ before, isBlank b = true
  text : ∀ b ∈ value, isText b = true
  blankAfter : ∀ b ∈ after, isBlank b = true
  trimmed : (∀ b ∈ value.head?, isBlank b = false) ∧ ∀ b ∈ value.getLast?, isBlank b = false

def Field.line (f : Field) : List Byte := f.name ++ 58 :: (f.before ++ f.value ++ f.after)

/-- Field names are the same in either letter case. -/
def Field.isContentLength (f : Field) : Bool := f.name.map lower = bytes "content-length"

/-- The number a row of digits writes, after those that wrote `value`. -/
def decimalFrom (value : Nat) (ds : List Byte) : Nat :=
  ds.foldl (fun value b => value * 10 + (b - 48).toNat) value

def decimal (ds : List Byte) : Nat := decimalFrom 0 ds

/-- A response head. -/
structure Head where
  code : List Byte
  reason : List Byte
  fields : List Field
  three : code.length = 3 ∧ ∀ b ∈ code, isDigit b = true
  text : ∀ b ∈ reason, isText b = true
  once : (fields.filter Field.isContentLength).length ≤ 1
  numeric : ∀ f ∈ fields, f.isContentLength = true → f.value ≠ [] ∧ ∀ b ∈ f.value, isDigit b = true

namespace Head

def statusLine (h : Head) : List Byte := bytes "HTTP/1.1 " ++ h.code ++ 32 :: h.reason

def lines (h : Head) : List (List Byte) := h.statusLine :: h.fields.map Field.line

/-- The head as it is sent. -/
def sent (h : Head) : List Byte := List.intercalate crlf h.lines ++ blankLine

/-- The value of the field. -/
def contentLength (h : Head) : Option Nat :=
  (h.fields.find? Field.isContentLength).map fun f => decimal f.value

end Head

/-- The body is read as the head says: `n` bytes of it, if the head has that length and both the
body and the output do. -/
def Reads (h : Head) (body out : List Byte) : Prop :=
  ∀ n out', copyBody (h.sent ++ body) out = some (n, out') ↔
    h.contentLength = some n ∧ n ≤ body.length ∧ n ≤ out.length ∧ out' = body.take n ++ out.drop n

/-- A text begins with digits, and they write `n`. -/
def Begins (t : List Byte) (n : Nat) : Prop := t.takeWhile isDigit ≠ [] ∧ decimal (t.takeWhile isDigit) = n

/-- The first place in the head where `Content-Length: ` stands is followed by the number `n`. -/
def Announces (lines : List (List Byte)) (n : Nat) : Prop :=
  ∃ ls line rest before after, lines = ls ++ line :: rest ∧ (∀ l ∈ ls, ¬key <:+: l) ∧
    line = before ++ key ++ after ∧ (∀ m < before.length, ¬key <+: line.drop m) ∧ Begins after n

/-! ### The digits -/

theorem le_decimalFrom (value : Nat) (ds : List Byte) : value ≤ decimalFrom value ds := by
  induction ds generalizing value with
  | nil => exact le_rfl
  | cons b ds ih =>
    have := ih (value * 10 + (b - 48).toNat)
    rw [decimalFrom, List.foldl_cons]
    rw [decimalFrom] at this
    omega

/-- The loop reads the digits it finds, unless they write too large a number. -/
theorem digits_eq (t : List Byte) (value : Nat) (saw : Bool) (hv : value < 2 ^ 64) :
    digits t value saw = if decimalFrom value (t.takeWhile isDigit) < 2 ^ 64 then
      some (decimalFrom value (t.takeWhile isDigit), saw || !(t.takeWhile isDigit).isEmpty) else none := by
  induction t generalizing value saw with
  | nil =>
    have hlt : decimalFrom value [] < 2 ^ 64 := hv
    rw [List.takeWhile_nil, if_pos hlt]
    simp [digits, decimalFrom]
  | cons b t ih =>
    rw [digits, List.takeWhile_cons]
    cases hb : isDigit b with
    | false =>
      have hlt : decimalFrom value [] < 2 ^ 64 := hv
      simp only [Bool.not_false, if_true, Bool.false_eq_true, if_false, if_pos hlt]
      simp [decimalFrom]
    | true =>
      have hle := le_decimalFrom (value * 10 + (b - 48).toNat) (t.takeWhile isDigit)
      simp only [Bool.not_true, Bool.false_eq_true, if_false, if_true, List.isEmpty_cons,
        Bool.not_false, Bool.or_true]
      have hstep : decimalFrom value (b :: t.takeWhile isDigit) =
          decimalFrom (value * 10 + (b - 48).toNat) (t.takeWhile isDigit) := rfl
      rw [hstep]
      by_cases hmul : value * 10 < 2 ^ 64
      · by_cases hadd : value * 10 + (b - 48).toNat < 2 ^ 64
        · simp only [checkedMul, if_pos hmul, checkedAdd, if_pos hadd, Option.bind_eq_bind,
            Option.bind_some]
          rw [ih _ true hadd]
          simp
        · rw [if_neg (by omega)]
          simp only [checkedMul, if_pos hmul, Option.bind_eq_bind, Option.bind_some, checkedAdd,
            if_neg hadd, Option.bind_none]
      · rw [if_neg (by omega), checkedMul, if_neg hmul]
        rfl

theorem key_ne_nil : key ≠ [] := by decide

/-- The length the code finds in a text. -/
theorem contentLength_eq_some (t : List Byte) (n : Nat) :
    contentLength t = some n ↔ n < 2 ^ 64 ∧ ∃ u, following key t = some u ∧ Begins u n := by
  rw [contentLength, following]
  cases position key t with
  | none => simp
  | some start =>
    simp only [Option.bind_eq_bind, Option.bind_some, Option.map_some, Option.some.injEq, exists_eq_left']
    rw [digits_eq _ 0 false (by decide), Begins, decimal]
    split
    · rename_i hlt
      cases hd : ((t.drop (start + key.length)).takeWhile isDigit) with
      | nil => simp
      | cons b ds =>
        rw [hd] at hlt
        simp only [List.isEmpty_cons, Bool.not_false, Bool.or_true, if_true, Option.bind_some,
          Option.some.injEq, ne_eq,
          reduceCtorEq, not_false_eq_true, true_and]
        constructor
        · rintro rfl
          exact ⟨hlt, rfl⟩
        · exact fun h => h.2
    · rename_i hlt
      simp only [Option.bind_none, reduceCtorEq, false_iff, not_and]
      rintro hn - rfl
      exact hlt hn

/-! ### The lines of a head -/

theorem isText_ne {b : Byte} (h : isText b = true) : b ≠ 13 := by
  rintro rfl
  exact absurd h (by decide)

theorem isBlank_ne {b : Byte} (h : isBlank b = true) : b ≠ 13 := by
  rintro rfl
  exact absurd h (by decide)

theorem isToken_ne {b : Byte} (h : isToken b = true) : b ≠ 13 := by
  rintro rfl
  exact absurd h (by decide)

theorem isDigit_ne {b : Byte} (h : isDigit b = true) : b ≠ 13 := by
  rintro rfl
  exact absurd h (by decide)

/-- A line is not empty, and does not end before its end. -/
def IsLine (l : List Byte) : Prop := l ≠ [] ∧ ∀ b ∈ l, b ≠ 13

theorem Field.isLine (f : Field) : IsLine f.line := by
  refine ⟨by simp [Field.line], fun b hb => ?_⟩
  simp only [Field.line, List.mem_append, List.mem_cons] at hb
  obtain hb | rfl | (hb | hb) | hb := hb
  · exact isToken_ne (f.token b hb)
  · decide
  · exact isBlank_ne (f.blankBefore b hb)
  · exact isText_ne (f.text b hb)
  · exact isBlank_ne (f.blankAfter b hb)

theorem Head.isLine (h : Head) : ∀ l ∈ h.lines, IsLine l := by
  intro l hl
  rcases List.mem_cons.mp hl with rfl | hl
  · refine ⟨by simp [statusLine], fun b hb => ?_⟩
    simp only [statusLine, List.mem_append, List.mem_cons] at hb
    obtain (hb | hb) | rfl | hb := hb
    · exact (by decide +kernel : ∀ b ∈ bytes "HTTP/1.1 ", b ≠ 13) b hb
    · exact isDigit_ne (h.three.2 b hb)
    · decide +kernel
    · exact isText_ne (h.text b hb)
  · obtain ⟨f, -, rfl⟩ := List.mem_map.mp hl
    exact f.isLine

theorem intercalate_cons (l l' : List Byte) (ls : List (List Byte)) :
    List.intercalate crlf (l :: l' :: ls) = l ++ 13 :: 10 :: List.intercalate crlf (l' :: ls) := by
  simp [List.intercalate, crlf]

theorem intercalate_singleton (l : List Byte) : List.intercalate crlf [l] = l := by
  simp [List.intercalate]

theorem not_blankLine {b : Byte} (h : b ≠ 13) (u : List Byte) : ¬blankLine <+: b :: u :=
  fun hp => h (List.cons_prefix_cons.mp hp).1.symm

/-- The first blank line is the one that ends the head. -/
theorem position_blankLine (l : List Byte) (ls : List (List Byte)) (h : ∀ x ∈ l :: ls, IsLine x)
    (body : List Byte) :
    position blankLine (List.intercalate crlf (l :: ls) ++ (blankLine ++ body)) =
      some (List.intercalate crlf (l :: ls)).length := by
  induction ls generalizing l with
  | nil =>
    rw [intercalate_singleton, position_skip fun b hb => not_blankLine ((h l List.mem_cons_self).2 b hb),
      position_self (by decide)]
    rfl
  | cons l' ls ih =>
    have hl' := h l' (List.mem_cons_of_mem l List.mem_cons_self)
    obtain ⟨b, u, hu⟩ := List.exists_cons_of_ne_nil hl'.1
    have hnot : ¬blankLine <+: 13 :: 10 :: (List.intercalate crlf (l' :: ls) ++ (blankLine ++ body)) := by
      intro hp
      have hb : b ≠ 13 := hl'.2 b (hu ▸ List.mem_cons_self)
      have hhead : ∃ v, List.intercalate crlf (l' :: ls) = b :: v := by
        cases ls with
        | nil => exact ⟨u, by rw [intercalate_singleton, hu]⟩
        | cons l'' ls => exact ⟨_, by rw [intercalate_cons, hu, List.cons_append]⟩
      obtain ⟨v, hv⟩ := hhead
      rw [hv] at hp
      exact hb (List.cons_prefix_cons.mp (List.cons_prefix_cons.mp
        (List.cons_prefix_cons.mp hp).2).2).1.symm
    rw [intercalate_cons, List.append_assoc,
      position_skip fun b hb => not_blankLine ((h l List.mem_cons_self).2 b hb),
      List.cons_append, List.cons_append, position_cons hnot, position_cons (not_blankLine (by decide) _),
      ih l' fun x hx => h x (List.mem_cons_of_mem l hx)]
    simp only [Option.map_some, List.length_append, List.length_cons]

theorem takeWhile_stop {p : Byte → Bool} {c : Byte} (hc : p c = false) (a b : List Byte) :
    (a ++ c :: b).takeWhile p = a.takeWhile p := by
  induction a with
  | nil => rw [List.nil_append, List.takeWhile_cons, hc]; rfl
  | cons x a ih => rw [List.cons_append, List.takeWhile_cons, List.takeWhile_cons, ih]

theorem begins_stop (a b : List Byte) (n : Nat) : Begins (a ++ 13 :: b) n ↔ Begins a n := by
  rw [Begins, Begins, takeWhile_stop (by decide)]

theorem not_announces_nil (n : Nat) : ¬Announces [] n := by
  rintro ⟨ls, line, rest, before, after, h, -⟩
  exact absurd h (by simp)

/-- The first line that mentions the key has the number. -/
theorem announces_cons (l : List Byte) (ls : List (List Byte)) (n : Nat) :
    Announces (l :: ls) n ↔ (∃ u, following key l = some u ∧ Begins u n) ∨ following key l = none ∧
      Announces ls n := by
  constructor
  · rintro ⟨ls', line, rest, before, after, hl, hno, hline, hfirst, hn⟩
    cases ls' with
    | nil =>
      obtain ⟨rfl, rfl⟩ := List.cons.inj hl
      exact .inl ⟨after, (following_eq_some key_ne_nil).mpr ⟨before, hline, hfirst⟩, hn⟩
    | cons l' ls' =>
      obtain ⟨rfl, rfl⟩ := List.cons.inj hl
      refine .inr ⟨(following_eq_none key_ne_nil).mpr (hno _ List.mem_cons_self), ?_⟩
      exact ⟨ls', line, rest, before, after, rfl, fun x hx => hno x (List.mem_cons_of_mem _ hx),
        hline, hfirst, hn⟩
  · rintro (⟨u, hu, hn⟩ | ⟨hnone, ls', line, rest, before, after, rfl, hno, hline, hfirst, hn⟩)
    · obtain ⟨before, hline, hfirst⟩ := (following_eq_some key_ne_nil).mp hu
      exact ⟨[], l, ls, before, u, rfl, nofun, hline, hfirst, hn⟩
    · refine ⟨l :: ls', line, rest, before, after, rfl, fun x hx => ?_, hline, hfirst, hn⟩
      rcases List.mem_cons.mp hx with rfl | hx
      · exact (following_eq_none key_ne_nil).mp hnone
      · exact hno x hx

/-- The code looks through the whole head, and finds what the first line that mentions the key says. -/
theorem following_lines (l : List Byte) (ls : List (List Byte)) (n : Nat) :
    (∃ u, following key (List.intercalate crlf (l :: ls)) = some u ∧ Begins u n) ↔
      Announces (l :: ls) n := by
  induction ls generalizing l with
  | nil =>
    rw [intercalate_singleton, announces_cons]
    simp only [not_announces_nil, and_false, or_false]
  | cons l' ls ih =>
    have hlf : ∀ t, following key (10 :: t) = following key t := fun t =>
      following_append_cons (a := []) key_ne_nil (by decide)
    rw [intercalate_cons, announces_cons, ← ih l', following_append_cons key_ne_nil (by decide), hlf]
    cases hl : following key l with
    | none => simp
    | some v => simp [begins_stop]

/-- What the code makes of a response: the number that follows the key decides. -/
theorem copyBody_eq_some (h : Head) (body out : List Byte) (n : Nat) (out' : List Byte) :
    copyBody (h.sent ++ body) out = some (n, out') ↔
      n < 2 ^ 64 ∧ Announces h.lines n ∧ n ≤ body.length ∧ n ≤ out.length ∧
        out' = body.take n ++ out.drop n := by
  have hpos : position blankLine (h.sent ++ body) = some (List.intercalate crlf h.lines).length := by
    rw [Head.sent, List.append_assoc]
    exact position_blankLine h.statusLine _ h.isLine body
  have hlen : (List.intercalate crlf h.lines).length + 4 ≤ (h.sent ++ body).length := by
    simp only [Head.sent, List.length_append, show blankLine.length = 4 from rfl]
    omega
  have htake : (h.sent ++ body).take (List.intercalate crlf h.lines).length =
    List.intercalate crlf h.lines := by
    rw [Head.sent, List.append_assoc, List.take_left]
  have hdrop : (h.sent ++ body).drop ((List.intercalate crlf h.lines).length + 4) = body := by
    rw [show (List.intercalate crlf h.lines).length + 4 = h.sent.length by
      simp [Head.sent, show blankLine.length = 4 from rfl], List.drop_left]
  have hcontent : ∀ m, contentLength (List.intercalate crlf h.lines) = some m ↔
    m < 2 ^ 64 ∧ Announces h.lines m := by
    intro m
    rw [contentLength_eq_some, Head.lines, following_lines]
  rw [copyBody, hpos, Option.bind_eq_bind, Option.bind_some, htake, Option.bind_eq_some_iff]
  constructor
  · rintro ⟨m, hm, hrest⟩
    rw [if_pos hlen, Option.bind_eq_bind, Option.bind_some, hdrop] at hrest
    dsimp only at hrest
    split at hrest
    · exact nomatch hrest
    · obtain ⟨rfl, rfl⟩ := Prod.mk.inj (Option.some.inj hrest)
      obtain ⟨hlt, hann⟩ := (hcontent m).mp hm
      exact ⟨hlt, hann, by omega, by omega, rfl⟩
  · rintro ⟨hlt, hann, hbody, hout, rfl⟩
    refine ⟨n, (hcontent n).mpr ⟨hlt, hann⟩, ?_⟩
    rw [if_pos hlen, Option.bind_eq_bind, Option.bind_some, hdrop]
    exact if_neg (by omega)

/-- A field that is written `Content-Length: n` is read when no line before it mentions those words. -/
theorem announces_plain {ls rest : List (List Byte)} {ds : List Byte} (hno : ∀ l ∈ ls, ¬key <:+: l)
    (hne : ds ≠ [])
    (hds : ∀ b ∈ ds, isDigit b = true) : Announces (ls ++ (key ++ ds) :: rest) (decimal ds) := by
  have htake : ds.takeWhile isDigit = ds := by
    simpa using @List.takeWhile_append_of_pos _ isDigit ds [] hds
  refine ⟨ls, key ++ ds, rest, [], ds, rfl, hno, rfl, nofun, ?_⟩
  rw [Begins, htake]
  exact ⟨hne, rfl⟩

/-- The body is read as the head says if and only if, of the numbers that body and output have room
for, the one that follows the first `Content-Length: ` in the head is the value of the field. -/
theorem copyBody_exact (h : Head) (body out : List Byte) (hout : out.length < 2 ^ 64) :
    Reads h body out ↔
      ∀ n, n ≤ body.length → n ≤ out.length → (Announces h.lines n ↔ h.contentLength = some n) := by
  constructor
  · intro hr n hbody hn
    have hcode := copyBody_eq_some h body out n (body.take n ++ out.drop n)
    rw [hr n] at hcode
    constructor
    · exact fun hann => (hcode.mpr ⟨by omega, hann, hbody, hn, rfl⟩).1
    · exact fun hlen => (hcode.mp ⟨hlen, hbody, hn, rfl⟩).2.1
  · intro hc n out'
    rw [copyBody_eq_some]
    constructor
    · rintro ⟨-, hann, hbody, hn, hout'⟩
      exact ⟨(hc n hbody hn).mp hann, hbody, hn, hout'⟩
    · rintro ⟨hlen, hbody, hn, hout'⟩
      exact ⟨by omega, (hc n hbody hn).mpr hlen, hbody, hn, hout'⟩

/-! ### Two responses -/

/-- A field with one blank before its value and none after. -/
def field (name value : String) (hn : bytes name ≠ [] ∧ ∀ b ∈ bytes name, isToken b = true := by
  decide +kernel)
    (hv : (∀ b ∈ bytes value, isText b = true) ∧ (∀ b ∈ (bytes value).head?, isBlank b = false) ∧
      ∀ b ∈ (bytes value).getLast?, isBlank b = false := by decide +kernel) : Field where
  name := bytes name
  before := [32]
  value := bytes value
  after := []
  named := hn.1
  token := hn.2
  blankBefore := by decide +kernel
  text := hv.1
  blankAfter := nofun
  trimmed := hv.2

/-- A status and one field. -/
def oneField (f : Field) (hf : f.isContentLength = true → f.value ≠ [] ∧ ∀ b ∈ f.value, isDigit b =
    true) : Head where
  code := bytes "200"
  reason := bytes "OK"
  fields := [f]
  three := by decide +kernel
  text := by decide +kernel
  once := List.length_filter_le _ [f]
  numeric g hg := by
    obtain rfl := List.mem_singleton.mp hg
    exact hf

/-- A body of two bytes is announced, as servers write it. -/
def announced : Head := oneField (field "Content-Length" "2") (by decide +kernel)

/-- The same in small letters. -/
def announcedSmall : Head := oneField (field "content-length" "2") (by decide +kernel)

/-- The body of a response whose field name is in small letters is not read. -/
theorem small_letters_missed : ¬Reads announcedSmall (bytes "hi") [0, 0, 0, 0] := by
  intro hr
  have hread := (hr 2 (bytes "hi" ++ [0, 0])).mpr (by decide +kernel)
  exact absurd hread (by decide +kernel)

/-- A body is read by what another field says. -/
example : copyBody ((oneField (field "X-Content-Length" "2") (by decide +kernel)).sent ++
    bytes "hi") [0, 0, 0, 0] =
    some (2, bytes "hi" ++ [0, 0]) := by decide +kernel

theorem copyBody_exact_plain : Reads announced (bytes "hi") [0, 0, 0, 0] := by
  refine (copyBody_exact _ _ _ (by decide +kernel)).mpr fun n _ _ => ?_
  have hlines : announced.lines = [bytes "HTTP/1.1 200 OK", key ++ bytes "2"] := by decide +kernel
  have hstatus : following key (bytes "HTTP/1.1 200 OK") = none := by decide +kernel
  have hfield : following key (key ++ bytes "2") = some (bytes "2") := by decide +kernel
  have hlen : announced.contentLength = some 2 := by decide +kernel
  rw [hlines, announces_cons, announces_cons, hstatus, hfield, hlen]
  have hdigits : (bytes "2").takeWhile isDigit = bytes "2" := by decide +kernel
  have hbegins : Begins (bytes "2") n ↔ some 2 = some n := by
    rw [Begins, hdigits, show decimal (bytes "2") = 2 by decide +kernel, Option.some.injEq]
    exact and_iff_right (by decide +kernel)
  rw [← hbegins]
  simp only [reduceCtorEq, Option.some.injEq, false_and, exists_false, true_and, false_or,
    exists_eq_left', or_false]

end Lerux.Http
