import Lerux.Input.KeyRing
import Mathlib.Data.Fintype.Basic

/-!
# Scan set 1 for the desk

`from_set1` takes one byte and keeps the two Shift keys, the two Ctrl keys, Caps Lock, a prefix and
the bytes of a Pause that are still to be skipped. A session of the keyboard is a list of actions on
single keys, each with the bytes the keyboard sends for it, and every press or repeat of a key of
the layout is due one event.

After any session the state holds just what the session says, but for Caps Lock: a keyboard repeats
it as it repeats any key that stays down, and the decoder turns it over at every make code. So a
session is decoded as it is due exactly when no letter is typed after an odd number of Caps Lock
repeats.
-/

namespace Lerux.Input

structure KeyPair where
  left : Bool := false
  right : Bool := false
deriving DecidableEq, Repr

structure Set1State where
  shift : KeyPair := {}
  ctrl : KeyPair := {}
  caps : Bool := false
  extended : Bool := false
  skip : Nat := 0
deriving DecidableEq, Repr

namespace Set1State

def new : Set1State := {}

def ctrlHeld (state : Set1State) : Bool := state.ctrl.left || state.ctrl.right

def shiftHeld (state : Set1State) : Bool := state.shift.left || state.shift.right

end Set1State

def applyModifier (state : Set1State) (extended : Bool) (code : UInt8) (down : Bool) : Set1State × Bool :=
  if extended = false ∧ code = 0x2A then ({ state with shift := { state.shift with left := down } }, true)
  else if extended = false ∧ code = 0x36 then
    ({ state with shift := { state.shift with right := down } }, true)
  else if extended = false ∧ code = 0x1D then
    ({ state with ctrl := { state.ctrl with left := down } }, true)
  else if extended = true ∧ code = 0x1D then
    ({ state with ctrl := { state.ctrl with right := down } }, true)
  else if extended = false ∧ code = 0x3A ∧ down then ({ state with caps := !state.caps }, true)
  else (state, false)

def named (extended : Bool) (code : UInt8) : Option Key :=
  if extended then
    match code with
    | 0x48 => some .Up
    | 0x4B => some .Left
    | 0x4D => some .Right
    | 0x50 => some .Down
    | 0x1C => some .Enter
    | _ => none
  else
    match code with
    | 0x01 => some .Escape
    | 0x0E => some .Backspace
    | 0x0F => some .Tab
    | 0x1C => some .Enter
    | _ => none

def BASE_CHARS : List (UInt8 × UInt8) :=
  [(0x02, '1'.toUInt8), (0x03, '2'.toUInt8), (0x04, '3'.toUInt8), (0x05, '4'.toUInt8), (0x06, '5'.toUInt8),
   (0x07, '6'.toUInt8), (0x08, '7'.toUInt8), (0x09, '8'.toUInt8), (0x0A, '9'.toUInt8), (0x0B, '0'.toUInt8),
   (0x0C, '-'.toUInt8), (0x0D, '='.toUInt8), (0x10, 'q'.toUInt8), (0x11, 'w'.toUInt8), (0x12, 'e'.toUInt8),
   (0x13, 'r'.toUInt8), (0x14, 't'.toUInt8), (0x15, 'y'.toUInt8), (0x16, 'u'.toUInt8), (0x17, 'i'.toUInt8),
   (0x18, 'o'.toUInt8), (0x19, 'p'.toUInt8), (0x1A, '['.toUInt8), (0x1B, ']'.toUInt8), (0x1E, 'a'.toUInt8),
   (0x1F, 's'.toUInt8), (0x20, 'd'.toUInt8), (0x21, 'f'.toUInt8), (0x22, 'g'.toUInt8), (0x23, 'h'.toUInt8),
   (0x24, 'j'.toUInt8), (0x25, 'k'.toUInt8), (0x26, 'l'.toUInt8), (0x27, ';'.toUInt8), (0x28, '\''.toUInt8),
   (0x29, '\x60'.toUInt8), (0x2B, '\x5c'.toUInt8), (0x2C, 'z'.toUInt8), (0x2D, 'x'.toUInt8),
     (0x2E, 'c'.toUInt8),
   (0x2F, 'v'.toUInt8), (0x30, 'b'.toUInt8), (0x31, 'n'.toUInt8), (0x32, 'm'.toUInt8), (0x33, ','.toUInt8),
   (0x34, '.'.toUInt8), (0x35, '/'.toUInt8), (0x39, ' '.toUInt8)]

def baseChar (code : UInt8) : Option UInt8 := (BASE_CHARS.find? fun entry => entry.1 == code).map (·.2)

def isAsciiAlphabetic (ch : UInt8) : Bool :=
  ('a'.toUInt8 ≤ ch && ch ≤ 'z'.toUInt8) || ('A'.toUInt8 ≤ ch && ch ≤ 'Z'.toUInt8)

def toAsciiUppercase (ch : UInt8) : UInt8 := if 'a'.toUInt8 ≤ ch ∧ ch ≤ 'z'.toUInt8 then ch - 0x20 else ch

def applyShift (state : Set1State) (ch : UInt8) : UInt8 :=
  if isAsciiAlphabetic ch then
    if state.shiftHeld ^^ state.caps then toAsciiUppercase ch else ch
  else if state.shiftHeld then
    match Char.ofUInt8 ch with
    | '1' => '!'.toUInt8
    | '2' => '@'.toUInt8
    | '3' => '#'.toUInt8
    | '4' => '$'.toUInt8
    | '5' => '%'.toUInt8
    | '6' => '^'.toUInt8
    | '7' => '&'.toUInt8
    | '8' => '*'.toUInt8
    | '9' => '('.toUInt8
    | '0' => ')'.toUInt8
    | '-' => '_'.toUInt8
    | '=' => '+'.toUInt8
    | '[' => '{'.toUInt8
    | ']' => '}'.toUInt8
    | ';' => ':'.toUInt8
    | '\'' => '"'.toUInt8
    | '\x60' => '~'.toUInt8
    | '\x5c' => '|'.toUInt8
    | ',' => '<'.toUInt8
    | '.' => '>'.toUInt8
    | '/' => '?'.toUInt8
    | _ => ch
  else ch

/-- One byte of scan set 1. -/
def fromSet1 (state : Set1State) (byte : UInt8) : Set1State × Option KeyEvent :=
  if state.skip > 0 then ({ state with skip := state.skip - 1 }, none)
  else if byte = 0xE0 then ({ state with extended := true }, none)
  else if byte = 0xE1 then ({ state with skip := 5, extended := false }, none)
  else
    let extended := state.extended
    let state := { state with extended := false }
    if byte &&& 0x80 ≠ 0 then ((applyModifier state extended (byte &&& 0x7F) false).1, none)
    else
      match applyModifier state extended byte true with
      | (state, true) => (state, none)
      | (state, false) =>
        match named extended byte with
        | some key => (state, some { key, ctrl := state.ctrlHeld })
        | none =>
          if extended then (state, none)
          else (state, (baseChar byte).map fun ch => { key := .Char (applyShift state ch), ctrl := state.ctrlHeld })

/-- The events that a run of bytes yields. -/
def decode (state : Set1State) : List UInt8 → Set1State × List KeyEvent
  | [] => (state, [])
  | byte :: bytes =>
    let (next, event) := fromSet1 state byte
    let (last, events) := decode next bytes
    (last, event.toList ++ events)

/-! ### The keyboard -/

/-- A key: its make code, and whether a prefix goes in front of it. The break code of a key is no
prefix itself. -/
structure Button where
  extended : Bool
  code : UInt8
  low : code < 0x80
  apart : code ≠ 0x60 ∧ code ≠ 0x61
deriving DecidableEq

def Button.lead (button : Button) : List UInt8 := if button.extended then [0xE0] else []

def leftShift : Button := ⟨false, 0x2A, by decide, by decide⟩
def rightShift : Button := ⟨false, 0x36, by decide, by decide⟩
def leftCtrl : Button := ⟨false, 0x1D, by decide, by decide⟩
def rightCtrl : Button := ⟨true, 0x1D, by decide, by decide⟩
def capsLock : Button := ⟨false, 0x3A, by decide, by decide⟩

/-- What happens at the keyboard. A fake shift is a press or a release of the prefixed key with the
code of a Shift. -/
inductive Action where
  | press (button : Button)
  | again (button : Button)
  | release (button : Button)
  | pause
deriving DecidableEq

/-- What the keyboard sends. A key that stays down repeats its make code. -/
def Action.bytes : Action → List UInt8
  | .press button | .again button => button.lead ++ [button.code]
  | .release button => button.lead ++ [button.code ||| 0x80]
  | .pause => [0xE1, 0x1D, 0x45, 0xE1, 0x9D, 0xC5]

/-- The events of each action of a session. -/
def decodeEach (state : Set1State) : List Action → List (List KeyEvent)
  | [] => []
  | action :: rest => (decode state action.bytes).2 :: decodeEach (decode state action.bytes).1 rest

/-! ### What a session is due -/

/-- What a key stands for. -/
inductive Legend where
  | named (key : Key)
  | letter (lower upper : UInt8)
  | levels (plain shifted : UInt8)
deriving DecidableEq

/-- Keys with consecutive codes, from the characters without and with Shift. -/
def row (first : Nat) (legend : UInt8 → UInt8 → Legend) (plain shifted : String) : List (UInt8 × Legend) :=
  ((plain.toList.zip shifted.toList).zipIdx first).map fun ((plain, shifted), code) =>
    (UInt8.ofNat code, legend plain.toUInt8 shifted.toUInt8)

def plainKeys : List (UInt8 × Legend) :=
  [(0x01, .named .Escape), (0x0E, .named .Backspace), (0x0F, .named .Tab), (0x1C, .named .Enter)] ++
    row 0x02 .levels "1234567890-=" "!@#$%^&*()_+" ++ row 0x10 .letter "qwertyuiop" "QWERTYUIOP" ++
    row 0x1A .levels "[]" "\x7b\x7d" ++ row 0x1E .letter "asdfghjkl" "ASDFGHJKL" ++
    row 0x27 .levels ";'\x60" ":\"~" ++ row 0x2B .levels "\x5c" "|" ++
      row 0x2C .letter "zxcvbnm" "ZXCVBNM" ++
    row 0x33 .levels ",./" "<>?" ++ row 0x39 .levels " " " "

def extendedKeys : List (UInt8 × Legend) :=
  [(0x48, .named .Up), (0x4B, .named .Left), (0x4D, .named .Right), (0x50, .named .Down),
    (0x1C, .named .Enter)]

def legend (extended : Bool) (code : UInt8) : Option Legend :=
  ((if extended then extendedKeys else plainKeys).find? fun entry => entry.1 == code).map (·.2)

def Legend.key (shift caps : Bool) : Legend → Key
  | .named key => key
  | .letter lower upper => .Char (if shift ^^ caps then upper else lower)
  | .levels plain shifted => .Char (if shift then shifted else plain)

/-- A key is held from a press on, up to its release. -/
def held (button : Button) (before : List Action) : Bool :=
  before.foldl (fun down action =>
    match action with
    | .press other | .again other => down || decide (other = button)
    | .release other => down && decide (other ≠ button)
    | .pause => down) false

def shiftDown (before : List Action) : Bool := held leftShift before || held rightShift before

def ctrlDown (before : List Action) : Bool := held leftCtrl before || held rightCtrl before

/-- The key that an action types, with Caps Lock at a level. -/
def typed (caps : Bool) (before : List Action) (action : Action) : Option KeyEvent :=
  match action with
  | .press button | .again button =>
    (legend button.extended button.code).map fun legend =>
      { key := legend.key (shiftDown before) caps, ctrl := ctrlDown before }
  | _ => none

/-- Caps Lock is on after an odd number of presses. -/
def capsOn (before : List Action) : Bool := decide (before.count (.press capsLock) % 2 = 1)

def due (before : List Action) (action : Action) : Option KeyEvent := typed (capsOn before) before action

def dueEach (before : List Action) : List Action → List (List KeyEvent)
  | [] => []
  | action :: rest => (due before action).toList :: dueEach (before ++ [action]) rest

def Legend.isLetter : Legend → Bool
  | .letter _ _ => true
  | _ => false

def Action.typesLetter : Action → Bool
  | .press button | .again button => (legend button.extended button.code).any Legend.isLetter
  | _ => false

/-- No letter is typed after an odd number of Caps Lock repeats. -/
def EvenRepeats (actions : List Action) : Prop :=
  ∀ before action after, actions = before ++ action :: after → action.typesLetter = true →
    before.count (.again capsLock) % 2 = 0

/-! ### The tables -/

theorem forall_byte {P : UInt8 → Prop} (h : ∀ i : Fin 256, P (UInt8.ofFin i)) (byte : UInt8) :
    P byte := h byte.toFin

/-- A state with Shift and Caps Lock at given levels. -/
def levelled (shift caps : Bool) : Set1State := { shift := { left := shift }, caps }

theorem applyShift_levelled (state : Set1State) (ch : UInt8) :
    applyShift state ch = applyShift (levelled state.shiftHeld state.caps) ch := by
  simp [applyShift, levelled, Set1State.shiftHeld]

/-- Looking a code up in a table whose entries are changed. -/
theorem find_map {α β : Type} (table : List (UInt8 × α)) (f : α → β) (code : UInt8) :
    ((table.map fun entry => (entry.1, f entry.2)).find? fun entry => entry.1 == code).map (·.2) =
      (table.find? fun entry => entry.1 == code).map fun entry => f entry.2 := by
  rw [List.find?_map, Option.map_map]
  rfl

theorem find_cons {α : Type} (c code : UInt8) (a : α) (table : List (UInt8 × α)) :
    (((c, a) :: table).find? fun entry => entry.1 == code) =
      if code = c then some (c, a) else table.find? fun entry => entry.1 == code := by
  rw [List.find?_cons]
  by_cases hc : code = c
  · rw [if_pos hc, hc, beq_self_eq_true]
  · rw [if_neg hc, beq_eq_false_iff_ne.mpr (Ne.symm hc)]

/-- The named keys come first, then the characters in the order of the decoder's table. -/
theorem plainKeys_named : plainKeys.take 4 =
    [(0x01, .named .Escape), (0x0E, .named .Backspace), (0x0F, .named .Tab), (0x1C, .named .Enter)] := rfl

/-- The letters are printed with a capital. -/
def Legend.differs (shift : Bool) (l : Legend) : Bool :=
  !l.isLetter || l.key shift false != l.key shift true

theorem plainKeys_printed (shift : Bool) :
    (∀ caps, (plainKeys.drop 4).map (fun entry => (entry.1, entry.2.key shift caps)) =
      BASE_CHARS.map fun entry => (entry.1, Key.Char (applyShift (levelled shift caps) entry.2))) ∧
    plainKeys.all fun entry => entry.2.differs shift := by
  revert shift
  unfold plainKeys row
  repeat rw [String.toList_ofList]
  decide +kernel

theorem named_levelled (shift caps extended : Bool) (code : UInt8) : named extended code =
    ((if extended then extendedKeys else plainKeys.take 4).find? fun entry => entry.1 == code).map
      fun entry => entry.2.key shift caps := by
  rw [plainKeys_named]
  unfold named extendedKeys
  cases extended with
  | true =>
    simp only [if_true, find_cons]
    split <;> simp_all [Legend.key]
  | false =>
    simp only [Bool.false_eq_true, if_false, find_cons]
    split <;> simp_all [Legend.key]

theorem tables_levelled (shift caps extended : Bool) (code : UInt8) :
    (match named extended code with
      | some key => some key
      | none => if extended then none else (baseChar code).map fun ch =>
        Key.Char (applyShift (levelled shift caps) ch)) =
    (legend extended code).map (Legend.key shift caps) := by
  rw [named_levelled shift caps, legend, Option.map_map]
  cases extended with
  | true =>
    simp only [if_pos]
    cases extendedKeys.find? fun entry => entry.1 == code with
    | none => rfl
    | some entry => rfl
  | false =>
    have hchars : (baseChar code).map (fun ch => Key.Char (applyShift (levelled shift caps) ch)) =
        ((plainKeys.drop 4).find? fun entry => entry.1 == code).map fun entry =>
          entry.2.key shift caps := by
      rw [← find_map (plainKeys.drop 4) (Legend.key shift caps), (plainKeys_printed shift).1 caps,
        find_map BASE_CHARS fun ch => Key.Char (applyShift (levelled shift caps) ch), baseChar,
          Option.map_map]
      rfl
    rw [hchars]
    simp only [Bool.false_eq_true, if_false]
    conv_rhs => rw [← List.take_append_drop 4 plainKeys, List.find?_append]
    cases (plainKeys.take 4).find? fun entry => entry.1 == code with
    | none => rfl
    | some entry => rfl

/-- The two tables of the decoder agree with what is printed on the keys. -/
theorem tables (state : Set1State) (extended : Bool) (code : UInt8) :
    (match named extended code with
      | some key => some key
      | none => if extended then none else (baseChar code).map fun ch => Key.Char (applyShift state ch)) =
    (legend extended code).map (Legend.key state.shiftHeld state.caps) := by
  rw [← tables_levelled]
  simp only [applyShift_levelled state]

theorem letters_differ (shift extended : Bool) (code : UInt8) :
    (legend extended code).all (Legend.differs shift) = true := by
  have hall : (if extended then extendedKeys else plainKeys).all fun entry => entry.2.differs shift := by
    cases extended with
    | true => rfl
    | false => exact (plainKeys_printed shift).2
  unfold legend
  cases hfind : (if extended then extendedKeys else plainKeys).find? fun entry => entry.1 == code with
  | none => rfl
  | some entry => exact List.all_eq_true.mp hall entry (List.mem_of_find?_eq_some hfind)

/-! ### The bytes of a key -/

theorem bytes_apart : ∀ code : UInt8, code < 0x80 → (code ≠ 0xE0 ∧ code ≠ 0xE1 ∧ code &&& 0x80 = 0) ∧
    (code ≠ 0x60 ∧ code ≠ 0x61 → code ||| 0x80 ≠ 0xE0 ∧ code ||| 0x80 ≠ 0xE1 ∧
      (code ||| 0x80) &&& 0x80 ≠ 0 ∧
      (code ||| 0x80) &&& 0x7F = code) :=
  forall_byte (by decide +kernel)

theorem Button.make_byte (button : Button) :
    button.code ≠ 0xE0 ∧ button.code ≠ 0xE1 ∧ button.code &&& 0x80 = 0 :=
  (bytes_apart button.code button.low).1

theorem Button.break_byte (button : Button) :
    button.code ||| 0x80 ≠ 0xE0 ∧ button.code ||| 0x80 ≠ 0xE1 ∧ (button.code ||| 0x80) &&& 0x80 ≠ 0 ∧
      (button.code ||| 0x80) &&& 0x7F = button.code :=
  (bytes_apart button.code button.low).2 button.apart

theorem Button.eq_iff (button other : Button) :
    button = other ↔ button.extended = other.extended ∧ button.code = other.code := by
  cases button
  cases other
  simp

/-- A modifier is no key of the layout, and any other code leaves the state alone. -/
theorem applyModifier_legend (state : Set1State) (extended : Bool) (code : UInt8) :
    ((applyModifier state extended code true).2 = true ∧ legend extended code = none) ∨
      applyModifier state extended code true = (state, false) := by
  unfold applyModifier
  split_ifs with h1 h2 h3 h4 h5
  · exact .inl ⟨rfl, by rw [h1.1, h1.2]; decide⟩
  · exact .inl ⟨rfl, by rw [h2.1, h2.2]; decide⟩
  · exact .inl ⟨rfl, by rw [h3.1, h3.2]; decide⟩
  · exact .inl ⟨rfl, by rw [h4.1, h4.2]; decide⟩
  · exact .inl ⟨rfl, by rw [h5.1, h5.2.1]; decide⟩
  · exact .inr rfl

/-- A make code changes the modifiers and types its key. -/
theorem fromSet1_make {state : Set1State} (hskip : state.skip = 0) (button : Button) :
    fromSet1 state button.code =
      ((applyModifier { state with extended := false } state.extended button.code true).1,
       (legend state.extended button.code).map fun legend =>
         { key := legend.key state.shiftHeld state.caps, ctrl := state.ctrlHeld }) := by
  obtain ⟨hfront, hpause, hmake⟩ := button.make_byte
  rw [fromSet1, if_neg (by omega), if_neg hfront, if_neg hpause, if_neg (not_not.mpr hmake)]
  rcases applyModifier_legend { state with extended := false } state.extended button.code with
    ⟨hyes, hnone⟩ | hno
  · rw [hnone]
    split
    next hmod => rw [hmod]; rfl
    next hmod => rw [hmod] at hyes; cases hyes
  · have htables := tables { state with extended := false } state.extended button.code
    have hmap : (legend state.extended button.code).map (fun legend =>
        { key := legend.key state.shiftHeld state.caps, ctrl := state.ctrlHeld : KeyEvent }) =
        ((legend state.extended button.code).map (Legend.key state.shiftHeld state.caps)).map fun key =>
          { key, ctrl := state.ctrlHeld } := by
      rw [Option.map_map]
      rfl
    rw [hmap]
    change _ = (_, Option.map _ (Option.map
      (Legend.key (Set1State.shiftHeld { state with extended := false }) _) _))
    rw [← htables, hno]
    cases named state.extended button.code with
    | some key => rfl
    | none =>
      cases state.extended with
      | true => rfl
      | false =>
        simp only [Bool.false_eq_true, if_false, Option.map_map]
        rfl

/-- A break code changes the modifiers. -/
theorem fromSet1_break {state : Set1State} (hskip : state.skip = 0) (button : Button) :
    fromSet1 state (button.code ||| 0x80) =
      ((applyModifier { state with extended := false } state.extended button.code false).1, none) := by
  obtain ⟨hfront, hpause, hhigh, hcode⟩ := button.break_byte
  rw [fromSet1, if_neg (by omega), if_neg hfront, if_neg hpause, if_pos hhigh, hcode]

/-- Between two actions no prefix and no rest of a Pause is pending. -/
def Set1State.Ready (state : Set1State) : Prop := state.skip = 0 ∧ state.extended = false

/-- The prefix tells the keys with one code apart. -/
theorem decode_lead {state : Set1State} (hready : state.Ready) (button : Button) (byte : UInt8) :
    decode state (button.lead ++ [byte]) = decode { state with extended := button.extended } [byte] := by
  obtain ⟨hskip, hext⟩ := hready
  cases hb : button.extended with
  | false =>
    have hstate : { state with extended := false } = state := by rw [← hext]
    rw [Button.lead, hb, hstate]
    rfl
  | true =>
    have hlead : fromSet1 state 0xE0 = ({ state with extended := true }, none) := by
      rw [fromSet1, if_neg (by omega), if_pos rfl]
    rw [Button.lead, hb]
    simp only [if_true, List.singleton_append, decode, hlead]
    rfl

theorem decode_make {state : Set1State} (hready : state.Ready) (button : Button) :
    decode state (button.lead ++ [button.code]) =
      ((applyModifier state button.extended button.code true).1,
       ((legend button.extended button.code).map fun legend =>
         { key := legend.key state.shiftHeld state.caps, ctrl := state.ctrlHeld }).toList) := by
  have hstate : { state with extended := false } = state := by rw [← hready.2]
  rw [decode_lead hready]
  simp only [decode, @fromSet1_make { state with extended := button.extended } hready.1 button,
    hstate, List.append_nil]
  rfl

theorem decode_break {state : Set1State} (hready : state.Ready) (button : Button) :
    decode state (button.lead ++ [button.code ||| 0x80]) =
      ((applyModifier state button.extended button.code false).1, []) := by
  have hstate : { state with extended := false } = state := by rw [← hready.2]
  rw [decode_lead hready]
  simp only [decode, @fromSet1_break { state with extended := button.extended } hready.1 button, hstate]
  rfl

theorem decode_pause {state : Set1State} (hready : state.Ready) :
    decode state Action.pause.bytes = (state, []) := by
  obtain ⟨shift, ctrl, caps, extended, skip⟩ := state
  obtain ⟨rfl, rfl⟩ : skip = 0 ∧ extended = false := hready
  rfl

/-! ### The state after a session -/

/-- The level of Caps Lock in the decoder: it counts the repeats as well. -/
def capsLevel (before : List Action) : Bool :=
  decide ((before.count (.press capsLock) + before.count (.again capsLock)) % 2 = 1)

def tracked (before : List Action) : Set1State where
  shift := { left := held leftShift before, right := held rightShift before }
  ctrl := { left := held leftCtrl before, right := held rightCtrl before }
  caps := capsLevel before

theorem tracked_ready (before : List Action) : (tracked before).Ready := ⟨rfl, rfl⟩

theorem tracked_nil : tracked [] = Set1State.new := rfl

@[simp] theorem held_press (button other : Button) (before : List Action) :
    held button (before ++ [.press other]) = (held button before || decide (other = button)) := by
  simp [held]

@[simp] theorem held_again (button other : Button) (before : List Action) :
    held button (before ++ [.again other]) = (held button before || decide (other = button)) := by
  simp [held]

@[simp] theorem held_release (button other : Button) (before : List Action) :
    held button (before ++ [.release other]) = (held button before && decide (other ≠ button)) := by
  simp [held]

@[simp] theorem held_pause (button : Button) (before : List Action) :
    held button (before ++ [.pause]) = held button before := by
  simp [held]

/-- One more press or repeat of Caps Lock turns the level over, and no other action does. -/
theorem capsLevel_snoc (before : List Action) (action : Action) :
    capsLevel (before ++ [action]) =
      (capsLevel before ^^ decide (action = .press capsLock ∨ action = .again capsLock)) := by
  simp only [capsLevel, List.count_append, List.count_singleton, beq_iff_eq]
  by_cases hp : action = .press capsLock
  · subst hp
    rw [if_pos rfl, if_neg (by decide), Bool.eq_iff_iff]
    simp
    omega
  by_cases ha : action = .again capsLock
  · subst ha
    rw [if_neg (by decide), if_pos rfl, Bool.eq_iff_iff]
    simp
    omega
  · rw [if_neg hp, if_neg ha]
    simp [hp, ha]

/-- The modifier keys among all keys. -/
theorem applyModifier_button (state : Set1State) (button : Button) (down : Bool) :
    (applyModifier state button.extended button.code down).1 =
      { shift := { left := if button = leftShift then down else state.shift.left
                   right := if button = rightShift then down else state.shift.right }
        ctrl := { left := if button = leftCtrl then down else state.ctrl.left
                  right := if button = rightCtrl then down else state.ctrl.right }
        caps := state.caps ^^ (decide (button = capsLock) && down)
        extended := state.extended
        skip := state.skip } := by
  obtain ⟨⟨left, right⟩, ⟨left', right'⟩, caps, ext, skip⟩ := state
  simp only [applyModifier, Button.eq_iff, leftShift, rightShift, leftCtrl, rightCtrl, capsLock]
  have hcaps : ∀ (p : Prop) [Decidable p], ¬ (p ∧ down = true) → (decide p && down) = false := by
    intro p _ h
    cases down <;> simp_all
  by_cases h5 : (button.extended = false ∧ button.code = 0x3A) ∧ down = true
  · obtain ⟨⟨hext, hcode⟩, rfl⟩ := h5
    simp [hext, hcode]
  rw [hcaps _ h5]
  rw [and_assoc] at h5
  split_ifs <;> simp_all

theorem tracked_make (before : List Action) (button : Button) (action : Action)
    (haction : action = .press button ∨ action = .again button) :
    (applyModifier (tracked before) button.extended button.code true).1 = tracked (before ++ [action]) := by
  have hheld : ∀ other : Button,
    held other (before ++ [action]) = (held other before || decide (button = other)) := by
    intro other
    rcases haction with rfl | rfl
    · exact held_press other button before
    · exact held_again other button before
  have hcaps : (action = .press capsLock ∨ action = .again capsLock) ↔ button = capsLock := by
    rcases haction with rfl | rfl <;> simp
  have hbool : ∀ (p : Prop) [Decidable p] (down : Bool), (if p then true
    else down) = (down || decide p) := by
    intro p _ down
    by_cases h : p <;> simp [h]
  rw [applyModifier_button]
  simp only [tracked, hheld, capsLevel_snoc, hcaps, hbool, Bool.and_true]

theorem step_make (before : List Action) (button : Button) (action : Action)
    (haction : action = .press button ∨ action = .again button) :
    decode (tracked before) action.bytes =
      (tracked (before ++ [action]), (typed (capsLevel before) before action).toList) := by
  have hbytes : action.bytes = button.lead ++ [button.code] := by
    rcases haction with rfl | rfl <;> rfl
  have htyped : typed (capsLevel before) before action =
      (legend button.extended button.code).map fun legend =>
        { key := legend.key (shiftDown before) (capsLevel before), ctrl := ctrlDown before } := by
    rcases haction with rfl | rfl <;> rfl
  rw [hbytes, decode_make (tracked_ready before), tracked_make before button action haction, htyped]
  rfl

theorem step_release (before : List Action) (button : Button) :
    decode (tracked before) (Action.release button).bytes =
      (tracked (before ++ [.release button]), []) := by
  have hbool : ∀ (p : Prop) [Decidable p] (down : Bool), (if p then false
    else down) = (down && decide (¬ p)) := by
    intro p _ down
    by_cases h : p <;> simp [h]
  rw [Action.bytes, decode_break (tracked_ready before), applyModifier_button]
  simp only [tracked, held_release, capsLevel_snoc, hbool, Bool.and_false, ne_eq, reduceCtorEq,
    or_self, decide_false,
    Bool.bne_false]

/-- One action: the state goes on saying what the session says, and the key is typed at the level of
the decoder. -/
theorem step (before : List Action) (action : Action) :
    decode (tracked before) action.bytes =
      (tracked (before ++ [action]), (typed (capsLevel before) before action).toList) := by
  cases action with
  | press button => exact step_make before button _ (.inl rfl)
  | again button => exact step_make before button _ (.inr rfl)
  | release button => exact step_release before button
  | pause =>
    rw [decode_pause (tracked_ready before)]
    have hstate : tracked (before ++ [.pause]) = tracked before := by
      simp [tracked, capsLevel_snoc]
    rw [hstate]
    rfl

/-! ### When Caps Lock agrees -/

/-- The two levels of Caps Lock agree up to the parity of the repeats. -/
theorem capsLevel_eq (before : List Action) :
    capsLevel before = capsOn before ↔ before.count (.again capsLock) % 2 = 0 := by
  rw [capsLevel, capsOn, decide_eq_decide]
  omega

theorem legend_key_caps {shift extended : Bool} {code : UInt8} {l : Legend}
    (hl : legend extended code = some l)
    (caps caps' : Bool) : l.key shift caps = l.key shift caps' ↔ (l.isLetter = true → caps = caps') := by
  have hdiffer := letters_differ shift extended code
  rw [hl] at hdiffer
  cases l with
  | named key => exact ⟨fun _ h => (nomatch h), fun _ => rfl⟩
  | levels plain shifted => exact ⟨fun _ h => (nomatch h), fun _ => rfl⟩
  | letter lower upper =>
    have hne : Legend.key shift false (.letter lower upper) ≠
      Legend.key shift true (.letter lower upper) := by
      simpa [Legend.differs, Legend.isLetter] using hdiffer
    refine ⟨fun h _ => ?_, fun h => by rw [h rfl]⟩
    cases caps <;> cases caps'
    · rfl
    · exact absurd h hne
    · exact absurd h.symm hne
    · rfl

/-- Only a letter tells the levels of Caps Lock apart. -/
theorem typed_eq_iff (caps caps' : Bool) (before : List Action) (action : Action) :
    typed caps before action = typed caps' before action ↔ (action.typesLetter = true → caps = caps') := by
  have hmake : ∀ button : Button,
      ((legend button.extended button.code).map (fun legend =>
          { key := legend.key (shiftDown before) caps, ctrl := ctrlDown before : KeyEvent }) =
        (legend button.extended button.code).map fun legend =>
          { key := legend.key (shiftDown before) caps', ctrl := ctrlDown before }) ↔
      ((legend button.extended button.code).any Legend.isLetter = true → caps = caps') := by
    intro button
    cases hl : legend button.extended button.code with
    | none => simp
    | some l =>
      simp only [Option.map_some, Option.some.injEq, KeyEvent.mk.injEq, and_true, Option.any_some]
      exact legend_key_caps hl caps caps'
  cases action with
  | press button => exact hmake button
  | again button => exact hmake button
  | release button => exact ⟨fun _ h => (nomatch h), fun _ => rfl⟩
  | pause => exact ⟨fun _ h => (nomatch h), fun _ => rfl⟩

/-- An action is decoded as it is due exactly when a letter meets the level that the presses of Caps
Lock give. -/
theorem step_due_iff (before : List Action) (action : Action) :
    (decode (tracked before) action.bytes).2 = (due before action).toList ↔
      (action.typesLetter = true → before.count (.again capsLock) % 2 = 0) := by
  rw [step, due, ← capsLevel_eq before, ← typed_eq_iff _ _ before]
  constructor
  · intro h
    have hhead := congrArg List.head? h
    rwa [Option.head?_toList, Option.head?_toList] at hhead
  · exact congrArg Option.toList

/-- A session behind another one is decoded as it is due exactly when each letter meets the right level. -/
theorem decodeEach_eq_iff (before rest : List Action) :
    decodeEach (tracked before) rest = dueEach before rest ↔
      ∀ mid action after, rest = mid ++ action :: after → action.typesLetter = true →
        (before ++ mid).count (.again capsLock) % 2 = 0 := by
  induction rest generalizing before with
  | nil => simp [decodeEach, dueEach]
  | cons action rest ih =>
    rw [decodeEach, dueEach, List.cons.injEq, step_due_iff, step, ih]
    constructor
    · rintro ⟨hfirst, hrest⟩ mid other after hsplit hletter
      cases mid with
      | nil =>
        obtain ⟨rfl, rfl⟩ := List.cons.inj hsplit
        rw [List.append_nil]
        exact hfirst hletter
      | cons head mid =>
        obtain ⟨rfl, htail⟩ := List.cons.inj hsplit
        rw [List.append_cons]
        exact hrest mid other after htail hletter
    · intro h
      refine ⟨fun hletter => ?_, fun mid other after hsplit hletter => ?_⟩
      · have hfirst := h [] action rest rfl hletter
        rwa [List.append_nil] at hfirst
      · rw [← List.append_cons]
        exact h (action :: mid) other after (by rw [hsplit]; rfl) hletter

/-- A session is decoded as it is due, and the ring is a queue of at most 64 events, exactly when no
letter is typed after an odd number of Caps Lock repeats. The ring never makes the difference. -/
theorem session_exact (actions : List Action) :
    (decodeEach Set1State.new actions = dueEach [] actions ∧
      ∀ ops, KeyRing.new.answers ops = queueAnswers [] ops) ↔ EvenRepeats actions := by
  have hring : ∀ ops, KeyRing.new.answers ops = queueAnswers [] ops := KeyRing.answers_queue KeyRing.new
  rw [← tracked_nil, decodeEach_eq_iff, and_iff_left hring]
  rfl

/-- Caps Lock, held until it repeats once, and then the A: one press of Caps Lock, but the letter
comes out small. -/
theorem capsLock_repeated :
    decodeEach Set1State.new
        [.press capsLock, .again capsLock, .release capsLock, .press ⟨false, 0x1E, by decide, by decide⟩] =
      [[], [], [], [{ key := .Char 'a'.toUInt8, ctrl := false }]] ∧
    dueEach [] [.press capsLock, .again capsLock, .release capsLock,
      .press ⟨false, 0x1E, by decide, by decide⟩] =
      [[], [], [], [{ key := .Char 'A'.toUInt8, ctrl := false }]] := by
  decide

end Lerux.Input
