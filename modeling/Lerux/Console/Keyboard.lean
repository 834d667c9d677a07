import Mathlib.Data.Fintype.Basic
import Mathlib.Data.List.Count
import Mathlib.Data.List.Perm.Basic
import Mathlib.Data.List.Lemmas

/-!
# The two keyboard decoders of the console

`scancode.rs` reads the make and break codes of PS/2 scan set 1 one at a time and keeps one shift
flag. `hid.rs` reads the boot reports of a USB keyboard, each the set of keys that are held, and
takes the level of Shift from the two modifier bits. A session of the keyboard is a sequence of
presses and releases of single keys with a code and a report for each.

The tables of the two files agree key by key, so the decoders differ in one thing: what they take
for the level of Shift. They yield the same bytes exactly when no key that has two levels is pressed
while one Shift is held and the last event of a Shift was the release of the other.
-/

namespace Lerux.Console

def toAsciiUppercase (byte : UInt8) : UInt8 :=
  if 'a'.toUInt8 ≤ byte ∧ byte ≤ 'z'.toUInt8 then byte - 0x20 else byte

/-! ### Scan set 1 -/

namespace Scancode

structure KeyState where
  shift : Bool := false
  caps : Bool := false
  extended : Bool := false
deriving DecidableEq, Repr

def letter (make : UInt8) : Option UInt8 :=
  match make with
  | 0x10 => some 'q'.toUInt8
  | 0x11 => some 'w'.toUInt8
  | 0x12 => some 'e'.toUInt8
  | 0x13 => some 'r'.toUInt8
  | 0x14 => some 't'.toUInt8
  | 0x15 => some 'y'.toUInt8
  | 0x16 => some 'u'.toUInt8
  | 0x17 => some 'i'.toUInt8
  | 0x18 => some 'o'.toUInt8
  | 0x19 => some 'p'.toUInt8
  | 0x1e => some 'a'.toUInt8
  | 0x1f => some 's'.toUInt8
  | 0x20 => some 'd'.toUInt8
  | 0x21 => some 'f'.toUInt8
  | 0x22 => some 'g'.toUInt8
  | 0x23 => some 'h'.toUInt8
  | 0x24 => some 'j'.toUInt8
  | 0x25 => some 'k'.toUInt8
  | 0x26 => some 'l'.toUInt8
  | 0x2c => some 'z'.toUInt8
  | 0x2d => some 'x'.toUInt8
  | 0x2e => some 'c'.toUInt8
  | 0x2f => some 'v'.toUInt8
  | 0x30 => some 'b'.toUInt8
  | 0x31 => some 'n'.toUInt8
  | 0x32 => some 'm'.toUInt8
  | _ => none

def levels (make : UInt8) : Option (UInt8 × UInt8) :=
  match make with
  | 0x02 => some ('1'.toUInt8, '!'.toUInt8)
  | 0x03 => some ('2'.toUInt8, '@'.toUInt8)
  | 0x04 => some ('3'.toUInt8, '#'.toUInt8)
  | 0x05 => some ('4'.toUInt8, '$'.toUInt8)
  | 0x06 => some ('5'.toUInt8, '%'.toUInt8)
  | 0x07 => some ('6'.toUInt8, '^'.toUInt8)
  | 0x08 => some ('7'.toUInt8, '&'.toUInt8)
  | 0x09 => some ('8'.toUInt8, '*'.toUInt8)
  | 0x0a => some ('9'.toUInt8, '('.toUInt8)
  | 0x0b => some ('0'.toUInt8, ')'.toUInt8)
  | 0x0c => some ('-'.toUInt8, '_'.toUInt8)
  | 0x0d => some ('='.toUInt8, '+'.toUInt8)
  | 0x1a => some ('['.toUInt8, '{'.toUInt8)
  | 0x1b => some (']'.toUInt8, '}'.toUInt8)
  | 0x27 => some (';'.toUInt8, ':'.toUInt8)
  | 0x28 => some ('\''.toUInt8, '"'.toUInt8)
  | 0x29 => some ('\x60'.toUInt8, '~'.toUInt8)
  | 0x2b => some ('\x5c'.toUInt8, '|'.toUInt8)
  | 0x33 => some (','.toUInt8, '<'.toUInt8)
  | 0x34 => some ('.'.toUInt8, '>'.toUInt8)
  | 0x35 => some ('/'.toUInt8, '?'.toUInt8)
  | 0x39 => some (' '.toUInt8, ' '.toUInt8)
  | _ => none

def symbol (make : UInt8) (shift : Bool) : Option UInt8 :=
  (levels make).map fun (plain, shifted) => if shift then shifted else plain

def decode (state : KeyState) (code : UInt8) : KeyState × Option UInt8 :=
  if state.extended then ({ state with extended := false }, none)
  else if code = 0xe0 ∨ code = 0xe1 then ({ state with extended := true }, none)
  else
    let released := decide (code &&& 0x80 ≠ 0)
    let make := code &&& 0x7f
    if make = 0x2a ∨ make = 0x36 then ({ state with shift := !released }, none)
    else if released then (state, none)
    else if make = 0x3a then ({ state with caps := !state.caps }, none)
    else if make = 0x1c then (state, some '\r'.toUInt8)
    else if make = 0x0e then (state, some 0x7f)
    else
      match letter make with
      | some letter =>
        let upper := state.shift ^^ state.caps
        (state, some (if upper then toAsciiUppercase letter else letter))
      | none => (state, symbol make state.shift)

/-- The bytes that a sequence of codes yields. -/
def bytes (state : KeyState) : List UInt8 → List UInt8
  | [] => []
  | code :: codes => (decode state code).2.toList ++ bytes (decode state code).1 codes

end Scancode

/-! ### Boot reports -/

namespace Hid

def shiftBits : UInt8 := 0x22
def rollover : UInt8 := 0x01
def usageCaps : UInt8 := 0x39

structure HidState where
  shift : Bool := false
  caps : Bool := false
  down : List UInt8 := List.replicate 6 0
deriving DecidableEq, Repr

def levels (usage : UInt8) : Option (UInt8 × UInt8) :=
  match usage with
  | 0x1e => some ('1'.toUInt8, '!'.toUInt8)
  | 0x1f => some ('2'.toUInt8, '@'.toUInt8)
  | 0x20 => some ('3'.toUInt8, '#'.toUInt8)
  | 0x21 => some ('4'.toUInt8, '$'.toUInt8)
  | 0x22 => some ('5'.toUInt8, '%'.toUInt8)
  | 0x23 => some ('6'.toUInt8, '^'.toUInt8)
  | 0x24 => some ('7'.toUInt8, '&'.toUInt8)
  | 0x25 => some ('8'.toUInt8, '*'.toUInt8)
  | 0x26 => some ('9'.toUInt8, '('.toUInt8)
  | 0x27 => some ('0'.toUInt8, ')'.toUInt8)
  | 0x2c => some (' '.toUInt8, ' '.toUInt8)
  | 0x2d => some ('-'.toUInt8, '_'.toUInt8)
  | 0x2e => some ('='.toUInt8, '+'.toUInt8)
  | 0x2f => some ('['.toUInt8, '{'.toUInt8)
  | 0x30 => some (']'.toUInt8, '}'.toUInt8)
  | 0x31 => some ('\x5c'.toUInt8, '|'.toUInt8)
  | 0x33 => some (';'.toUInt8, ':'.toUInt8)
  | 0x34 => some ('\''.toUInt8, '"'.toUInt8)
  | 0x35 => some ('\x60'.toUInt8, '~'.toUInt8)
  | 0x36 => some (','.toUInt8, '<'.toUInt8)
  | 0x37 => some ('.'.toUInt8, '>'.toUInt8)
  | 0x38 => some ('/'.toUInt8, '?'.toUInt8)
  | _ => none

def usageByte (usage : UInt8) (shift caps : Bool) : Option UInt8 :=
  if 0x04 ≤ usage ∧ usage < 0x1e then
    let letter := 'a'.toUInt8 + (usage - 0x04)
    let upper := shift ^^ caps
    some (if upper then toAsciiUppercase letter else letter)
  else if usage = 0x28 then some '\r'.toUInt8
  else if usage = 0x2a then some 0x7f
  else (levels usage).map fun (plain, shifted) => if shift then shifted else plain

/-- One usage of a report: Caps Lock and the bytes written so far, of which `out` takes `room`. -/
def slot (down : List UInt8) (shift : Bool) (room : Nat) (acc : Bool × List UInt8) (usage : UInt8) :
    Bool × List UInt8 :=
  if usage = 0 ∨ usage ∈ down then acc
  else if usage = usageCaps then (!acc.1, acc.2)
  else
    match usageByte usage shift acc.1 with
    | none => acc
    | some byte => if acc.2.length < room then (acc.1, acc.2 ++ [byte]) else acc

def decode (state : HidState) (report : List UInt8) (room : Nat) : HidState × List UInt8 :=
  if report.length < 8 ∨ rollover ∈ (report.drop 2).take 6 then (state, [])
  else
    let shift := decide (report.headD 0 &&& shiftBits ≠ 0)
    let slots := (report.drop 2).take 6
    let acc := slots.foldl (slot state.down shift room) (state.caps, [])
    ({ shift, caps := acc.1, down := slots }, acc.2)

/-- The bytes that a sequence of reports yields, each decoded into the six bytes that `poll` has for it. -/
def bytes (state : HidState) : List (List UInt8) → List UInt8
  | [] => []
  | report :: reports => (decode state report 6).2 ++ bytes (decode state report 6).1 reports

end Hid

/-! ### The keyboard -/

inductive Key where
  | letter (index : Fin 26)
  | digit (index : Fin 10)
  | minus | equal | leftBracket | rightBracket | backslash | semicolon | quote | grave | comma | dot | slash
  | space | enter | backspace | capsLock | leftShift | rightShift
deriving DecidableEq, Repr

namespace Key

/-- The make code of scan set 1, of the letters in the order of the alphabet and of the digits from
`1` to `0`. -/
def make : Key → UInt8
  | letter index => [0x1e, 0x30, 0x2e, 0x20, 0x12, 0x21, 0x22, 0x23, 0x17, 0x24, 0x25, 0x26, 0x32,
    0x31, 0x18, 0x19, 0x10,
      0x13, 0x1f, 0x14, 0x16, 0x2f, 0x11, 0x2d, 0x15, 0x2c].getD index 0
  | digit index => 0x02 + UInt8.ofNat index
  | minus => 0x0c
  | equal => 0x0d
  | leftBracket => 0x1a
  | rightBracket => 0x1b
  | backslash => 0x2b
  | semicolon => 0x27
  | quote => 0x28
  | grave => 0x29
  | comma => 0x33
  | dot => 0x34
  | slash => 0x35
  | space => 0x39
  | enter => 0x1c
  | backspace => 0x0e
  | capsLock => 0x3a
  | leftShift => 0x2a
  | rightShift => 0x36

/-- The HID usage, which a modifier does not put into a slot. -/
def usage : Key → Option UInt8
  | letter index => some (0x04 + UInt8.ofNat index)
  | digit index => some (0x1e + UInt8.ofNat index)
  | minus => some 0x2d
  | equal => some 0x2e
  | leftBracket => some 0x2f
  | rightBracket => some 0x30
  | backslash => some 0x31
  | semicolon => some 0x33
  | quote => some 0x34
  | grave => some 0x35
  | comma => some 0x36
  | dot => some 0x37
  | slash => some 0x38
  | space => some 0x2c
  | enter => some 0x28
  | backspace => some 0x2a
  | capsLock => some 0x39
  | leftShift => none
  | rightShift => none

/-- The keys whose byte depends on the level of Shift: letters, digits and punctuation. -/
def hasLevels : Key → Bool
  | space | enter | backspace | capsLock | leftShift | rightShift => false
  | _ => true

def isShift : Key → Bool
  | leftShift | rightShift => true
  | _ => false

end Key

inductive Event where
  | press (key : Key)
  | release (key : Key)
deriving DecidableEq, Repr

namespace Event

def code : Event → UInt8
  | press key => key.make
  | release key => key.make ||| 0x80

/-- The keys held after the event. -/
def board (held : List Key) : Event → List Key
  | press key => key :: held
  | release key => held.erase key

/-- Whether the last event of a Shift was a press. -/
def lastShift (last : Bool) : Event → Bool
  | press key => if key.isShift then true else last
  | release key => if key.isShift then false else last

end Event

def usages (held : List Key) : List UInt8 :=
  held.filterMap Key.usage

def shiftHeld (held : List Key) : Bool :=
  decide (Key.leftShift ∈ held ∨ Key.rightShift ∈ held)

def modifiers (held : List Key) : UInt8 :=
  (if Key.leftShift ∈ held then 0x02 else 0) ||| (if Key.rightShift ∈ held then 0x20 else 0)

/-- The report shows the keys that are held: the modifiers, any reserved byte, and the usages in any
slots. -/
structure Shows (held : List Key) (report : List UInt8) : Prop where
  length : report.length = 8
  head : report.headD 0 = modifiers held
  slots : (report.drop 2).Perm (usages held ++ List.replicate (6 - (usages held).length) 0)

def Allowed (held : List Key) : Event → Prop
  | .press key => key ∉ held ∧ (usages (key :: held)).length ≤ 6
  | .release key => key ∈ held

/-- A session that goes on from the keys that are held: its events and the report after each. -/
inductive Session : List Key → List Event → List (List UInt8) → Prop
  | done (held : List Key) : Session held [] []
  | next {held : List Key} {event : Event} {events : List Event} {report : List UInt8}
      {reports : List (List UInt8)} :
    Allowed held event → Shows (event.board held) report → Session (event.board held) events reports →
    Session held (event :: events) (report :: reports)

/-! ### One event -/

namespace Key

theorem forall_of {P : Key → Prop} (hletter : ∀ index, P (letter index)) (hdigit : ∀ index, P (digit index))
    (hmark : ∀ key ∈ [minus, equal, leftBracket, rightBracket, backslash, semicolon, quote, grave,
      comma, dot, slash, space,
      enter, backspace, capsLock, leftShift, rightShift], P key) (key : Key) : P key := by
  cases key with
  | letter index => exact hletter index
  | digit index => exact hdigit index
  | _ => exact hmark _ (by decide)

/-- What a key types at the two levels, by the table of the boot reports. -/
def byte (key : Key) (shift caps : Bool) : Option UInt8 :=
  key.usage.bind (Hid.usageByte · shift caps)

/-- The tables of the two decoders agree on every key. -/
theorem decode_make (key : Key) : ∀ shift caps : Bool, Scancode.decode ⟨shift, caps, false⟩ key.make =
    (⟨if key.isShift then true else shift, if key = capsLock then !caps else caps, false⟩,
      key.byte shift caps) := by
  revert key
  exact forall_of (by decide) (by decide) (by decide)

theorem decode_break (key : Key) : ∀ shift caps : Bool,
    Scancode.decode ⟨shift, caps, false⟩ (key.make ||| 0x80) =
    (⟨if key.isShift then false else shift, caps, false⟩, none) := by
  revert key
  exact forall_of (by decide) (by decide) (by decide)

/-- A key types one byte at either level or none at both, and the two bytes differ exactly if the
key has levels. -/
theorem byte_level (key : Key) : ∀ shift level caps : Bool,
    (key.byte shift caps).isSome = (key.byte level caps).isSome ∧
    (key.byte shift caps = key.byte level caps ↔ key.hasLevels = true → shift = level) := by
  revert key
  exact forall_of (by decide) (by decide) (by decide)

theorem usage_isNone (key : Key) : key.usage = none ↔ key.isShift = true := by
  revert key
  exact forall_of (by decide) (by decide) (by decide)

theorem usage_ne (key : Key) : key.usage ≠ some 0 ∧ key.usage ≠ some Hid.rollover := by
  revert key
  exact forall_of (by decide) (by decide) (by decide)

theorem usage_caps (key : Key) : key.usage = some Hid.usageCaps ↔ key = capsLock := by
  revert key
  exact forall_of (by decide) (by decide) (by decide)

theorem usage_inj (key : Key) : ∀ other : Key, key.usage = other.usage →
    key = other ∨ key.isShift = true := by
  revert key
  refine forall_of (fun i => ?_) (fun i => ?_) ?_
  · refine forall_of ?_ ?_ ?_ <;> revert i <;> decide
  · refine forall_of ?_ ?_ ?_ <;> revert i <;> decide
  · intro key hkey
    refine forall_of ?_ ?_ ?_ <;> revert key <;> decide

end Key

namespace Event

/-- What the event types at the levels of Shift and Caps Lock. -/
def typed (shift caps : Bool) : Event → Option UInt8
  | press key => key.byte shift caps
  | release _ => none

def caps (caps : Bool) : Event → Bool
  | press key => if key = Key.capsLock then !caps else caps
  | release _ => caps

theorem decode_code (event : Event) (shift caps : Bool) : Scancode.decode ⟨shift, caps, false⟩ event.code =
    (⟨event.lastShift shift, event.caps caps, false⟩, event.typed shift caps) := by
  cases event with
  | press key => exact key.decode_make shift caps
  | release key => exact key.decode_break shift caps

end Event

theorem mem_usages {held : List Key} {usage : UInt8} : usage ∈ usages held ↔
    ∃ key ∈ held, key.usage = some usage :=
  List.mem_filterMap

theorem shift_modifiers (held : List Key) : decide (modifiers held &&& Hid.shiftBits ≠ 0) =
    shiftHeld held := by
  unfold modifiers shiftHeld
  by_cases hl : Key.leftShift ∈ held <;> by_cases hr : Key.rightShift ∈
    held <;> simp only [hl, hr] <;> decide

namespace Shows

variable {held : List Key} {report : List UInt8}

theorem mem_slots (h : Shows held report) {usage : UInt8} (hmem : usage ∈ report.drop 2) :
    usage = 0 ∨ usage ∈ usages held := by
  have hpad := h.slots.mem_iff.mp hmem
  rw [List.mem_append] at hpad
  exact hpad.elim Or.inr fun hzero => Or.inl (List.eq_of_mem_replicate hzero)

theorem slots_mem (h : Shows held report) {usage : UInt8} (hmem : usage ∈ usages held) :
    usage ∈ report.drop 2 :=
  h.slots.mem_iff.mpr (List.mem_append_left _ hmem)

theorem take_slots (h : Shows held report) : (report.drop 2).take 6 = report.drop 2 := by
  apply List.take_of_length_le
  rw [List.length_drop, h.length]

theorem rollover (h : Shows held report) : Hid.rollover ∉ report.drop 2 := by
  intro hmem
  obtain hzero | hheld := h.mem_slots hmem
  · exact absurd hzero (by decide)
  · obtain ⟨key, -, hkey⟩ := (mem_usages).mp hheld
    exact key.usage_ne.2 hkey

theorem decode (h : Shows held report) (state : Hid.HidState) (room : Nat) : Hid.decode state report room =
    (⟨shiftHeld held, ((report.drop 2).foldl (Hid.slot state.down (shiftHeld held) room)
      (state.caps, [])).1, report.drop 2⟩,
      ((report.drop 2).foldl (Hid.slot state.down (shiftHeld held) room) (state.caps, [])).2) := by
  have hread : ¬(report.length < 8 ∨ Hid.rollover ∈ (report.drop 2).take 6) := by
    rw [h.take_slots, h.length]
    exact fun hread => hread.elim (by omega) h.rollover
  rw [Hid.decode, if_neg hread]
  simp only [h.head, shift_modifiers, h.take_slots]

end Shows

namespace Hid

variable {down : List UInt8} {shift : Bool} {room : Nat}

theorem slots_held {slots : List UInt8} (h : ∀ usage ∈ slots, usage = 0 ∨ usage ∈ down)
    (acc : Bool × List UInt8) :
    slots.foldl (slot down shift room) acc = acc := by
  induction slots with
  | nil => rfl
  | cons usage slots ih =>
    have hslot : slot down shift room acc usage = acc := if_pos (h usage (List.mem_cons_self ..))
    rw [List.foldl_cons, hslot]
    exact ih fun other hother => h other (List.mem_cons_of_mem _ hother)

/-- The usage of a key that was not in the last report. -/
theorem slot_key {key : Key} {usage : UInt8} (hkey : key.usage = some usage) (hdown : usage ∉ down)
    (hroom : 0 < room)
    (caps : Bool) : slot down shift room (caps, []) usage =
      (Event.caps caps (.press key), (key.byte shift caps).toList) := by
  have hzero : usage ≠ 0 := fun h => key.usage_ne.1 (h ▸ hkey)
  have hnew : ¬(usage = 0 ∨ usage ∈ down) := fun h => h.elim hzero hdown
  have hbyte : key.byte shift caps = usageByte usage shift caps := by rw [Key.byte, hkey, Option.bind_some]
  have hcaps : usage = usageCaps ↔ key = Key.capsLock := by rw [← key.usage_caps, hkey, Option.some_inj]
  rw [slot, if_neg hnew, Event.caps, hbyte]
  by_cases hlock : usage = usageCaps
  · subst hlock
    have hnone : usageByte usageCaps shift caps = none := by cases shift <;> cases caps <;> rfl
    rw [if_pos rfl, if_pos (hcaps.mp rfl), hnone, Option.toList_none]
  · rw [if_neg hlock, if_neg fun h => hlock (hcaps.mpr h)]
    cases usageByte usage shift caps with
    | none => rfl
    | some byte => exact if_pos hroom

end Hid

/-- One report after the one that showed the keys held before: its level of Shift is that of the
keys held now. -/
theorem decode_report {held : List Key} {event : Event} (hallowed : Allowed held event) {last : List UInt8}
    (hlast : ∀ usage ∈ usages held, usage ∈ last) (hpad : ∀ usage ∈ last, usage = 0 ∨ usage ∈ usages held)
    {report : List UInt8} (hshow : Shows (event.board held) report) (shift caps : Bool) :
    Hid.decode ⟨shift, caps, last⟩ report 6 =
      (⟨shiftHeld (event.board held), event.caps caps, report.drop 2⟩,
      (event.typed (shiftHeld (event.board held)) caps).toList) := by
  rw [hshow.decode]
  suffices hslots : (report.drop 2).foldl (Hid.slot last (shiftHeld (event.board held)) 6) (caps, []) =
      (event.caps caps, (event.typed (shiftHeld (event.board held)) caps).toList) by rw [hslots]
  cases event with
  | release key =>
    apply Hid.slots_held
    intro usage hmem
    obtain hzero | hheld := hshow.mem_slots hmem
    · exact Or.inl hzero
    · obtain ⟨other, hother, husage⟩ := (mem_usages).mp hheld
      exact Or.inr (hlast usage ((mem_usages).mpr ⟨other, List.mem_of_mem_erase hother, husage⟩))
  | press key =>
    have hboard : usages (Event.board held (.press key)) = key.usage.toList ++ usages held := by
      rw [Event.board, usages, List.filterMap_cons]
      cases key.usage <;> rfl
    cases husage : key.usage with
    | none =>
      have hcaps : key ≠ Key.capsLock := fun h => by rw [h] at husage; cases husage
      have hbyte : ∀ shift : Bool, key.byte shift caps = none :=
        fun shift => by rw [Key.byte, husage, Option.bind_none]
      rw [husage, Option.toList_none, List.nil_append] at hboard
      rw [Event.caps, Event.typed, if_neg hcaps, hbyte, Option.toList_none]
      apply Hid.slots_held
      intro usage hmem
      have hheld := hshow.mem_slots hmem
      rw [hboard] at hheld
      exact hheld.imp_right (hlast usage)
    | some usage =>
      rw [husage, Option.toList_some] at hboard
      have hnew : usage ∉ usages held := by
        intro hmem
        obtain ⟨other, hother, hsame⟩ := (mem_usages).mp hmem
        obtain rfl | hshift := key.usage_inj other (husage.trans hsame.symm)
        · exact hallowed.1 hother
        · rw [← key.usage_isNone, husage] at hshift
          cases hshift
      have hdown : usage ∉ last := fun hmem =>
        (hpad usage hmem).elim (fun h => key.usage_ne.1 (h ▸ husage)) hnew
      -- the new usage stands in one slot, and what stands in the others was in the last report
      obtain ⟨before, after, hsplit⟩ := List.append_of_mem
        (hshow.slots_mem (hboard ▸ List.mem_append_left _ (List.mem_singleton_self usage)))
      have hrest : ∀ other ∈ before ++ after, other = 0 ∨ other ∈ last := by
        intro other hother
        have hperm := hshow.slots
        rw [hsplit, hboard] at hperm
        have hrest := (List.perm_middle.symm.trans hperm).cons_inv.mem_iff.mp hother
        exact (List.mem_append.mp hrest).elim (fun h => Or.inr (hlast other h)) fun h => Or.inl
          (List.eq_of_mem_replicate h)
      rw [hsplit, List.foldl_append, List.foldl_cons,
        Hid.slots_held fun other h => hrest other (List.mem_append_left _ h),
          Hid.slot_key husage hdown (by decide),
        Hid.slots_held fun other h => hrest other (List.mem_append_right _ h)]
      rfl

/-! ### Sessions -/

/-- Whenever a key that has levels is pressed, the last event of a Shift was a press exactly if a
Shift is held. -/
def SameLevel (held : List Key) (last : Bool) (events : List Event) : Prop :=
  ∀ before key after, events = before ++ Event.press key :: after → key.hasLevels = true →
    before.foldl Event.lastShift last = shiftHeld (before.foldl Event.board held)

theorem sameLevel_cons {held : List Key} {last : Bool} {event : Event} {events : List Event} :
    SameLevel held last (event :: events) ↔
      (∀ key, event = .press key → key.hasLevels = true → last = shiftHeld held) ∧
        SameLevel (event.board held) (event.lastShift last) events := by
  constructor
  · intro h
    refine ⟨fun key hkey hlevels => ?_, fun before key after hsplit hlevels => ?_⟩
    · exact h [] key events (by rw [hkey, List.nil_append]) hlevels
    · exact h (event :: before) key after (by rw [hsplit, List.cons_append]) hlevels
  · intro ⟨hhead, htail⟩ before key after hsplit hlevels
    cases before with
    | nil => exact hhead key (List.cons.inj hsplit).1 hlevels
    | cons first before =>
      obtain ⟨rfl, hrest⟩ := List.cons.inj hsplit
      exact htail before key after hrest hlevels

theorem shiftHeld_cons {key : Key} (h : key.hasLevels = true) (held : List Key) :
    shiftHeld (key :: held) = shiftHeld held := by
  have hleft : key ≠ Key.leftShift := fun heq => by rw [heq] at h; cases h
  have hright : key ≠ Key.rightShift := fun heq => by rw [heq] at h; cases h
  simp only [shiftHeld, List.mem_cons, hleft.symm, hright.symm, false_or]

/-- One event types the same at the two levels exactly if it is no press of a key that has levels or
the levels are one. -/
theorem typed_level (event : Event) (held : List Key) (last caps : Bool) :
    (event.typed last caps).toList.length =
      (event.typed (shiftHeld (event.board held)) caps).toList.length ∧
      (event.typed last caps = event.typed (shiftHeld (event.board held)) caps ↔
        ∀ key, event = .press key → key.hasLevels = true → last = shiftHeld held) := by
  cases event with
  | release key => exact ⟨rfl, fun _ _ h => (by cases h), fun _ => rfl⟩
  | press key =>
    obtain ⟨hsome, hsame⟩ := key.byte_level last (shiftHeld (key :: held)) caps
    refine ⟨?_, hsame.trans ⟨?_, ?_⟩⟩
    · show (key.byte last caps).toList.length = (key.byte (shiftHeld (key :: held)) caps).toList.length
      cases hlast : key.byte last caps <;> cases hheld : key.byte
        (shiftHeld (key :: held)) caps <;> simp_all
    · rintro h other hother hlevels
      cases hother
      rw [h hlevels, shiftHeld_cons hlevels]
    · intro h hlevels
      rw [h key rfl hlevels, shiftHeld_cons hlevels]

theorem bytes_eq_iff {held : List Key} {events : List Event} {reports : List (List UInt8)}
    (h : Session held events reports)
    (last shift caps : Bool) {down : List UInt8} (hdown : ∀ usage ∈ usages held, usage ∈ down)
    (hpad : ∀ usage ∈ down, usage = 0 ∨ usage ∈ usages held) :
    Scancode.bytes ⟨last, caps, false⟩ (events.map Event.code) = Hid.bytes ⟨shift, caps, down⟩ reports ↔
      SameLevel held last events := by
  induction h generalizing last shift caps down with
  | done => exact ⟨fun _ before key after h => absurd h (by simp), fun _ => rfl⟩
  | @next held event events report reports hallowed hshow _ ih =>
    obtain ⟨hlength, hsame⟩ := typed_level event held last caps
    rw [sameLevel_cons, ← hsame, ← ih (event.lastShift last) (shiftHeld (event.board held))
      (event.caps caps)
      (fun _ => hshow.slots_mem) (fun _ => hshow.mem_slots)]
    rw [List.map_cons, Scancode.bytes, Hid.bytes, event.decode_code,
      decode_report hallowed hdown hpad hshow]
    constructor
    · intro heq
      obtain ⟨hhead, htail⟩ := List.append_inj heq hlength
      exact ⟨by simpa using congrArg List.head? hhead, htail⟩
    · rintro ⟨hhead, htail⟩
      rw [hhead, htail]

/-- The decoders yield the same bytes from a session that begins with no key held exactly if every
press finds one level of Shift. -/
theorem decoders_agree {events : List Event} {reports : List (List UInt8)} (h : Session [] events reports) :
    Scancode.bytes {} (events.map Event.code) = Hid.bytes {} reports ↔ SameLevel [] false events := by
  apply bytes_eq_iff h
  · intro usage hmem
    cases hmem
  · exact fun usage hmem => Or.inl (List.eq_of_mem_replicate hmem)

/-- Both Shifts are held and one is released before `a` is pressed. -/
def bothShifts : List Event :=
  [.press .leftShift, .press .rightShift, .release .rightShift, .press (.letter 0)]

def bothShiftsReports : List (List UInt8) :=
  [[0x02, 0, 0, 0, 0, 0, 0, 0], [0x22, 0, 0, 0, 0, 0, 0, 0], [0x02, 0, 0, 0, 0, 0, 0, 0],
    [0x02, 0, 0x04, 0, 0, 0, 0, 0]]

theorem session_bothShifts : Session [] bothShifts bothShiftsReports := by
  refine .next ⟨by decide, by decide⟩ ⟨rfl, rfl, by decide⟩ ?_
  refine .next ⟨by decide, by decide⟩ ⟨rfl, rfl, by decide⟩ ?_
  refine .next (by decide : Key.rightShift ∈ _) ⟨rfl, rfl, by decide⟩ ?_
  exact .next ⟨by decide, by decide⟩ ⟨rfl, rfl, by decide⟩ (.done _)

theorem decoders_agree_bothShifts : Scancode.bytes {} (bothShifts.map Event.code) =
    Hid.bytes {} bothShiftsReports ↔
    SameLevel [] false bothShifts :=
  decoders_agree session_bothShifts

/-- The scan codes yield `a` and the reports yield `A`. -/
theorem decoders_differ : ¬∀ (events : List Event) (reports : List (List UInt8)),
    Session [] events reports →
    Scancode.bytes {} (events.map Event.code) = Hid.bytes {} reports := by
  intro h
  have hsame := h bothShifts bothShiftsReports session_bothShifts
  exact absurd hsame (by decide)

end Lerux.Console
