import Lerux.Base.Checked
import Lerux.Base.LittleEndian
import Mathlib.Tactic.SplitIfs

/-!
# The scanout mode

`mode.rs` and `pixel.rs` of `lerux-desk`: the record of a firmware mode, the checks on one
(`validated`), the mode that is painted (`panelMode`), and the painters over the mapped frame. A
shift by 32 or more stops the program (`pack`).

The checks say nothing of the shifts, and a record that fails one of them is taken for a cleared
page (`scanout_exact`).
-/

namespace Lerux.Desk

open Base

def addressRows : Nat := 16

def framebufferCap : Nat := 0x1000000

def modeRecordPhys : UInt64 := 0x01FE0000

def framebufferPhys : UInt64 := 0x00FC90000000

def framebufferBytes : Nat := 0x7E9000

def recordLen : Nat := 40

def modeMagic : UInt64 := 0x4D4F44454C525558

structure Mask where
  shift : UInt8
  width : UInt8
deriving DecidableEq

structure ScanoutMode where
  address : UInt64
  pitch : UInt32
  width : UInt32
  height : UInt32
  bpp : UInt8
  red : Mask
  green : Mask
  blue : Mask
deriving DecidableEq

structure ModeParts where
  address : UInt64
  pitch : UInt32
  width : UInt32
  height : UInt32
  bpp : UInt8
  redShift : UInt8
  redWidth : UInt8
  greenShift : UInt8
  greenWidth : UInt8
  blueShift : UInt8
  blueWidth : UInt8

def swiftRecordedMode : ScanoutMode := ⟨framebufferPhys, 7680, 1920, 1080, 32, ⟨16, 8⟩, ⟨8, 8⟩, ⟨0, 8⟩⟩

/-! ### The record -/

def readU8 (bytes : List UInt8) (off : Nat) : Option UInt8 := bytes[off]?

def readU32 (bytes : List UInt8) (off : Nat) : Option UInt32 := (readLe 4 bytes off).map UInt32.ofNat

def readU64 (bytes : List UInt8) (off : Nat) : Option UInt64 := (readLe 8 bytes off).map UInt64.ofNat

def ModeParts.mode (parts : ModeParts) : ScanoutMode where
  address := parts.address
  pitch := parts.pitch
  width := parts.width
  height := parts.height
  bpp := parts.bpp
  red := ⟨parts.redShift, parts.redWidth⟩
  green := ⟨parts.greenShift, parts.greenWidth⟩
  blue := ⟨parts.blueShift, parts.blueWidth⟩

def validated (parts : ModeParts) : Option ScanoutMode := do
  if parts.height.toNat < addressRows ∨ parts.bpp ≠ 32 then none
  let minPitch ← checkedMul 32 parts.width.toNat 4
  if parts.pitch.toNat < minPitch then none
  let bytes ← checkedMul 64 parts.pitch.toNat parts.height.toNat
  if bytes > framebufferCap ∨ parts.address.toNat % 4096 ≠ 0 then none
  some parts.mode

/-- What a record has behind its magic number. -/
def recordParts (record : List UInt8) : Option ModeParts := do
  let address ← readU64 record 8
  let pitch ← readU32 record 16
  let width ← readU32 record 20
  let height ← readU32 record 24
  let bpp ← readU8 record 28
  let redShift ← readU8 record 29
  let redWidth ← readU8 record 30
  let greenShift ← readU8 record 31
  let greenWidth ← readU8 record 32
  let blueShift ← readU8 record 33
  let blueWidth ← readU8 record 34
  some ⟨address, pitch, width, height, bpp, redShift, redWidth, greenShift, greenWidth, blueShift,
    blueWidth⟩

namespace ScanoutMode

def parse (record : List UInt8) : Option ScanoutMode := do
  if record.length < recordLen then none
  let record := record.take recordLen
  if (← readU64 record 0) ≠ modeMagic then none
  validated (← recordParts record)

/-- The 40 bytes of the record, zeros last. -/
def record (m : ScanoutMode) : List UInt8 :=
  leBytes 8 modeMagic.toNat ++ leBytes 8 m.address.toNat ++ leBytes 4 m.pitch.toNat ++
    leBytes 4 m.width.toNat ++
    leBytes 4 m.height.toNat ++
    [m.bpp, m.red.shift, m.red.width, m.green.shift, m.green.width, m.blue.shift, m.blue.width, 0,
      0, 0, 0, 0]

def writeRecord (m : ScanoutMode) (out : List UInt8) : Option (List UInt8) :=
  if out.length < recordLen then none else some (m.record ++ out.drop recordLen)

end ScanoutMode

/-- What a tag has behind its header. The byte of the framebuffer type is read before. -/
def tagParts (tag : List UInt8) : Option ModeParts := do
  let address ← readU64 tag 8
  let pitch ← readU32 tag 16
  let width ← readU32 tag 20
  let height ← readU32 tag 24
  let bpp ← readU8 tag 28
  let redShift ← readU8 tag 32
  let redWidth ← readU8 tag 33
  let greenShift ← readU8 tag 34
  let greenWidth ← readU8 tag 35
  let blueShift ← readU8 tag 36
  let blueWidth ← readU8 tag 37
  some ⟨address, pitch, width, height, bpp, redShift, redWidth, greenShift, greenWidth, blueShift,
    blueWidth⟩

def modeFromMb2Tag (tag : List UInt8) : Option ScanoutMode := do
  let kind ← readU32 tag 0
  let size ← readU32 tag 4
  if kind ≠ 8 ∨ size.toNat < recordLen ∨ tag.length < size.toNat then none
  if (← readU8 tag 29) ≠ 1 then none
  validated (← tagParts tag)

def panelReady (modeAddress mappedPhys : UInt64) : Bool :=
  modeAddress ≠ 0 && modeAddress ≠ modeRecordPhys && modeAddress =
    mappedPhys && modeAddress.toNat % 4096 = 0

def panelMode (record : List UInt8) : Option ScanoutMode :=
  match ScanoutMode.parse record with
  | some mode =>
    let bytes := min (mode.pitch.toNat * mode.height.toNat) (2 ^ 64 - 1)
    if panelReady mode.address framebufferPhys ∧ bytes ≤ framebufferBytes then some mode else none
  | none => some swiftRecordedMode

/-! ### Painting -/

def scale : Nat := 2

def glyphs : List (UInt8 × List UInt8) :=
  [(32, [0, 0, 0, 0, 0, 0, 0, 0]), (48, [0x3C, 0x66, 0x6E, 0x76, 0x66, 0x66, 0x3C, 0]),
   (49, [0x18, 0x38, 0x18, 0x18, 0x18, 0x18, 0x7E, 0]), (50, [0x3C, 0x66, 0x06, 0x0C, 0x18, 0x30, 0x7E, 0]),
   (51, [0x3C, 0x66, 0x06, 0x1C, 0x06, 0x66, 0x3C, 0]), (52, [0x0C, 0x1C, 0x3C, 0x6C, 0x7E, 0x0C, 0x0C, 0]),
   (53, [0x7E, 0x60, 0x7C, 0x06, 0x06, 0x66, 0x3C, 0]), (54, [0x3C, 0x66, 0x60, 0x7C, 0x66, 0x66, 0x3C, 0]),
   (55, [0x7E, 0x06, 0x0C, 0x18, 0x30, 0x30, 0x30, 0]), (56, [0x3C, 0x66, 0x66, 0x3C, 0x66, 0x66, 0x3C, 0]),
   (57, [0x3C, 0x66, 0x66, 0x3E, 0x06, 0x66, 0x3C, 0]), (97, [0x00, 0x00, 0x3C, 0x06, 0x3E, 0x66, 0x3E, 0]),
   (98, [0x60, 0x60, 0x7C, 0x66, 0x66, 0x66, 0x7C, 0]), (99, [0x00, 0x00, 0x3C, 0x66, 0x60, 0x66, 0x3C, 0]),
   (100, [0x06, 0x06, 0x3E, 0x66, 0x66, 0x66, 0x3E, 0]),
     (101, [0x00, 0x00, 0x3C, 0x66, 0x7E, 0x60, 0x3C, 0]),
   (102, [0x1C, 0x36, 0x30, 0x78, 0x30, 0x30, 0x30, 0]),
     (103, [0x00, 0x00, 0x3E, 0x66, 0x66, 0x3E, 0x06, 0x7C]),
   (104, [0x60, 0x60, 0x7C, 0x66, 0x66, 0x66, 0x66, 0]),
     (105, [0x18, 0x00, 0x38, 0x18, 0x18, 0x18, 0x3C, 0]),
   (108, [0x38, 0x18, 0x18, 0x18, 0x18, 0x18, 0x3C, 0]),
     (109, [0x00, 0x00, 0x66, 0x7F, 0x7F, 0x6B, 0x63, 0]),
   (110, [0x00, 0x00, 0x7C, 0x66, 0x66, 0x66, 0x66, 0]),
     (111, [0x00, 0x00, 0x3C, 0x66, 0x66, 0x66, 0x3C, 0]),
   (113, [0x00, 0x00, 0x3E, 0x66, 0x66, 0x3E, 0x06, 0x06]),
     (114, [0x00, 0x00, 0x6C, 0x76, 0x60, 0x60, 0x60, 0]),
   (115, [0x00, 0x00, 0x3E, 0x60, 0x3C, 0x06, 0x7C, 0]),
     (116, [0x30, 0x30, 0x7C, 0x30, 0x30, 0x36, 0x1C, 0]),
   (117, [0x00, 0x00, 0x66, 0x66, 0x66, 0x66, 0x3E, 0]),
     (118, [0x00, 0x00, 0x66, 0x66, 0x66, 0x3C, 0x18, 0]),
   (119, [0x00, 0x00, 0x63, 0x6B, 0x7F, 0x3E, 0x36, 0]),
     (120, [0x00, 0x00, 0x66, 0x3C, 0x18, 0x3C, 0x66, 0]),
   (121, [0x00, 0x00, 0x66, 0x66, 0x66, 0x3E, 0x06, 0x7C]),
     (62, [0xC0, 0x60, 0x30, 0x18, 0x30, 0x60, 0xC0, 0]),
   (107, [0x60, 0x60, 0x66, 0x6C, 0x78, 0x6C, 0x66, 0]),
     (112, [0x00, 0x00, 0x7C, 0x66, 0x66, 0x7C, 0x60, 0x60]),
   (46, [0x00, 0x00, 0x00, 0x00, 0x00, 0x18, 0x18, 0]), (58, [0x00, 0x18, 0x18, 0x00, 0x00, 0x18, 0x18, 0]),
   (45, [0x00, 0x00, 0x00, 0x7E, 0x00, 0x00, 0x00, 0]), (65, [0x38, 0x44, 0x44, 0x7C, 0x44, 0x44, 0x44, 0]),
   (66, [0x78, 0x44, 0x44, 0x78, 0x44, 0x44, 0x78, 0]), (67, [0x38, 0x44, 0x40, 0x40, 0x40, 0x44, 0x38, 0]),
   (68, [0x78, 0x44, 0x44, 0x44, 0x44, 0x44, 0x78, 0]), (69, [0x7C, 0x40, 0x40, 0x78, 0x40, 0x40, 0x7C, 0]),
   (70, [0x7C, 0x40, 0x40, 0x78, 0x40, 0x40, 0x40, 0]), (71, [0x38, 0x44, 0x40, 0x5C, 0x44, 0x44, 0x38, 0]),
   (72, [0x44, 0x44, 0x44, 0x7C, 0x44, 0x44, 0x44, 0]), (73, [0x38, 0x10, 0x10, 0x10, 0x10, 0x10, 0x38, 0]),
   (74, [0x1C, 0x08, 0x08, 0x08, 0x08, 0x48, 0x30, 0]), (75, [0x44, 0x48, 0x50, 0x60, 0x50, 0x48, 0x44, 0]),
   (76, [0x40, 0x40, 0x40, 0x40, 0x40, 0x40, 0x7C, 0]), (77, [0x44, 0x6C, 0x54, 0x54, 0x44, 0x44, 0x44, 0]),
   (78, [0x44, 0x64, 0x54, 0x4C, 0x44, 0x44, 0x44, 0]), (79, [0x38, 0x44, 0x44, 0x44, 0x44, 0x44, 0x38, 0]),
   (80, [0x78, 0x44, 0x44, 0x78, 0x40, 0x40, 0x40, 0]), (81, [0x38, 0x44, 0x44, 0x44, 0x54, 0x48, 0x34, 0]),
   (82, [0x78, 0x44, 0x44, 0x78, 0x50, 0x48, 0x44, 0]), (83, [0x3C, 0x40, 0x40, 0x38, 0x04, 0x04, 0x78, 0]),
   (84, [0x7C, 0x10, 0x10, 0x10, 0x10, 0x10, 0x10, 0]), (85, [0x44, 0x44, 0x44, 0x44, 0x44, 0x44, 0x38, 0]),
   (86, [0x44, 0x44, 0x44, 0x44, 0x44, 0x28, 0x10, 0]), (87, [0x44, 0x44, 0x44, 0x54, 0x54, 0x54, 0x28, 0]),
   (88, [0x44, 0x44, 0x28, 0x10, 0x28, 0x44, 0x44, 0]), (89, [0x44, 0x44, 0x28, 0x10, 0x10, 0x10, 0x10, 0]),
   (90, [0x7C, 0x04, 0x08, 0x10, 0x20, 0x40, 0x7C, 0])]

def glyph (ch : UInt8) : List UInt8 := (glyphs.lookup ch).getD [0x7E, 0x42, 0x42, 0x42, 0x42, 0x42, 0x7E, 0]

/-- A shift by 32 or more is no number. -/
def checkedShl (value : UInt32) (shift : UInt8) : Option UInt32 :=
  if shift < 32 then some (value <<< shift.toUInt32) else none

def pack (red green blue : UInt8) (white : Bool) : Option UInt32 :=
  if white then do
    let r ← checkedShl 0xff red
    let g ← checkedShl 0xff green
    let b ← checkedShl 0xff blue
    some (r ||| g ||| b)
  else checkedShl 0xaa blue

structure Pen where
  pitch : Nat
  width : Nat
  height : Nat
  red : UInt8
  green : UInt8
  blue : UInt8

def ScanoutMode.pen (m : ScanoutMode) : Pen :=
  ⟨m.pitch.toNat, m.width.toNat, m.height.toNat, m.red.shift, m.green.shift, m.blue.shift⟩

/-- Bytes copied over those at a place. There is no slice beyond the end. -/
def copyAt (frame : List UInt8) (off : Nat) (bytes : List UInt8) : Option (List UInt8) :=
  if off + bytes.length ≤ frame.length then
    some (frame.take off ++ bytes ++ frame.drop (off + bytes.length)) else none

/-- The row with the color in each whole pixel of it. -/
def fillRow (row color : List UInt8) : List UInt8 :=
  (List.replicate (row.length / 4) color).flatten ++ row.drop (4 * (row.length / 4))

def fillRows (pitch : Nat) (color : List UInt8) (frame : List UInt8) (rows : List Nat) :
    Option (List UInt8) :=
  rows.foldlM (fun frame y =>
    let start := y * pitch
    if start + pitch ≤ frame.length then
      some (frame.take start ++ fillRow ((frame.drop start).take pitch) color ++ frame.drop (start + pitch))
    else none) frame

def fillBackground (frame : List UInt8) (pen : Pen) : Option (List UInt8) :=
  if pen.pitch < 4 then some frame
  else do
    let bg ← pack pen.red pen.green pen.blue false
    fillRows pen.pitch (leBytes 4 bg.toNat) frame (List.range (min pen.height (frame.length / pen.pitch)))

/-- The places and colors of the pixels of a cell, in the order they are painted. -/
def cellPixels (pen : Pen) (col row : Nat) (ch : UInt8) (fg bg : UInt32) : List (Nat × UInt32) :=
  (glyph ch).zipIdx.flatMap fun (bits, gy) =>
    (List.range 8).flatMap fun gx =>
      (List.range scale).flatMap fun sy =>
        (List.range scale).map fun sx =>
          ((row * 8 * scale + gy * scale + sy) * pen.pitch + (col * 8 * scale + gx * scale + sx) * 4,
            if bits &&& (0x80 >>> gx.toUInt8) ≠ 0 then fg else bg)

/-- A pixel that is not in the frame ends the painting. -/
def paintPixels (frame : List UInt8) : List (Nat × UInt32) → List UInt8
  | [] => frame
  | (off, color) :: rest =>
    match copyAt frame off (leBytes 4 color.toNat) with
    | some frame => paintPixels frame rest
    | none => frame

def paintCell (frame : List UInt8) (pen : Pen) (col row : Nat) (ch : UInt8) : Option (List UInt8) := do
  let fg ← pack pen.red pen.green pen.blue true
  let bg ← pack pen.red pen.green pen.blue false
  if pen.pitch < 4 ∨ col * 8 * scale + 8 * scale > pen.width ∨
    row * 8 * scale + 8 * scale > pen.height then some frame
  else some (paintPixels frame (cellPixels pen col row ch fg bg))

/-! ### What is accepted -/

structure ModeParts.Valid (parts : ModeParts) : Prop where
  rows : addressRows ≤ parts.height.toNat
  bpp : parts.bpp = 32
  pitch : 4 * parts.width.toNat ≤ parts.pitch.toNat
  bytes : parts.pitch.toNat * parts.height.toNat ≤ framebufferCap
  page : parts.address.toNat % 4096 = 0

def ScanoutMode.parts (m : ScanoutMode) : ModeParts :=
  ⟨m.address, m.pitch, m.width, m.height, m.bpp, m.red.shift, m.red.width, m.green.shift,
    m.green.width, m.blue.shift, m.blue.width⟩

section accepted

variable {parts : ModeParts} {m : ScanoutMode} {record tag out : List UInt8}

theorem product_lt (a b : UInt32) : a.toNat * b.toNat < 2 ^ 64 := by
  have ha := a.toNat_lt
  have hb := b.toNat_lt
  calc a.toNat * b.toNat ≤ (2 ^ 32 - 1) * (2 ^ 32 - 1) := Nat.mul_le_mul (by omega) (by omega)
    _ < 2 ^ 64 := by decide

theorem validated_eq_some : validated parts = some m ↔ parts.Valid ∧ parts.mode = m := by
  have hpitch := parts.pitch.toNat_lt
  unfold validated checkedMul
  rw [if_pos (product_lt parts.pitch parts.height)]
  simp only [Option.bind_eq_bind, Option.bind_none]
  constructor
  · intro h
    split_ifs at h with hfirst hmul
    · simp only [Option.bind_some] at h
      by_cases hle : parts.pitch.toNat < parts.width.toNat * 4
      · rw [if_pos hle] at h
        cases h
      · rw [if_neg hle] at h
        split at h
        · cases h
        · next hlast =>
          obtain ⟨hrows, hbpp⟩ := not_or.mp hfirst
          obtain ⟨hcap, hpage⟩ := not_or.mp hlast
          exact ⟨⟨Nat.le_of_not_lt hrows, not_not.mp hbpp, by omega, Nat.le_of_not_lt hcap,
            not_not.mp hpage⟩, Option.some.inj h⟩
    · cases h
  · rintro ⟨h, rfl⟩
    have hfirst : ¬(parts.height.toNat < addressRows ∨ parts.bpp ≠ 32) :=
      not_or.mpr ⟨Nat.not_lt.mpr h.rows, not_not.mpr h.bpp⟩
    have hmul : parts.width.toNat * 4 < 2 ^ 32 := by
      have hwidth := h.pitch
      omega
    have hle : ¬parts.pitch.toNat < parts.width.toNat * 4 := by
      have hwidth := h.pitch
      omega
    have hlast : ¬(parts.pitch.toNat * parts.height.toNat > framebufferCap ∨
      parts.address.toNat % 4096 ≠ 0) :=
      not_or.mpr ⟨Nat.not_lt.mpr h.bytes, not_not.mpr h.page⟩
    rw [if_neg hfirst, if_pos hmul]
    simp only [Option.bind_some, if_neg hle, if_neg hlast]

theorem readU64_take {off : Nat} (h : off + 8 ≤ recordLen) (hlen : recordLen ≤ record.length) :
    readU64 (record.take recordLen) off = readU64 record off := by
  rw [readU64, readLe_take h hlen, readU64]

theorem readU32_take {off : Nat} (h : off + 4 ≤ recordLen) (hlen : recordLen ≤ record.length) :
    readU32 (record.take recordLen) off = readU32 record off := by
  rw [readU32, readLe_take h hlen, readU32]

theorem readU8_take {off : Nat} (h : off < recordLen) : readU8 (record.take recordLen) off =
    readU8 record off :=
  List.getElem?_take_of_lt h

theorem recordParts_take (hlen : recordLen ≤ record.length) : recordParts (record.take recordLen) =
    recordParts record := by
  unfold recordParts
  rw [readU64_take (by decide) hlen, readU32_take (by decide) hlen, readU32_take (by decide) hlen,
    readU32_take (by decide) hlen,
    readU8_take (by decide), readU8_take (by decide), readU8_take (by decide),
      readU8_take (by decide), readU8_take (by decide),
    readU8_take (by decide), readU8_take (by decide)]

theorem parse_eq_some : ScanoutMode.parse record = some m ↔ recordLen ≤ record.length ∧
    readU64 record 0 = some modeMagic ∧
    ∃ parts, recordParts record = some parts ∧ parts.Valid ∧ parts.mode = m := by
  unfold ScanoutMode.parse
  by_cases hlen : record.length < recordLen
  · have hshort : ¬recordLen ≤ record.length := Nat.not_le.mpr hlen
    simp [hlen, hshort]
  · have hle := Nat.le_of_not_lt hlen
    rw [if_neg hlen]
    dsimp only
    rw [readU64_take (by decide) hle, recordParts_take hle]
    cases hmagic : readU64 record 0 with
    | none => simp
    | some magic =>
      by_cases heq : magic = modeMagic
      · cases hparts : recordParts record with
        | none => simp [heq]
        | some parts => simp [heq, hle, validated_eq_some]
      · simp [heq]

theorem recordParts_record (m : ScanoutMode) : recordParts m.record = some m.parts := by
  have haddress : readU64 m.record 8 = some m.address := by
    show some (UInt64.ofNat (leNat (leBytes 8 m.address.toNat))) = _
    rw [leNat_leBytes m.address.toNat_lt, UInt64.ofNat_toNat]
  have hword : ∀ w : UInt32, UInt32.ofNat (leNat (leBytes 4 w.toNat)) = w := fun w => by
    rw [leNat_leBytes w.toNat_lt, UInt32.ofNat_toNat]
  have hpitch : readU32 m.record 16 = some m.pitch := congrArg some (hword _)
  have hwidth : readU32 m.record 20 = some m.width := congrArg some (hword _)
  have hheight : readU32 m.record 24 = some m.height := congrArg some (hword _)
  unfold recordParts
  rw [haddress, hpitch, hwidth, hheight]
  rfl

theorem readU64_record (m : ScanoutMode) : readU64 m.record 0 = some modeMagic := by
  have hmagic : readU64 m.record 0 = some (UInt64.ofNat (leNat (leBytes 8 modeMagic.toNat))) := rfl
  rw [hmagic, leNat_leBytes modeMagic.toNat_lt, UInt64.ofNat_toNat]

/-- What is written is read again. -/
theorem parse_record (h : m.parts.Valid) : ScanoutMode.parse m.record = some m :=
  (parse_eq_some).mpr ⟨Nat.le_refl _, readU64_record m, m.parts, recordParts_record m, h, rfl⟩

theorem parse_append (hlen : recordLen ≤ record.length) (rest : List UInt8) :
    ScanoutMode.parse (record.take recordLen ++ rest) = ScanoutMode.parse record := by
  have htake : (record.take recordLen ++ rest).take recordLen = record.take recordLen := by
    rw [List.take_append_of_le_length (Nat.le_of_eq (List.length_take_of_le hlen).symm),
      List.take_take, Nat.min_self]
  have hlen' : ¬(record.take recordLen ++ rest).length < recordLen := by
    rw [List.length_append, List.length_take]
    omega
  unfold ScanoutMode.parse
  dsimp only
  rw [if_neg hlen', if_neg (Nat.not_lt.mpr hlen), htake]

theorem writeRecord_parse (h : m.parts.Valid) (hout : recordLen ≤ out.length) :
    ∃ written, m.writeRecord out = some written ∧ ScanoutMode.parse written = some m :=
  ⟨_, if_neg (Nat.not_lt.mpr hout), (@parse_append m.record (Nat.le_refl _) _).trans (parse_record h)⟩

end accepted

/-! ### What the painters touch -/

/-- The shifts are below the width of a pixel. -/
structure Pen.Shifts (pen : Pen) : Prop where
  red : pen.red < 32
  green : pen.green < 32
  blue : pen.blue < 32

section paint

variable {pen : Pen} {frame frame' bytes color row : List UInt8} {off pitch : Nat}

theorem checkedShl_isSome {shift : UInt8} (h : shift < 32) (value : UInt32) :
    ∃ c, checkedShl value shift = some c :=
  ⟨_, if_pos h⟩

theorem Pen.Shifts.pack (h : pen.Shifts) (white : Bool) :
    ∃ c, pack pen.red pen.green pen.blue white = some c := by
  cases white with
  | false => exact checkedShl_isSome h.blue 0xaa
  | true =>
    obtain ⟨r, hr⟩ := checkedShl_isSome h.red 0xff
    obtain ⟨g, hg⟩ := checkedShl_isSome h.green 0xff
    obtain ⟨b, hb⟩ := checkedShl_isSome h.blue 0xff
    refine ⟨r ||| g ||| b, ?_⟩
    show (do let r ← checkedShl 0xff pen.red; let g ← checkedShl 0xff pen.green; let b ← checkedShl 0xff pen.blue; some (r ||| g ||| b)) = _
    rw [hr, hg, hb]
    rfl

theorem copyAt_length (h : copyAt frame off bytes = some frame') : frame'.length = frame.length := by
  obtain ⟨hle, heq⟩ := Option.ite_none_right_eq_some.mp h
  rw [← Option.some.inj heq, List.length_append, List.length_append, List.length_take, List.length_drop]
  omega

theorem paintPixels_length (frame : List UInt8) (pixels : List (Nat × UInt32)) :
    (paintPixels frame pixels).length = frame.length := by
  induction pixels generalizing frame with
  | nil => rfl
  | cons pixel rest ih =>
    rw [paintPixels]
    cases hcopy : copyAt frame pixel.1 (leBytes 4 pixel.2.toNat) with
    | none => rfl
    | some frame' => exact (ih frame').trans (copyAt_length hcopy)

theorem fillRow_length (hcolor : color.length = 4) (row : List UInt8) : (fillRow row color).length =
    row.length := by
  rw [fillRow, List.length_append, List.length_flatten, List.map_replicate, List.sum_replicate_nat,
    hcolor, List.length_drop]
  omega

theorem fillRows_spec (hcolor : color.length = 4) (rows : List Nat) (frame : List UInt8)
    (hrows : ∀ y ∈ rows, y * pitch + pitch ≤ frame.length) :
    ∃ frame', fillRows pitch color frame rows = some frame' ∧ frame'.length = frame.length := by
  induction rows generalizing frame with
  | nil => exact ⟨frame, rfl, rfl⟩
  | cons y rows ih =>
    have hy := hrows y (List.mem_cons_self ..)
    have hlength : (frame.take (y * pitch) ++ fillRow ((frame.drop (y * pitch)).take pitch) color ++
        frame.drop (y * pitch + pitch)).length = frame.length := by
      rw [List.length_append, List.length_append, fillRow_length hcolor, List.length_take,
        List.length_take, List.length_drop,
        List.length_drop]
      omega
    obtain ⟨frame', hfill, hframe'⟩ := ih _ fun y' hy' => Nat.le_trans
      (hrows y' (List.mem_cons_of_mem _ hy')) (Nat.le_of_eq hlength.symm)
    refine ⟨frame', ?_, hframe'.trans hlength⟩
    rw [fillRows, List.foldlM_cons]
    dsimp only
    rw [if_pos hy]
    exact hfill

/-- The background is filled inside the frame. -/
theorem fillBackground_spec (h : pen.Shifts) (frame : List UInt8) :
    ∃ frame', fillBackground frame pen = some frame' ∧ frame'.length = frame.length := by
  unfold fillBackground
  by_cases hpitch : pen.pitch < 4
  · exact ⟨frame, if_pos hpitch, rfl⟩
  · obtain ⟨bg, hbg⟩ := h.pack false
    have hrows : ∀ y ∈ List.range (min pen.height (frame.length / pen.pitch)),
      y * pen.pitch + pen.pitch ≤ frame.length := by
      intro y hy
      have hlt : y + 1 ≤ frame.length / pen.pitch :=
        Nat.le_trans (List.mem_range.mp hy) (Nat.min_le_right _ _)
      calc y * pen.pitch + pen.pitch = (y + 1) * pen.pitch := (Nat.succ_mul _ _).symm
        _ ≤ frame.length / pen.pitch * pen.pitch := Nat.mul_le_mul_right _ hlt
        _ ≤ frame.length := Nat.div_mul_le_self _ _
    rw [if_neg hpitch, hbg]
    exact fillRows_spec (length_leBytes 4 _) _ frame hrows

/-- A cell is painted inside the frame. -/
theorem paintCell_spec (h : pen.Shifts) (frame : List UInt8) (col row : Nat) (ch : UInt8) :
    ∃ frame', paintCell frame pen col row ch = some frame' ∧ frame'.length = frame.length := by
  obtain ⟨fg, hfg⟩ := h.pack true
  obtain ⟨bg, hbg⟩ := h.pack false
  rw [paintCell, hfg, hbg]
  simp only [Option.bind_eq_bind, Option.bind_some]
  split
  · exact ⟨frame, rfl, rfl⟩
  · exact ⟨_, rfl, paintPixels_length _ _⟩

end paint

/-! ### The modes that are painted -/

/-- A mode that the painters are safe with, for a frame of any length and any height of the console. -/
structure ScanoutMode.Safe (m : ScanoutMode) : Prop where
  bytes : m.pitch.toNat * m.height.toNat ≤ framebufferBytes
  width : 4 * m.width.toNat ≤ m.pitch.toNat
  shifts : m.pen.Shifts
  background : ∀ frame height, ∃ frame', fillBackground frame { m.pen with height := height } =
    some frame' ∧ frame'.length = frame.length
  cell : ∀ frame col row ch, ∃ frame', paintCell frame m.pen col row ch = some frame' ∧
    frame'.length = frame.length

/-- The record has the magic number and names the address. -/
def Names (record : List UInt8) (address : UInt64) : Prop := readU64 record 0 = some modeMagic ∧
    readU64 record 8 = some address

/-- What is asked of a record that is painted by. -/
structure Meets (record : List UInt8) : Prop where
  reread : ∀ m out, ScanoutMode.parse record = some m ∨ panelMode record = some m → recordLen ≤ out.length →
    ∃ written, m.writeRecord out = some written ∧ ScanoutMode.parse written = some m
  off : ∀ address, Names record address → address ≠ framebufferPhys → panelMode record = none
  safe : ∀ m, panelMode record = some m → m.Safe

/-- What is asked of a tag whose mode is written. -/
def TagMeets (tag : List UInt8) : Prop :=
  ∀ m out, modeFromMb2Tag tag = some m → recordLen ≤ out.length →
    ∃ written, m.writeRecord out = some written ∧ ScanoutMode.parse written = some m ∧ Meets written

/-- The mapped buffer has the mode, with shifts that are too wide for a pixel. -/
def ModeParts.Wide (parts : ModeParts) : Prop :=
  parts.address = framebufferPhys ∧ parts.pitch.toNat * parts.height.toNat ≤ framebufferBytes ∧
    ¬parts.mode.pen.Shifts

/-- The record passes the checks, up to the shifts of a mode that is painted. -/
structure Checked (record : List UInt8) : Prop where
  other : ∀ address, Names record address → address ≠ framebufferPhys →
    recordLen ≤ record.length ∧ ∀ parts, recordParts record = some parts → parts.Valid
  shifts : recordLen ≤ record.length → readU64 record 0 = some modeMagic →
    ∀ parts, recordParts record = some parts → parts.Valid → ¬parts.Wide

/-- The same for a tag, whose record has the checks behind it. -/
def TagChecked (tag : List UInt8) : Prop :=
  ∀ size parts, readU32 tag 0 = some 8 → readU32 tag 4 = some size → recordLen ≤ size.toNat →
    size.toNat ≤ tag.length →
    readU8 tag 29 = some 1 → tagParts tag = some parts → parts.Valid → ¬parts.Wide

section exactness

variable {parts : ModeParts} {m m' : ScanoutMode} {record tag : List UInt8} {address : UInt64}

theorem panelReady_iff : panelReady address framebufferPhys = true ↔ address = framebufferPhys := by
  unfold panelReady
  constructor
  · intro h
    simp only [Bool.and_eq_true, decide_eq_true_eq] at h
    exact h.1.2
  · rintro rfl
    decide

theorem panelMode_of_parse (h : ScanoutMode.parse record = some m) : panelMode record = some m' ↔
    (m.address = framebufferPhys ∧ m.pitch.toNat * m.height.toNat ≤ framebufferBytes) ∧ m = m' := by
  have hmin : min (m.pitch.toNat * m.height.toNat) (2 ^ 64 - 1) = m.pitch.toNat * m.height.toNat :=
    Nat.min_eq_left (Nat.le_sub_one_of_lt (product_lt m.pitch m.height))
  unfold panelMode
  rw [h]
  dsimp only
  rw [hmin, Option.ite_none_right_eq_some, panelReady_iff, Option.some.injEq]

theorem panelMode_of_parse_none (h : ScanoutMode.parse record = none) :
    panelMode record = some swiftRecordedMode := by
  unfold panelMode
  rw [h]

theorem safe_of_shifts (hvalid : m.parts.Valid) (hbytes : m.pitch.toNat * m.height.toNat ≤
    framebufferBytes) (hshifts : m.pen.Shifts) :
    m.Safe where
  bytes := hbytes
  width := hvalid.pitch
  shifts := hshifts
  background frame height := @fillBackground_spec { m.pen with height := height }
    ⟨hshifts.red, hshifts.green, hshifts.blue⟩ frame
  cell frame col row ch := paintCell_spec hshifts frame col row ch

theorem valid_recorded : swiftRecordedMode.parts.Valid := ⟨by decide, rfl, by decide, by decide, by decide⟩

theorem safe_recorded : swiftRecordedMode.Safe :=
  safe_of_shifts valid_recorded (by decide) ⟨by decide, by decide, by decide⟩

theorem valid_of_parse (h : ScanoutMode.parse record = some m) : m.parts.Valid := by
  obtain ⟨-, -, parts, -, hvalid, rfl⟩ := (parse_eq_some).mp h
  exact hvalid

/-- What is painted by is the recorded mode, or that of the record, which fits. -/
theorem panelMode_cases (h : panelMode record = some m) : m = swiftRecordedMode ∨
    ScanoutMode.parse record = some m ∧ m.address = framebufferPhys ∧
      m.pitch.toNat * m.height.toNat ≤ framebufferBytes := by
  cases hparse : ScanoutMode.parse record with
  | none =>
    rw [panelMode_of_parse_none hparse] at h
    exact .inl (Option.some.inj h).symm
  | some m' =>
    obtain ⟨hready, rfl⟩ := (panelMode_of_parse hparse).mp h
    exact .inr ⟨rfl, hready⟩

theorem recordParts_isSome (h : recordLen ≤ record.length) : ∃ parts, recordParts record = some parts := by
  have hlong : ∀ off count, off + count ≤ recordLen →
    readLe count record off = some (leNat ((record.drop off).take count)) :=
    fun off count hoff => if_pos (Nat.le_trans hoff h)
  have hbyte : ∀ off, (hoff : off < recordLen) →
    readU8 record off = some (record.get ⟨off, Nat.lt_of_lt_of_le hoff h⟩) :=
    fun off hoff => List.getElem?_eq_getElem _
  unfold recordParts readU64 readU32
  rw [hlong 8 8 (by decide), hlong 16 4 (by decide), hlong 20 4 (by decide), hlong 24 4 (by decide),
    hbyte 28 (by decide),
    hbyte 29 (by decide), hbyte 30 (by decide), hbyte 31 (by decide), hbyte 32 (by decide),
      hbyte 33 (by decide), hbyte 34 (by decide)]
  exact ⟨_, rfl⟩

theorem address_of_recordParts (h : recordParts record = some parts) :
    readU64 record 8 = some parts.address := by
  unfold recordParts at h
  simp only [Option.bind_eq_bind, Option.bind_eq_some_iff, Option.some.injEq] at h
  obtain ⟨address, haddress, pitch, -, width, -, height, -, bpp, -, rs, -, rw', -, gs, -, gw, -, bs,
    -, bw, -, rfl⟩ := h
  exact haddress

theorem Checked.of_meets (h : Meets record) : Checked record where
  other address hnames hne := by
    cases hparse : ScanoutMode.parse record with
    | none => cases (panelMode_of_parse_none hparse).symm.trans (h.off address hnames hne)
    | some m =>
      obtain ⟨hlen, -, parts, hparts, hvalid, -⟩ := (parse_eq_some).mp hparse
      refine ⟨hlen, fun parts' hparts' => ?_⟩
      cases hparts.symm.trans hparts'
      exact hvalid
  shifts hlen hmagic parts hparts hvalid hwide := by
    obtain ⟨haddress, hbytes, hshifts⟩ := hwide
    have hparse : ScanoutMode.parse record = some parts.mode :=
      (parse_eq_some).mpr ⟨hlen, hmagic, parts, hparts, hvalid, rfl⟩
    have hpanel : panelMode record = some parts.mode :=
      (panelMode_of_parse hparse).mpr ⟨⟨haddress, hbytes⟩, rfl⟩
    exact hshifts (h.safe _ hpanel).shifts

theorem Meets.of_checked (h : Checked record) : Meets record where
  reread m out hm hout := by
    refine writeRecord_parse ?_ hout
    obtain hparse | hpanel := hm
    · exact valid_of_parse hparse
    · obtain rfl | ⟨hparse, -⟩ := panelMode_cases hpanel
      · exact valid_recorded
      · exact valid_of_parse hparse
  off address hnames hne := by
    obtain ⟨hlen, hvalid⟩ := h.other address hnames hne
    obtain ⟨parts, hparts⟩ := recordParts_isSome hlen
    have hparse : ScanoutMode.parse record = some parts.mode :=
      (parse_eq_some).mpr ⟨hlen, hnames.1, parts, hparts, hvalid parts hparts, rfl⟩
    have haddress : address = parts.address :=
      Option.some.inj (hnames.2.symm.trans (address_of_recordParts hparts))
    cases hpanel : panelMode record with
    | none => rfl
    | some m =>
      obtain ⟨⟨hphys, -⟩, -⟩ := (panelMode_of_parse hparse).mp hpanel
      exact absurd (haddress.trans hphys) hne
  safe m hm := by
    obtain rfl | ⟨hparse, haddress, hbytes⟩ := panelMode_cases hm
    · exact safe_recorded
    · obtain ⟨hlen, hmagic, parts, hparts, hvalid, rfl⟩ := (parse_eq_some).mp hparse
      refine safe_of_shifts hvalid hbytes ?_
      by_contra hshifts
      exact h.shifts hlen hmagic parts hparts hvalid ⟨haddress, hbytes, hshifts⟩

theorem modeFromMb2Tag_eq_some : modeFromMb2Tag tag = some m ↔ ∃ size parts,
    readU32 tag 0 = some 8 ∧ readU32 tag 4 = some size ∧
    recordLen ≤ size.toNat ∧ size.toNat ≤ tag.length ∧ readU8 tag 29 = some 1 ∧
      tagParts tag = some parts ∧ parts.Valid ∧ parts.mode = m := by
  unfold modeFromMb2Tag
  simp only [Option.bind_eq_bind, Option.bind_eq_some_iff]
  constructor
  · rintro ⟨kind, hkind, size, hsize, h⟩
    split_ifs at h with hhead
    · cases h
    · obtain ⟨type, htype, h⟩ := Option.bind_eq_some_iff.mp h
      split_ifs at h with hne
      · cases h
      · obtain ⟨parts, hparts, h⟩ := Option.bind_eq_some_iff.mp h
        obtain ⟨h8, hlong⟩ := not_or.mp hhead
        obtain ⟨hlen, hle⟩ := not_or.mp hlong
        obtain rfl := not_not.mp h8
        obtain rfl := not_not.mp hne
        exact ⟨size, parts, hkind, hsize, Nat.le_of_not_lt hlen, Nat.le_of_not_lt hle, htype,
          hparts, (validated_eq_some).mp h⟩
  · rintro ⟨size, parts, hkind, hsize, hlen, hle, htype, hparts, hvalid⟩
    have hhead : ¬((8 : UInt32) ≠ 8 ∨ size.toNat < recordLen ∨ tag.length < size.toNat) :=
      not_or.mpr ⟨not_not.mpr rfl, not_or.mpr ⟨Nat.not_lt.mpr hlen, Nat.not_lt.mpr hle⟩⟩
    refine ⟨8, hkind, size, hsize, ?_⟩
    rw [if_neg hhead, htype]
    show (tagParts tag).bind validated = some m
    rw [hparts]
    exact (validated_eq_some).mpr hvalid

/-- The record of a mode has only the shifts to be checked. -/
theorem checked_of_parse (h : ScanoutMode.parse record = some m) : Checked record ↔ ¬m.parts.Wide := by
  obtain ⟨hlen, hmagic, parts, hparts, hvalid, rfl⟩ := (parse_eq_some).mp h
  constructor
  · intro hchecked
    exact hchecked.shifts hlen hmagic parts hparts hvalid
  · intro hwide
    refine ⟨fun address _ _ => ⟨hlen, fun parts' hparts' => ?_⟩, fun _ _ parts' hparts' _ => ?_⟩
    · cases hparts.symm.trans hparts'
      exact hvalid
    · cases hparts.symm.trans hparts'
      exact hwide

/-- Records and tags are met if and only if they are checked. -/
theorem scanout_exact (record tag : List UInt8) : (Meets record ↔ Checked record) ∧
    (TagMeets tag ↔ TagChecked tag) := by
  refine ⟨⟨.of_meets, .of_checked⟩, fun h => ?_, fun h => ?_⟩
  · intro size parts hkind hsize hlen hle htype hparts hvalid
    have hmode : modeFromMb2Tag tag = some parts.mode :=
      (modeFromMb2Tag_eq_some).mpr ⟨size, parts, hkind, hsize, hlen, hle, htype, hparts, hvalid, rfl⟩
    obtain ⟨written, -, hparse, hmeets⟩ :=
      h parts.mode (List.replicate recordLen 0) hmode (Nat.le_of_eq List.length_replicate.symm)
    exact (checked_of_parse hparse).mp (.of_meets hmeets)
  · intro m out hmode hout
    obtain ⟨size, parts, hkind, hsize, hlen, hle, htype, hparts, hvalid, rfl⟩ :=
      (modeFromMb2Tag_eq_some).mp hmode
    obtain ⟨written, hwritten, hparse⟩ := @writeRecord_parse parts.mode out hvalid hout
    exact ⟨written, hwritten, hparse,
      .of_checked ((checked_of_parse hparse).mpr (h size parts hkind hsize hlen hle htype hparts hvalid))⟩

/-- The panel's mode with a red shift beyond the pixel is painted by, and a mode of another buffer
that has 16 bits a pixel is taken for a cleared page. -/
theorem scanout_unsafe : ¬Meets (ScanoutMode.record { swiftRecordedMode with red := ⟨40, 8⟩ }) ∧
    ¬Meets (ScanoutMode.record { swiftRecordedMode with address := 0xE0000000, bpp := 16 }) := by
  constructor
  · intro h
    have hvalid : (ScanoutMode.parts { swiftRecordedMode with red := ⟨40, 8⟩ }).Valid :=
      ⟨by decide, rfl, by decide, by decide, by decide⟩
    exact (checked_of_parse (parse_record hvalid)).mp (.of_meets h)
      ⟨rfl, by decide, fun hshifts => absurd hshifts.red (by decide)⟩
  · intro h
    have hnames : Names (ScanoutMode.record { swiftRecordedMode with address := 0xE0000000, bpp := 16 }) 0xE0000000 :=
      ⟨readU64_record _, address_of_recordParts (recordParts_record _)⟩
    have hvalid := ((Checked.of_meets h).other _ hnames (by decide)).2 _ (recordParts_record _)
    exact absurd hvalid.bpp (by decide)

end exactness

end Lerux.Desk
