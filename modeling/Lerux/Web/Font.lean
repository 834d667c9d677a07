import Mathlib.Data.List.Basic

/-!
# The font of a page

`font.rs`: 5 by 7 glyphs in a cell of 8 by 8. The highest bit of a row is its leftmost pixel.
-/

namespace Lerux.Web

/-- The rows of the glyphs of the printable characters of ASCII, from the space on. -/
def FONT8 : List (List UInt8) := [
  [0x00, 0x00, 0x00, 0x00, 0x00, 0x00, 0x00, 0x00],
  [0x10, 0x10, 0x10, 0x10, 0x10, 0x00, 0x10, 0x00],
  [0x28, 0x28, 0x28, 0x00, 0x00, 0x00, 0x00, 0x00],
  [0x28, 0x28, 0x7c, 0x28, 0x7c, 0x28, 0x28, 0x00],
  [0x10, 0x3c, 0x50, 0x38, 0x14, 0x78, 0x10, 0x00],
  [0x64, 0x64, 0x08, 0x10, 0x20, 0x4c, 0x4c, 0x00],
  [0x30, 0x48, 0x50, 0x20, 0x54, 0x48, 0x34, 0x00],
  [0x10, 0x10, 0x10, 0x00, 0x00, 0x00, 0x00, 0x00],
  [0x08, 0x10, 0x20, 0x20, 0x20, 0x10, 0x08, 0x00],
  [0x20, 0x10, 0x08, 0x08, 0x08, 0x10, 0x20, 0x00],
  [0x10, 0x54, 0x38, 0x10, 0x38, 0x54, 0x10, 0x00],
  [0x00, 0x10, 0x10, 0x7c, 0x10, 0x10, 0x00, 0x00],
  [0x00, 0x00, 0x00, 0x00, 0x10, 0x10, 0x20, 0x00],
  [0x00, 0x00, 0x00, 0x7c, 0x00, 0x00, 0x00, 0x00],
  [0x00, 0x00, 0x00, 0x00, 0x00, 0x00, 0x10, 0x00],
  [0x04, 0x08, 0x08, 0x10, 0x20, 0x20, 0x40, 0x00],
  [0x38, 0x44, 0x4c, 0x54, 0x64, 0x44, 0x38, 0x00],
  [0x10, 0x30, 0x10, 0x10, 0x10, 0x10, 0x38, 0x00],
  [0x38, 0x44, 0x04, 0x08, 0x10, 0x20, 0x7c, 0x00],
  [0x78, 0x04, 0x04, 0x38, 0x04, 0x04, 0x78, 0x00],
  [0x08, 0x18, 0x28, 0x48, 0x7c, 0x08, 0x08, 0x00],
  [0x7c, 0x40, 0x78, 0x04, 0x04, 0x44, 0x38, 0x00],
  [0x38, 0x40, 0x40, 0x78, 0x44, 0x44, 0x38, 0x00],
  [0x7c, 0x04, 0x08, 0x10, 0x20, 0x20, 0x20, 0x00],
  [0x38, 0x44, 0x44, 0x38, 0x44, 0x44, 0x38, 0x00],
  [0x38, 0x44, 0x44, 0x3c, 0x04, 0x04, 0x38, 0x00],
  [0x00, 0x10, 0x00, 0x00, 0x00, 0x10, 0x00, 0x00],
  [0x00, 0x10, 0x00, 0x00, 0x00, 0x10, 0x20, 0x00],
  [0x08, 0x10, 0x20, 0x40, 0x20, 0x10, 0x08, 0x00],
  [0x00, 0x00, 0x7c, 0x00, 0x7c, 0x00, 0x00, 0x00],
  [0x20, 0x10, 0x08, 0x04, 0x08, 0x10, 0x20, 0x00],
  [0x38, 0x44, 0x04, 0x08, 0x10, 0x00, 0x10, 0x00],
  [0x38, 0x44, 0x5c, 0x54, 0x5c, 0x40, 0x38, 0x00],
  [0x38, 0x44, 0x44, 0x7c, 0x44, 0x44, 0x44, 0x00],
  [0x78, 0x44, 0x44, 0x78, 0x44, 0x44, 0x78, 0x00],
  [0x38, 0x44, 0x40, 0x40, 0x40, 0x44, 0x38, 0x00],
  [0x78, 0x44, 0x44, 0x44, 0x44, 0x44, 0x78, 0x00],
  [0x7c, 0x40, 0x40, 0x78, 0x40, 0x40, 0x7c, 0x00],
  [0x7c, 0x40, 0x40, 0x78, 0x40, 0x40, 0x40, 0x00],
  [0x38, 0x44, 0x40, 0x5c, 0x44, 0x44, 0x38, 0x00],
  [0x44, 0x44, 0x44, 0x7c, 0x44, 0x44, 0x44, 0x00],
  [0x38, 0x10, 0x10, 0x10, 0x10, 0x10, 0x38, 0x00],
  [0x1c, 0x08, 0x08, 0x08, 0x08, 0x48, 0x30, 0x00],
  [0x44, 0x48, 0x50, 0x60, 0x50, 0x48, 0x44, 0x00],
  [0x40, 0x40, 0x40, 0x40, 0x40, 0x40, 0x7c, 0x00],
  [0x44, 0x6c, 0x54, 0x54, 0x44, 0x44, 0x44, 0x00],
  [0x44, 0x64, 0x54, 0x4c, 0x44, 0x44, 0x44, 0x00],
  [0x38, 0x44, 0x44, 0x44, 0x44, 0x44, 0x38, 0x00],
  [0x78, 0x44, 0x44, 0x78, 0x40, 0x40, 0x40, 0x00],
  [0x38, 0x44, 0x44, 0x44, 0x54, 0x48, 0x34, 0x00],
  [0x78, 0x44, 0x44, 0x78, 0x50, 0x48, 0x44, 0x00],
  [0x3c, 0x40, 0x40, 0x38, 0x04, 0x04, 0x78, 0x00],
  [0x7c, 0x10, 0x10, 0x10, 0x10, 0x10, 0x10, 0x00],
  [0x44, 0x44, 0x44, 0x44, 0x44, 0x44, 0x38, 0x00],
  [0x44, 0x44, 0x44, 0x44, 0x44, 0x28, 0x10, 0x00],
  [0x44, 0x44, 0x44, 0x54, 0x54, 0x54, 0x28, 0x00],
  [0x44, 0x44, 0x28, 0x10, 0x28, 0x44, 0x44, 0x00],
  [0x44, 0x44, 0x28, 0x10, 0x10, 0x10, 0x10, 0x00],
  [0x7c, 0x04, 0x08, 0x10, 0x20, 0x40, 0x7c, 0x00],
  [0x38, 0x20, 0x20, 0x20, 0x20, 0x20, 0x38, 0x00],
  [0x40, 0x20, 0x20, 0x10, 0x08, 0x08, 0x04, 0x00],
  [0x38, 0x08, 0x08, 0x08, 0x08, 0x08, 0x38, 0x00],
  [0x10, 0x28, 0x44, 0x00, 0x00, 0x00, 0x00, 0x00],
  [0x00, 0x00, 0x00, 0x00, 0x00, 0x00, 0x7c, 0x00],
  [0x20, 0x10, 0x08, 0x00, 0x00, 0x00, 0x00, 0x00],
  [0x00, 0x00, 0x38, 0x04, 0x3c, 0x44, 0x3c, 0x00],
  [0x40, 0x40, 0x78, 0x44, 0x44, 0x44, 0x78, 0x00],
  [0x00, 0x00, 0x38, 0x40, 0x40, 0x40, 0x38, 0x00],
  [0x04, 0x04, 0x3c, 0x44, 0x44, 0x44, 0x3c, 0x00],
  [0x00, 0x00, 0x38, 0x44, 0x7c, 0x40, 0x38, 0x00],
  [0x08, 0x10, 0x38, 0x10, 0x10, 0x10, 0x10, 0x00],
  [0x00, 0x00, 0x3c, 0x44, 0x3c, 0x04, 0x38, 0x00],
  [0x40, 0x40, 0x78, 0x44, 0x44, 0x44, 0x44, 0x00],
  [0x10, 0x00, 0x30, 0x10, 0x10, 0x10, 0x38, 0x00],
  [0x08, 0x00, 0x18, 0x08, 0x08, 0x48, 0x30, 0x00],
  [0x40, 0x40, 0x48, 0x50, 0x60, 0x50, 0x48, 0x00],
  [0x30, 0x10, 0x10, 0x10, 0x10, 0x10, 0x38, 0x00],
  [0x00, 0x00, 0x68, 0x54, 0x54, 0x54, 0x54, 0x00],
  [0x00, 0x00, 0x78, 0x44, 0x44, 0x44, 0x44, 0x00],
  [0x00, 0x00, 0x38, 0x44, 0x44, 0x44, 0x38, 0x00],
  [0x00, 0x00, 0x78, 0x44, 0x78, 0x40, 0x40, 0x00],
  [0x00, 0x00, 0x3c, 0x44, 0x3c, 0x04, 0x04, 0x00],
  [0x00, 0x00, 0x58, 0x64, 0x40, 0x40, 0x40, 0x00],
  [0x00, 0x00, 0x38, 0x40, 0x38, 0x04, 0x78, 0x00],
  [0x10, 0x10, 0x38, 0x10, 0x10, 0x10, 0x08, 0x00],
  [0x00, 0x00, 0x44, 0x44, 0x44, 0x44, 0x3c, 0x00],
  [0x00, 0x00, 0x44, 0x44, 0x44, 0x28, 0x10, 0x00],
  [0x00, 0x00, 0x44, 0x44, 0x54, 0x54, 0x28, 0x00],
  [0x00, 0x00, 0x44, 0x28, 0x10, 0x28, 0x44, 0x00],
  [0x00, 0x00, 0x44, 0x44, 0x3c, 0x04, 0x38, 0x00],
  [0x00, 0x00, 0x7c, 0x08, 0x10, 0x20, 0x7c, 0x00],
  [0x08, 0x10, 0x10, 0x20, 0x10, 0x10, 0x08, 0x00],
  [0x10, 0x10, 0x10, 0x10, 0x10, 0x10, 0x10, 0x00],
  [0x20, 0x10, 0x10, 0x08, 0x10, 0x10, 0x20, 0x00],
  [0x00, 0x00, 0x20, 0x54, 0x08, 0x00, 0x00, 0x00]]

/-- The rows of a character's glyph. -/
def glyph (c : UInt8) : List UInt8 := if 0x20 ≤ c ∧ c ≤ 0x7e then FONT8.getD (c - 0x20).toNat []
    else FONT8.getD 0 []

/-- Whether a pixel of a glyph is lit. -/
def lit (rows : List UInt8) (gx gy : Nat) : Bool := rows.getD gy 0 &&& 0x80 >>> UInt8.ofNat gx ≠ 0

/-- The glyph of a character, which outside ASCII is that of a question mark. -/
def glyphOf (ch : Char) : List UInt8 := glyph (if ch.toNat < 128 then UInt8.ofNat ch.toNat else 63)

/-- A glyph has its eight rows. -/
theorem length_glyph (c : UInt8) : (glyph c).length = 8 := by
  have hrows : ∀ rows ∈ FONT8, rows.length = 8 := by decide
  have hfont : FONT8.length = 95 := rfl
  have hmem : ∀ i < 95, FONT8.getD i [] ∈ FONT8 := by
    intro i hi
    rw [List.getD_eq_getElem?_getD, List.getElem?_eq_getElem (by omega), Option.getD_some]
    exact List.getElem_mem _
  unfold glyph
  split
  · next hrange =>
    refine hrows _ (hmem _ ?_)
    have hlow := UInt8.le_iff_toNat_le.mp hrange.1
    have hhigh := UInt8.le_iff_toNat_le.mp hrange.2
    rw [UInt8.toNat_sub_of_le _ _ hrange.1]
    change 32 ≤ c.toNat at hlow
    change c.toNat ≤ 126 at hhigh
    change c.toNat - 32 < 95
    omega
  · exact hrows _ (hmem 0 (by decide))

theorem length_glyphOf (ch : Char) : (glyphOf ch).length = 8 := length_glyph _

end Lerux.Web
