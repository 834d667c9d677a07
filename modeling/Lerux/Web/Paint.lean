import Lerux.Base.Buffer
import Lerux.Base.LittleEndian
import Lerux.Base.Writes
import Lerux.Web.Font
import Lerux.Web.Runs
import Mathlib.Data.Int.Range

/-!
# Painting a page

`paint.rs`: the boxes of a page are painted into a bitmap of pixels of four bytes. Coordinates are
integers with their bounds, and every sum and product and every access is checked: the result is
none if one overflows or is out of range.

`items` are the things to paint in their order, with the pixels that each covers in unbounded
integers. `paint_exact` says when the picture is what they make: the bytes of the last pixel must be
in reach of an offset of 32 bits, and no lit pixel of a glyph may be scaled beyond a number of 32
bits.
-/

namespace Lerux.Web

open Lerux.Html (parse)
open Lerux.Base

def white : Nat := 0x00ffffff

/-! ### The bitmap -/

/-- A bitmap that `Bitmap::new` accepts. -/
structure Bitmap where
  data : List UInt8
  width : Nat
  height : Nat
  stride : Nat
  width_pos : 0 < width
  height_pos : 0 < height
  width_fits : width < 4294967296
  height_fits : height < 4294967296
  stride_fits : stride < 4294967296
  wide : min (width * 4) 4294967295 ≤ stride
  room : stride * height ≤ data.length

/-- The product of two numbers of 32 bits is a `usize`. -/
def Bitmap.new (data : List UInt8) (width height stride : UInt32) : Option Bitmap :=
  if h : width.toNat = 0 ∨ height.toNat = 0 ∨ stride.toNat < min (width.toNat * 4) 4294967295 ∨
      data.length < stride.toNat * height.toNat then none
  else
    some
      { data
        width := width.toNat
        height := height.toNat
        stride := stride.toNat
        width_pos := Nat.pos_of_ne_zero fun hzero => h (.inl hzero)
        height_pos := Nat.pos_of_ne_zero fun hzero => h (.inr (.inl hzero))
        width_fits := width.toNat_lt
        height_fits := height.toNat_lt
        stride_fits := stride.toNat_lt
        wide := not_lt.mp fun hlt => h (.inr (.inr (.inl hlt)))
        room := not_lt.mp fun hlt => h (.inr (.inr (.inr hlt))) }

/-- Every bitmap is one that `new` accepts. -/
theorem Bitmap.new_self (bitmap : Bitmap) : Bitmap.new bitmap.data (.ofNat bitmap.width)
    (.ofNat bitmap.height) (.ofNat bitmap.stride) = some bitmap := by
  have hwidth : (UInt32.ofNat bitmap.width).toNat = bitmap.width :=
    UInt32.toNat_ofNat_of_lt' bitmap.width_fits
  have hheight : (UInt32.ofNat bitmap.height).toNat = bitmap.height :=
    UInt32.toNat_ofNat_of_lt' bitmap.height_fits
  have hstride : (UInt32.ofNat bitmap.stride).toNat = bitmap.stride :=
    UInt32.toNat_ofNat_of_lt' bitmap.stride_fits
  have haccepted : ¬(bitmap.width = 0 ∨ bitmap.height = 0 ∨
      bitmap.stride < min (bitmap.width * 4) 4294967295 ∨
      bitmap.data.length < bitmap.stride * bitmap.height) := by
    rintro (h | h | h | h)
    · exact bitmap.width_pos.ne' h
    · exact bitmap.height_pos.ne' h
    · exact bitmap.wide.not_gt h
    · exact bitmap.room.not_gt h
  unfold Bitmap.new
  simp only [hwidth, hheight, hstride]
  rw [dif_neg haccepted]

/-- The same bitmap over other data. -/
def Bitmap.over (bitmap : Bitmap) (data : List UInt8) (h : data.length = bitmap.data.length) : Bitmap :=
  { bitmap with data, room := h ▸ bitmap.room }

def u32 (n : Nat) : Option Nat := if n < 4294967296 then some n else none

def Bitmap.offset (bitmap : Bitmap) (x y : Nat) : Option Nat := do
  let row ← u32 (y * bitmap.stride)
  let col ← u32 (x * 4)
  u32 (row + col)

/-- The bytes of a colour at a place. -/
def Bitmap.write (bitmap : Bitmap) (off color : Nat) : Option Bitmap :=
  if h : off + (leBytes 4 color).length ≤ bitmap.data.length then
    some (bitmap.over (copyFrom bitmap.data off (leBytes 4 color)) (length_copyFrom h))
  else none

def Bitmap.setPixel (bitmap : Bitmap) (x y : Int) (color : Nat) : Option Bitmap :=
  if x < 0 ∨ y < 0 then some bitmap
  else if bitmap.width ≤ x.toNat ∨ bitmap.height ≤ y.toNat then some bitmap
  else do
    let off ← bitmap.offset x.toNat y.toNat
    bitmap.write off color

/-- A number of 32 bits read with a sign. -/
def asI32 (n : Nat) : Int := if n < 2147483648 then n else n - 4294967296

/-- The pixels of a rectangle, row by row. -/
def Bitmap.paintArea (bitmap : Bitmap) (x0 x1 y0 y1 : Int) (color : Nat) : Option Bitmap :=
  (Int.range y0 y1).foldlM (fun bitmap y => (Int.range x0 x1).foldlM
    (fun bitmap x => bitmap.setPixel x y color) bitmap) bitmap

def Bitmap.fill (bitmap : Bitmap) (color : Nat) : Option Bitmap :=
  bitmap.paintArea 0 (asI32 bitmap.width) 0 (asI32 bitmap.height) color

def saturatingAdd (a b : Int) : Int := max (-2147483648) (min 2147483647 (a + b))

def Bitmap.fillRect (bitmap : Bitmap) (x y w h : Int) (color : Nat) : Option Bitmap :=
  if w ≤ 0 ∨ h ≤ 0 then some bitmap
  else bitmap.paintArea x (saturatingAdd x w) y (saturatingAdd y h) color

def mul32 (a b : Int) : Option Int := i32 (a * b)

/-- Where a row or a column of a glyph begins and ends. The sizes are positive, so that the
divisions round down. -/
def scaled (g : Nat) (size : Int) : Option (Int × Int) := do
  let start ← mul32 g size
  let stop ← mul32 (g + 1) size
  let least ← add32 (start / 8) 1
  return (start / 8, max (stop / 8) least)

/-- The pixels of a lit pixel of a glyph. -/
def Bitmap.paintCell (bitmap : Bitmap) (cx y size : Int) (color gx gy : Nat) : Option Bitmap := do
  let (px0, px1) ← scaled gx size
  let (py0, py1) ← scaled gy size
  (Int.range py0 py1).foldlM (fun bitmap oy => (Int.range px0 px1).foldlM (fun bitmap ox => do
    let px ← add32 cx ox
    let py ← add32 y oy
    bitmap.setPixel px py color) bitmap) bitmap

def Bitmap.paintGlyph (bitmap : Bitmap) (rows : List UInt8) (cx y size : Int) (color : Nat) :
    Option Bitmap :=
  (List.range 8).foldlM (fun bitmap gy => (List.range 8).foldlM (fun bitmap gx => do
    let row ← rows[gy]?
    if row &&& 0x80 >>> UInt8.ofNat gx = 0 then return bitmap
    else bitmap.paintCell cx y size color gx gy) bitmap) bitmap

/-- The loop over the characters. -/
def Bitmap.paintChars (y size : Int) (color : Nat) : List Char → Int → Bitmap → Option Bitmap
  | [], _, bitmap => some bitmap
  | ch :: text, cx, bitmap => do
    let bitmap ← bitmap.paintGlyph (glyphOf ch) cx y size color
    let cx ← add32 cx size
    paintChars y size color text cx bitmap

def Bitmap.paintText (bitmap : Bitmap) (run : GlyphRun) : Option Bitmap :=
  Bitmap.paintChars run.y (max run.fontSize 1) run.color run.text run.x bitmap

mutual

def paintBox : LayoutBox → Bitmap → Option Bitmap
  | ⟨x, y, width, height, background, runs, replaced, children⟩, bitmap => do
    let bitmap ← match background with
      | some bg => bitmap.fillRect x y width height bg
      | none => some bitmap
    let bitmap ← runs.foldlM (fun bitmap run => bitmap.paintText run) bitmap
    let bitmap ← replaced.foldlM (fun bitmap r => bitmap.fillRect r.x r.y r.width r.height r.color) bitmap
    paintBoxes children bitmap

def paintBoxes : List LayoutBox → Bitmap → Option Bitmap
  | [], bitmap => some bitmap
  | child :: children, bitmap => do
    let bitmap ← paintBox child bitmap
    paintBoxes children bitmap

end

def paint (root : LayoutBox) (bitmap : Bitmap) : Option Bitmap := do
  let bitmap ← bitmap.fill white
  paintBox root bitmap

/-! ### What is to be seen -/

def Bitmap.InFrame (bitmap : Bitmap) (p : Int × Int) : Prop := (0 ≤ p.1 ∧ p.1 < bitmap.width) ∧
    0 ≤ p.2 ∧ p.2 < bitmap.height

instance Bitmap.instDecidableInFrame (bitmap : Bitmap) (p : Int × Int) : Decidable (bitmap.InFrame p) :=
  inferInstanceAs (Decidable (_ ∧ _))

/-- Where the bytes of a pixel are. -/
def Bitmap.place (bitmap : Bitmap) (p : Int × Int) : Nat := p.2.toNat * bitmap.stride + p.1.toNat * 4

/-- The bytes of a pixel, as far as they are in the data. -/
def Bitmap.pixel (bitmap : Bitmap) (p : Int × Int) : List UInt8 :=
  (bitmap.data.drop (bitmap.place p)).take 4

/-- The coordinate is from a start on and before a stop. -/
def Within (start stop n : Int) : Prop := start ≤ n ∧ n < stop

instance instDecidableWithin (start stop n : Int) : Decidable (Within start stop n) :=
  inferInstanceAs (Decidable (_ ∧ _))

/-- The coordinate is in a row or a column of a glyph at a size. -/
def Scaled (g : Nat) (size n : Int) : Prop :=
  Within (g * size / 8) (max ((g + 1) * size / 8) (g * size / 8 + 1)) n

instance instDecidableScaled (g : Nat) (size n : Int) : Decidable (Scaled g size n) :=
  inferInstanceAs (Decidable (Within _ _ _))

/-- The place is in a lit pixel of the rows of a glyph. -/
def Inked (rows : List UInt8) (size dx dy : Int) : Prop :=
  ∃ gy ∈ List.range 8, ∃ gx ∈ List.range 8, lit rows gx gy = true ∧ Scaled gx size dx ∧ Scaled gy size dy

instance instDecidableInked (rows : List UInt8) (size dx dy : Int) : Decidable (Inked rows size dx dy) :=
  inferInstanceAs (Decidable (∃ gy ∈ List.range 8, ∃ gx ∈ List.range 8, _))

def GlyphRun.Covers (run : GlyphRun) (p : Int × Int) : Prop :=
  ∃ g ∈ run.glyphs, Inked (glyphOf g.char) run.fontSize (p.1 - g.x) (p.2 - g.y)

instance GlyphRun.instDecidableCovers (run : GlyphRun) (p : Int × Int) : Decidable (run.Covers p) :=
  inferInstanceAs (Decidable (∃ g ∈ run.glyphs, _))

/-- A thing to paint. -/
inductive PaintItem
  | rect (x y w h : Int) (color : Nat)
  | text (run : GlyphRun)

def PaintItem.color : PaintItem → Nat
  | rect _ _ _ _ color => color
  | text run => run.color

def PaintItem.Covers : PaintItem → Int × Int → Prop
  | rect x y w h _, p => Within x (x + w) p.1 ∧ Within y (y + h) p.2
  | text run, p => run.Covers p

instance PaintItem.instDecidableCovers : (item : PaintItem) → (p : Int × Int) → Decidable (item.Covers p)
  | rect _ _ _ _ _, _ => inferInstanceAs (Decidable (_ ∧ _))
  | text run, p => inferInstanceAs (Decidable (run.Covers p))

mutual

/-- The items of a box in their order: its background, its texts, its replaced boxes, and what is in
its children. -/
def items : LayoutBox → List PaintItem
  | ⟨x, y, width, height, background, runs, replaced, children⟩ =>
    background.toList.map (.rect x y width height) ++ runs.map .text ++
      replaced.map (fun r => .rect r.x r.y r.width r.height r.color) ++ itemsOf children

def itemsOf : List LayoutBox → List PaintItem
  | [] => []
  | child :: children => items child ++ itemsOf children

end

/-- The colour of the last item that covers a pixel, or else the one that was there. -/
def shown (list : List PaintItem) (p : Int × Int) (before : Nat) : Nat :=
  ((list.filter fun item => item.Covers p).getLast?.map PaintItem.color).getD before

/-- Painting goes through, and every pixel has the colour it should have. -/
def Painted (root : LayoutBox) (bitmap : Bitmap) : Prop :=
  ∃ after, paint root bitmap = some after ∧ ∀ p, bitmap.InFrame p → after.pixel p =
    leBytes 4 (shown (items root) p white)

/-- The bytes of the last pixel are in the data, and their place is a number of 32 bits. -/
def Bitmap.Reached (bitmap : Bitmap) : Prop :=
  (bitmap.height - 1) * bitmap.stride + (bitmap.width - 1) * 4 < 4294967296 ∧
    (bitmap.height - 1) * bitmap.stride + (bitmap.width - 1) * 4 + 4 ≤ bitmap.data.length

/-- No lit pixel of a glyph of the run is scaled beyond a number of 32 bits. -/
def GlyphRun.Scales (run : GlyphRun) : Prop :=
  ∀ ch ∈ run.text, ∀ gx < 8, ∀ gy < 8, lit (glyphOf ch) gx gy = true →
    (max gx gy + 1) * run.fontSize ≤ 2147483647

/-! ### One pixel -/

section pixels

variable {bitmap b : Bitmap} {p q : Int × Int} {color : Nat}

/-- The sides of a bitmap, and the length of its data. -/
structure Bitmap.Like (bitmap b : Bitmap) : Prop where
  width : b.width = bitmap.width
  height : b.height = bitmap.height
  stride : b.stride = bitmap.stride
  length : b.data.length = bitmap.data.length

theorem Bitmap.Like.inFrame (h : bitmap.Like b) : b.InFrame p ↔ bitmap.InFrame p := by
  rw [Bitmap.InFrame, Bitmap.InFrame, h.width, h.height]

theorem Bitmap.Like.place (h : bitmap.Like b) : b.place p = bitmap.place p := by
  rw [Bitmap.place, Bitmap.place, h.stride]

/-- The place of every pixel is reached if that of the last one is. -/
theorem Bitmap.Reached.place_lt (h : bitmap.Reached) (hp : bitmap.InFrame p) :
    bitmap.place p < 4294967296 ∧ bitmap.place p + 4 ≤ bitmap.data.length := by
  obtain ⟨⟨hx, hx'⟩, hy, hy'⟩ := hp
  have hrows := Nat.mul_le_mul_right bitmap.stride (show p.2.toNat ≤ bitmap.height - 1 by omega)
  have hcols : p.1.toNat ≤ bitmap.width - 1 := by omega
  obtain ⟨hlt, hroom⟩ := h
  unfold Bitmap.place
  omega

/-- A row of pixels ends before the next one begins. -/
theorem Bitmap.Reached.rows (h : bitmap.Reached) {y y' : Nat} (hlt : y < y') (hy' : y' < bitmap.height) :
    y * bitmap.stride + bitmap.width * 4 ≤ y' * bitmap.stride := by
  have hnext := Nat.mul_le_mul_right bitmap.stride (show y + 1 ≤ y' from hlt)
  have hlast := Nat.mul_le_mul_right bitmap.stride (show 1 ≤ bitmap.height - 1 by omega)
  have hwide := bitmap.wide
  have hpos := bitmap.width_pos
  obtain ⟨hlt', -⟩ := h
  rw [Nat.succ_mul] at hnext
  omega

/-- Two pixels have no byte in common. -/
theorem Bitmap.Reached.apart (h : bitmap.Reached) (hp : bitmap.InFrame p) (hq : bitmap.InFrame q)
    (hne : q ≠ p) :
    bitmap.place q + 4 ≤ bitmap.place p ∨ bitmap.place p + 4 ≤ bitmap.place q := by
  obtain ⟨⟨hpx, hpx'⟩, hpy, hpy'⟩ := hp
  obtain ⟨⟨hqx, hqx'⟩, hqy, hqy'⟩ := hq
  unfold Bitmap.place
  rcases lt_trichotomy p.2.toNat q.2.toNat with hlt | heq | hlt
  · have := h.rows hlt (by omega)
    omega
  · have hcols : p.1 ≠ q.1 := fun hcol => hne (Prod.ext hcol.symm (by omega))
    rw [heq]
    omega
  · have := h.rows hlt (by omega)
    omega

/-- What is seen at a pixel of the bitmap. -/
def Bitmap.seen (bitmap : Bitmap) (p : Int × Int) : List UInt8 :=
  if bitmap.InFrame p then bitmap.pixel p else []

/-- What a step writes into a bitmap with given sides. -/
abbrev Paints (bitmap : Bitmap) (color : Nat) (places : Int × Int → Prop) (x : Option Bitmap)
    (b : Bitmap) : Prop :=
  Writes Bitmap.seen (fun _ => leBytes 4 color) bitmap.Like places x b

theorem Bitmap.offset_eq (hreached : bitmap.Reached) (hp : bitmap.InFrame p) :
    bitmap.offset p.1.toNat p.2.toNat = some (bitmap.place p) := by
  have hlt := (hreached.place_lt hp).1
  unfold Bitmap.place at hlt ⊢
  have hfits : ∀ n, n ≤ p.2.toNat * bitmap.stride + p.1.toNat * 4 → u32 n = some n :=
    fun n hn => if_pos (by omega)
  simp only [Bitmap.offset, Option.bind_eq_bind]
  rw [hfits _ (by omega), Option.bind_some, hfits _ (by omega), Option.bind_some, hfits _ le_rfl]

theorem setPixel_paints (hreached : bitmap.Reached) (hlike : bitmap.Like b) (x y : Int) :
    Paints bitmap color (fun p => bitmap.InFrame p ∧ p = (x, y)) (b.setPixel x y color) b := by
  have hb : b.Reached := by
    unfold Bitmap.Reached
    rw [hlike.width, hlike.height, hlike.stride, hlike.length]
    exact hreached
  unfold Bitmap.setPixel
  by_cases hin : b.InFrame (x, y)
  · obtain ⟨⟨hx, hx'⟩, hy, hy'⟩ := id hin
    dsimp only at hx hx' hy hy'
    have hroom := (hb.place_lt hin).2
    have hfour := length_leBytes 4 color
    have hoffset : b.offset x.toNat y.toNat = some (b.place (x, y)) := Bitmap.offset_eq hb hin
    rw [if_neg (by omega), if_neg (by omega), hoffset, Option.bind_eq_bind, Option.bind_some, Bitmap.write,
      dif_pos (by rw [hfour]; exact hroom)]
    obtain ⟨after, hafter⟩ : ∃ after : Bitmap, after =
      b.over (copyFrom b.data (b.place (x, y)) (leBytes 4 color))
        (length_copyFrom (by rw [hfour]; exact hroom)) := ⟨_, rfl⟩
    have hlength : after.data.length = b.data.length := by
      rw [hafter]
      exact length_copyFrom (by rw [hfour]; exact hroom)
    have hdata : after.data = copyFrom b.data (b.place (x, y)) (leBytes 4 color) := by
      rw [hafter]
      rfl
    have hsame : b.Like after := by
      refine ⟨?_, ?_, ?_, hlength⟩ <;> rw [hafter] <;> rfl
    refine ⟨after,
      by rw [hafter], ⟨hsame.width.trans hlike.width, hsame.height.trans hlike.height, hsame.stride.trans hlike.stride,
      hsame.length.trans hlike.length⟩, ?_, fun q hq => ?_⟩
    · rintro p ⟨-, rfl⟩
      rw [Bitmap.seen, if_pos (hsame.inFrame.mpr hin), Bitmap.pixel, hsame.place, hdata]
      have hback := @take_drop_copyFrom b.data (b.place (x, y)) (leBytes 4 color) (by omega)
      rwa [hfour] at hback
    · rw [Bitmap.seen, Bitmap.seen]
      by_cases hqin : b.InFrame q
      · have hne : q ≠ (x, y) := fun heq => hq ⟨hlike.inFrame.mp hqin, heq⟩
        rw [if_pos (hsame.inFrame.mpr hqin), if_pos hqin, Bitmap.pixel, Bitmap.pixel, hsame.place, hdata]
        exact take_drop_copyFrom_apart (by rw [hfour]; exact hroom)
          (by rw [hfour]; exact hb.apart hin hqin hne)
      · rw [if_neg fun h => hqin (hsame.inFrame.mp h), if_neg hqin]
  · have hnone : ∀ p, ¬(bitmap.InFrame p ∧ p = (x, y)) := by
      rintro p ⟨hp, rfl⟩
      exact hin (hlike.inFrame.mpr hp)
    split
    · exact Writes.nothing hlike hnone
    · next hpos =>
      rw [if_pos]
      · exact Writes.nothing hlike hnone
      · by_contra hlt
        exact hin ⟨⟨by dsimp only; omega, by dsimp only; omega⟩, by dsimp only; omega, by dsimp only; omega⟩

end pixels

/-! ### Rectangles -/

section areas

variable {bitmap b : Bitmap} {color : Nat}

/-- The sides of a bitmap that is reached are small. -/
theorem Bitmap.Reached.small (h : bitmap.Reached) : bitmap.width ≤ 1073741824 ∧
    bitmap.height ≤ 1073741824 := by
  obtain ⟨hlt, -⟩ := h
  have hstride : 4 ≤ bitmap.stride := by
    have hwide := bitmap.wide
    have hpos := bitmap.width_pos
    omega
  have hrows := Nat.mul_le_mul_left (bitmap.height - 1) hstride
  omega

/-- Two loops, over the rows and in each over the columns. -/
theorem loops_paint {step : Bitmap → Int → Int → Option Bitmap} {x0 x1 y0 y1 : Int}
    {at' : Int → Int → Int × Int → Prop}
    (hstep : ∀ b, bitmap.Like b → ∀ x y, Within x0 x1 x → Within y0 y1 y →
      Paints bitmap color (at' x y) (step b x y) b)
    (hlike : bitmap.Like b) : Paints bitmap color (fun p => ∃ y ∈ Int.range y0 y1, ∃ x ∈
      Int.range x0 x1, at' x y p)
      ((Int.range y0 y1).foldlM (fun b y => (Int.range x0 x1).foldlM (fun b x => step b x y) b) b) b := by
  refine Writes.foldlM (fun y hy b hb => ?_) b hlike
  refine Writes.foldlM (fun x hx b hb => ?_) b hb
  exact hstep b hb x y (Int.mem_range_iff.mp hx) (Int.mem_range_iff.mp hy)

theorem paintArea_paints (hreached : bitmap.Reached) (hlike : bitmap.Like b) (x0 x1 y0 y1 : Int) :
    Paints bitmap color (fun p => bitmap.InFrame p ∧ Within x0 x1 p.1 ∧ Within y0 y1 p.2)
      (b.paintArea x0 x1 y0 y1 color) b := by
  refine (loops_paint (fun b hb x y _ _ => setPixel_paints hreached hb x y) hlike).congr fun p => ?_
  simp only [Int.mem_range_iff]
  constructor
  · rintro ⟨y, hy, x, hx, hp, rfl⟩
    exact ⟨hp, hx, hy⟩
  · rintro ⟨hp, hx, hy⟩
    exact ⟨p.2, hy, p.1, hx, hp, rfl⟩

/-- All of the bitmap is filled. -/
theorem fill_paints (hreached : bitmap.Reached) :
    Paints bitmap color bitmap.InFrame (bitmap.fill color) bitmap := by
  obtain ⟨hwidth, hheight⟩ := hreached.small
  refine (paintArea_paints hreached ⟨rfl, rfl, rfl, rfl⟩ _ _ _ _).congr fun p => ?_
  have hw : asI32 bitmap.width = bitmap.width := if_pos (by omega)
  have hh : asI32 bitmap.height = bitmap.height := if_pos (by omega)
  rw [hw, hh]
  unfold Bitmap.InFrame Within
  exact and_self_iff

/-- Of a rectangle what is in the bitmap is filled, although its far sides are cut off at the
largest number of 32 bits. -/
theorem fillRect_paints (hreached : bitmap.Reached) (hlike : bitmap.Like b) (x y w h : Int) :
    Paints bitmap color (fun p => bitmap.InFrame p ∧ Within x (x + w) p.1 ∧ Within y (y + h) p.2)
      (b.fillRect x y w h color) b := by
  obtain ⟨hwidth, hheight⟩ := hreached.small
  unfold Bitmap.fillRect
  split
  · next hempty =>
    refine Writes.nothing hlike fun p hp => ?_
    obtain ⟨-, hx, hy⟩ := hp
    unfold Within at hx hy
    omega
  · refine (paintArea_paints hreached hlike _ _ _ _).congr fun p => and_congr_right fun hp => ?_
    unfold Bitmap.InFrame at hp
    unfold Within saturatingAdd
    omega

end areas

/-! ### Texts -/

section texts

variable {bitmap b : Bitmap} {color : Nat} {size cx y : Int}

/-- A lit row or column of a glyph ends within the size of the glyph. -/
theorem scaled_eq {g : Nat} (hsize : 1 ≤ size) (hg : (g + 1) * size ≤ 2147483647) :
    scaled g size = some (g * size / 8, max ((g + 1) * size / 8) (g * size / 8 + 1)) := by
  have hstart : 0 ≤ g * size := Int.mul_nonneg (Int.natCast_nonneg g) (by omega)
  have hstop : (g + 1) * size = g * size + size := by ring
  have hfits : I32 (g * size) ∧ I32 ((g + 1) * size) ∧ I32 (g * size / 8 + 1) := by
    unfold I32
    omega
  have hmul : mul32 g size = some (g * size) := if_pos hfits.1
  have hmul' : mul32 (g + 1) size = some ((g + 1) * size) := if_pos hfits.2.1
  have hadd : add32 (g * size / 8) 1 = some (g * size / 8 + 1) := if_pos hfits.2.2
  rw [scaled, hmul, Option.bind_eq_bind, Option.bind_some, hmul', Option.bind_some, hadd]
  rfl

theorem Scaled.bounds {g : Nat} {n : Int} (hsize : 1 ≤ size) (hg : g < 8) (h : Scaled g size n) :
    0 ≤ n ∧ n < size := by
  have hstart : 0 ≤ g * size := Int.mul_nonneg (Int.natCast_nonneg g) (by omega)
  have hstop : (g + 1) * size = g * size + size := by ring
  have hlast : (g : Int) * size ≤ 7 * size := mul_le_mul_of_nonneg_right (by omega) (by omega)
  obtain ⟨hlow, hhigh⟩ := h
  omega

/-- A text in its place at a size: where a character is painted is a number of 32 bits. -/
structure InPlace (cx y size : Int) : Prop where
  positive : 1 ≤ size
  left : -2147483648 ≤ cx
  right : cx + size ≤ 2147483647
  top : -2147483648 ≤ y
  bottom : y + size ≤ 2147483647

theorem paintCell_paints (hreached : bitmap.Reached) (hlike : bitmap.Like b)
    (hplace : InPlace cx y size) {gx gy : Nat} (hgx : gx < 8)
    (hgy : gy < 8) (hscale : (max gx gy + 1) * size ≤ 2147483647) :
    Paints bitmap color (fun p => bitmap.InFrame p ∧ Scaled gx size (p.1 - cx) ∧ Scaled gy size (p.2 - y))
      (b.paintCell cx y size color gx gy) b := by
  obtain ⟨hsize, hleft, hright, htop, hbottom⟩ := hplace
  have hmono : ∀ g : Nat, g ≤ max gx gy → (g + 1) * size ≤ 2147483647 := by
    intro g hg
    have hle : (g + 1 : Int) * size ≤ (max gx gy + 1 : Int) * size :=
      mul_le_mul_of_nonneg_right (by omega) (by omega)
    exact hle.trans hscale
  rw [Bitmap.paintCell, scaled_eq hsize (hmono gx (le_max_left _ _)), Option.bind_eq_bind, Option.bind_some,
    scaled_eq hsize (hmono gy (le_max_right _ _))]
  dsimp only [Option.bind_some]
  have hstep : ∀ b, bitmap.Like b → ∀ ox oy, Scaled gx size ox → Scaled gy size oy →
      Paints bitmap color (fun p => bitmap.InFrame p ∧ p = (cx + ox, y + oy)) (do
        let px ← add32 cx ox
        let py ← add32 y oy
        b.setPixel px py color) b := by
    intro b hb ox oy hox hoy
    obtain ⟨hox0, hox1⟩ := hox.bounds hsize hgx
    obtain ⟨hoy0, hoy1⟩ := hoy.bounds hsize hgy
    have hpx : add32 cx ox = some (cx + ox) := if_pos (by unfold I32; omega)
    have hpy : add32 y oy = some (y + oy) := if_pos (by unfold I32; omega)
    rw [hpx, hpy]
    exact setPixel_paints hreached hb _ _
  refine (loops_paint hstep hlike).congr fun p => ?_
  simp only [Int.mem_range_iff]
  constructor
  · rintro ⟨oy, hoy, ox, hox, hp, rfl⟩
    refine ⟨hp, ?_, ?_⟩
    · rw [add_sub_cancel_left]
      exact hox
    · rw [add_sub_cancel_left]
      exact hoy
  · rintro ⟨hp, hx, hy⟩
    exact ⟨p.2 - y, hy, p.1 - cx, hx, hp, Prod.ext (by dsimp only; omega) (by dsimp only; omega)⟩

theorem lit_iff {rows : List UInt8} {gx gy : Nat} {row : UInt8} (h : rows[gy]? = some row) :
    lit rows gx gy = true ↔ ¬row &&& 0x80 >>> UInt8.ofNat gx = 0 := by
  rw [lit, List.getD_eq_getElem?_getD, h, Option.getD_some, decide_eq_true_eq]

theorem paintGlyph_paints (hreached : bitmap.Reached) (hlike : bitmap.Like b)
    (hplace : InPlace cx y size) {rows : List UInt8}
    (hrows : rows.length = 8)
    (hscale : ∀ gx < 8, ∀ gy < 8, lit rows gx gy = true → (max gx gy + 1) * size ≤ 2147483647) :
    Paints bitmap color (fun p => bitmap.InFrame p ∧ Inked rows size (p.1 - cx) (p.2 - y))
      (b.paintGlyph rows cx y size color) b := by
  have hstep : ∀ gy ∈ List.range 8, ∀ b, bitmap.Like b → ∀ gx ∈ List.range 8, ∀ b, bitmap.Like b →
      Paints bitmap color (fun p => bitmap.InFrame p ∧ lit rows gx gy = true ∧
        Scaled gx size (p.1 - cx) ∧ Scaled gy size (p.2 - y)) (do
        let row ← rows[gy]?
        if row &&& 0x80 >>> UInt8.ofNat gx = 0 then return b
        else b.paintCell cx y size color gx gy) b := by
    intro gy hgy _ _ gx hgx b hb
    have hgy8 := List.mem_range.mp hgy
    have hgx8 := List.mem_range.mp hgx
    have hrow : rows[gy]? = some rows[gy] := List.getElem?_eq_getElem (by omega)
    have hlit : lit rows gx gy = true ↔ _ := lit_iff hrow
    rw [hrow, Option.bind_eq_bind, Option.bind_some]
    split
    · next hzero => exact Writes.nothing hb fun p hp => hlit.mp hp.2.1 hzero
    · next hne =>
      refine (paintCell_paints hreached hb hplace hgx8 hgy8
        (hscale gx hgx8 gy hgy8 (hlit.mpr hne))).congr fun p => ?_
      exact and_congr_right fun _ => (and_iff_right (hlit.mpr hne)).symm
  refine Writes.congr (Writes.foldlM (fun gy hgy b hb => Writes.foldlM
    (hstep gy hgy b hb) b hb) b hlike) fun p => ?_
  unfold Inked
  constructor
  · rintro ⟨gy, hgy, gx, hgx, hp, hlit⟩
    exact ⟨hp, gy, hgy, gx, hgx, hlit⟩
  · rintro ⟨hp, gy, hgy, gx, hgx, hlit⟩
    exact ⟨gy, hgy, gx, hgx, hp, hlit⟩

theorem paintChars_paints (hreached : bitmap.Reached) (hsize : 1 ≤ size) (htop : -2147483648 ≤ y)
    (hbottom : y + size ≤ 2147483647)
    (text : List Char)
    (hscale : ∀ ch ∈ text, ∀ gx < 8, ∀ gy < 8, lit (glyphOf ch) gx gy = true →
      (max gx gy + 1) * size ≤ 2147483647) :
    ∀ (cx : Int) (b : Bitmap), bitmap.Like b → -2147483648 ≤ cx → cx + text.length * size ≤ 2147483647 →
      Paints bitmap color
        (fun p => bitmap.InFrame p ∧ ∃ g ∈ glyphsFrom size y cx text,
          Inked (glyphOf g.char) size (p.1 - g.x) (p.2 - g.y))
        (Bitmap.paintChars y size color text cx b) b := by
  induction text with
  | nil =>
    intro cx b hlike _ _
    refine Writes.nothing hlike fun p hp => ?_
    obtain ⟨-, g, hg, -⟩ := hp
    exact absurd hg List.not_mem_nil
  | cons ch text ih =>
    intro cx b hlike hleft hright
    have hwidth : ((ch :: text).length : Int) * size = text.length * size + size := by
      rw [List.length_cons]
      push_cast
      ring
    have hrest : 0 ≤ (text.length : Int) * size := Int.mul_nonneg (Int.natCast_nonneg _) (by omega)
    rw [hwidth] at hright
    have hplace : InPlace cx y size := ⟨hsize, hleft, by omega, htop, hbottom⟩
    have hadvance : add32 cx size = some (cx + size) := if_pos (by unfold I32; omega)
    have hfirst : Paints bitmap color (fun p => bitmap.InFrame p ∧
      Inked (glyphOf ch) size (p.1 - cx) (p.2 - y))
        (b.paintGlyph (glyphOf ch) cx y size color) b :=
      paintGlyph_paints hreached hlike hplace (length_glyphOf ch) (hscale ch List.mem_cons_self)
    have hothers : ∀ b', bitmap.Like b' → Paints bitmap color
        (fun p => bitmap.InFrame p ∧ ∃ g ∈ glyphsFrom size y (cx + size) text,
          Inked (glyphOf g.char) size (p.1 - g.x) (p.2 - g.y)) (do
          let cx ← add32 cx size
          Bitmap.paintChars y size color text cx b') b' := by
      intro b' hb'
      rw [hadvance]
      exact ih (fun c hc => hscale c (List.mem_cons_of_mem ch hc)) (cx + size) b' hb' (by omega) (by omega)
    rw [Bitmap.paintChars]
    refine (hfirst.bind hothers).congr fun p => ?_
    rw [glyphsFrom, ← and_or_left]
    refine and_congr_right fun _ => ?_
    simp only [List.mem_cons, exists_eq_or_imp]

theorem paintText_paints (hreached : bitmap.Reached) (hlike : bitmap.Like b) {run : GlyphRun}
    (hplaced : run.Placed 2147483647)
    (hscales : run.Scales) : Paints bitmap run.color (fun p => bitmap.InFrame p ∧ run.Covers p)
      (b.paintText run) b := by
  rw [Bitmap.paintText, max_eq_left hplaced.size]
  exact paintChars_paints hreached hplaced.size hplaced.top hplaced.bottom run.text hscales run.x b
    hlike hplaced.left hplaced.right

end texts

/-! ### Boxes -/

/-- One thing is painted. -/
def PaintItem.paint (bitmap : Bitmap) : PaintItem → Option Bitmap
  | rect x y w h color => bitmap.fillRect x y w h color
  | text run => bitmap.paintText run

mutual

/-- Painting a box is painting its items in their order. -/
theorem paintBox_eq : (box : LayoutBox) → ∀ bitmap, paintBox box bitmap =
    (items box).foldlM PaintItem.paint bitmap
  | ⟨x, y, width, height, background, runs, replaced, children⟩, bitmap => by
    have hchildren : ∀ b, paintBoxes children b = (itemsOf children).foldlM PaintItem.paint b :=
      paintBoxes_eq children
    simp only [items, List.foldlM_append, List.foldlM_map]
    cases background with
    | none =>
      rw [paintBox]
      simp only [hchildren, Option.bind_eq_bind, Option.bind_assoc]
      rfl
    | some bg =>
      rw [paintBox, Option.toList_some, List.foldlM_cons]
      simp only [hchildren, Option.bind_eq_bind, Option.bind_assoc]
      rfl

theorem paintBoxes_eq : (boxes : List LayoutBox) → ∀ bitmap, paintBoxes boxes bitmap =
    (itemsOf boxes).foldlM PaintItem.paint bitmap
  | [], bitmap => by
    rw [paintBoxes, itemsOf]
    rfl
  | child :: children, bitmap => by
    rw [paintBoxes, itemsOf, List.foldlM_append, paintBox_eq child bitmap]
    congr 1
    funext b
    exact paintBoxes_eq children b

end

mutual

/-- The texts among the items of a box are its runs. -/
theorem mem_items : (box : LayoutBox) → ∀ run, PaintItem.text run ∈ items box ↔ run ∈ box.allRuns
  | ⟨x, y, width, height, background, runs, replaced, children⟩, run => by
    have hchildren := mem_itemsOf children run
    rw [items, LayoutBox.allRuns]
    simp only [List.mem_append, List.mem_map, reduceCtorEq, and_false, exists_false, false_or,
      or_false, PaintItem.text.injEq,
      exists_eq_right, hchildren]

theorem mem_itemsOf : (boxes : List LayoutBox) → ∀ run, PaintItem.text run ∈ itemsOf boxes ↔
    run ∈ allRunsOf boxes
  | [], run => by
    rw [itemsOf, allRunsOf]
    exact iff_of_false List.not_mem_nil List.not_mem_nil
  | child :: children, run => by
    rw [itemsOf, allRunsOf, List.mem_append, List.mem_append, mem_items child run, mem_itemsOf children run]

end

section boxes

variable {bitmap b : Bitmap}

theorem shown_cons (item : PaintItem) (list : List PaintItem) (p : Int × Int) (before : Nat) :
    shown (item :: list) p before = shown list p (if item.Covers p then item.color else before) := by
  unfold shown
  by_cases h : item.Covers p
  · rw [List.filter_cons_of_pos (by simpa using h), if_pos h, List.getLast?_cons]
    cases (list.filter fun item => item.Covers p).getLast? <;> rfl
  · rw [List.filter_cons_of_neg (by simpa using h), if_neg h]

/-- A thing that can be painted is painted where it is to be seen. -/
theorem PaintItem.paint_paints (hreached : bitmap.Reached) (hlike : bitmap.Like b) (item : PaintItem)
    (hrun : ∀ run, item = .text run → run.Placed 2147483647 ∧ run.Scales) :
    Paints bitmap item.color (fun p => bitmap.InFrame p ∧ item.Covers p) (item.paint b) b := by
  cases item with
  | rect x y w h color => exact fillRect_paints hreached hlike x y w h
  | text run => exact paintText_paints hreached hlike (hrun run rfl).1 (hrun run rfl).2

/-- The last item that covers a pixel is seen there. -/
theorem paint_shows (hreached : bitmap.Reached) (list : List PaintItem)
    (hruns : ∀ run, .text run ∈ list → run.Placed 2147483647 ∧ run.Scales) :
    ∀ (b : Bitmap) (before : Int × Int → Nat), bitmap.Like b →
      (∀ p, bitmap.InFrame p → b.seen p = leBytes 4 (before p)) →
      ∃ after, list.foldlM PaintItem.paint b = some after ∧ bitmap.Like after ∧
        ∀ p, bitmap.InFrame p → after.seen p = leBytes 4 (shown list p (before p)) := by
  induction list with
  | nil => exact fun b before hlike hseen => ⟨b, rfl, hlike, hseen⟩
  | cons item list ih =>
    intro b before hlike hseen
    have hitem := item.paint_paints hreached hlike fun run heq => hruns run (heq ▸ List.mem_cons_self)
    obtain ⟨mid, hmid, hlike', hin, hout⟩ := hitem
    have hnow : ∀ p, bitmap.InFrame p → mid.seen p = leBytes 4 (if item.Covers p then item.color
      else before p) := by
      intro p hp
      by_cases hcovers : item.Covers p
      · rw [hin p ⟨hp, hcovers⟩, if_pos hcovers]
      · rw [hout p fun h => hcovers h.2, if_neg hcovers]
        exact hseen p hp
    obtain ⟨after, hafter, hlike'', hlast⟩ :=
      ih (fun run hrun => hruns run (List.mem_cons_of_mem item hrun)) mid _ hlike' hnow
    refine ⟨after, ?_, hlike'', fun p hp => ?_⟩
    · rw [List.foldlM_cons, hmid]
      exact hafter
    · rw [shown_cons]
      exact hlast p hp

/-- A page with its texts in their places is painted into a bitmap that is reached. -/
theorem painted_of_reached (hreached : bitmap.Reached) {root : LayoutBox} (hplaced : root.RunsPlaced)
    (hscales : ∀ run ∈ root.allRuns, run.Scales) : Painted root bitmap := by
  obtain ⟨blank, hfill, hlike, hin, -⟩ := @fill_paints bitmap white hreached
  have hruns : ∀ run, .text run ∈ items root → run.Placed 2147483647 ∧ run.Scales := by
    intro run hrun
    rw [mem_items] at hrun
    exact ⟨hplaced run hrun, hscales run hrun⟩
  obtain ⟨after, hafter, hlike', hseen⟩ :=
    paint_shows hreached (items root) hruns blank (fun _ => white) hlike hin
  refine ⟨after, ?_, fun p hp => ?_⟩
  · rw [paint, hfill, ← hafter, ← paintBox_eq, Option.bind_eq_bind, Option.bind_some]
  · have hpixel := hseen p hp
    rwa [Bitmap.seen, if_pos (hlike'.inFrame.mpr hp)] at hpixel

end boxes

/-! ### What goes wrong -/

section failures

variable {bitmap b b' : Bitmap} {color : Nat} {size cx y : Int}

/-- A product that overflows. -/
theorem scaled_none {g : Nat} (hg : 2147483647 < (g + 1) * size) : scaled g size = none := by
  have hover : mul32 (g + 1) size = none := by
    refine if_neg fun h => ?_
    have hle := h.2
    omega
  rw [scaled]
  cases mul32 g size with
  | none => rfl
  | some start =>
    rw [Option.bind_eq_bind, Option.bind_some, hover]
    rfl

theorem paintCell_none {gx gy : Nat} (hover : 2147483647 < (max gx gy + 1) * size) :
    b.paintCell cx y size color gx gy = none := by
  rw [Bitmap.paintCell]
  rcases le_total gx gy with hle | hle
  · rw [max_eq_right (by omega)] at hover
    cases scaled gx size with
    | none => rfl
    | some range =>
      rw [Option.bind_eq_bind, Option.bind_some, scaled_none hover]
      rfl
  · rw [max_eq_left (by omega)] at hover
    rw [scaled_none hover]
    rfl

theorem paintGlyph_none {rows : List UInt8} (hrows : rows.length = 8) {gx gy : Nat} (hgx : gx < 8)
    (hgy : gy < 8)
    (hlit : lit rows gx gy = true) (hover : 2147483647 <
      (max gx gy + 1) * size) : b.paintGlyph rows cx y size color = none := by
  refine foldlM_fails (List.mem_range.mpr hgy)
    (fun b => foldlM_fails (List.mem_range.mpr hgx) (fun b => ?_) b) b
  have hrow : rows[gy]? = some rows[gy] := List.getElem?_eq_getElem (by omega)
  rw [hrow, Option.bind_eq_bind, Option.bind_some, if_neg ((lit_iff hrow).mp hlit)]
  exact paintCell_none hover

/-- A text with a character that cannot be scaled is not painted, wherever it is. -/
theorem paintText_none {run : GlyphRun} (hsize : 1 ≤ run.fontSize) (h : ¬run.Scales) :
    b.paintText run = none := by
  unfold GlyphRun.Scales at h
  push Not at h
  obtain ⟨ch, hch, gx, hgx, gy, hgy, hlit, hover⟩ := h
  have hall : ∀ (text : List Char), ch ∈ text → ∀ (cx : Int) (b : Bitmap),
      Bitmap.paintChars run.y run.fontSize run.color text cx b = none := by
    intro text
    induction text with
    | nil => exact fun hmem => absurd hmem List.not_mem_nil
    | cons c text ih =>
      intro hmem cx b
      rw [Bitmap.paintChars]
      rcases List.mem_cons.mp hmem with rfl | hmem
      · rw [paintGlyph_none (length_glyphOf ch) hgx hgy hlit hover]
        rfl
      · cases b.paintGlyph (glyphOf c) cx run.y run.fontSize run.color with
        | none => rfl
        | some b' =>
          cases add32 cx run.fontSize with
          | none => rfl
          | some cx' => exact ih hmem cx' b'
  rw [Bitmap.paintText, max_eq_left hsize]
  exact hall run.text hch run.x b

theorem paint_none {root : LayoutBox} {run : GlyphRun} (hrun : run ∈ root.allRuns)
    (hsize : 1 ≤ run.fontSize) (h : ¬run.Scales) :
    paint root bitmap = none := by
  rw [paint]
  cases bitmap.fill white with
  | none => rfl
  | some blank =>
    rw [Option.bind_eq_bind, Option.bind_some, paintBox_eq]
    exact foldlM_fails ((mem_items root run).mpr hrun) (fun b => paintText_none hsize h) blank

/-- What a pixel that is set keeps, painting keeps. -/
theorem paint_keeps {P : Bitmap → Prop} (hpixel : ∀ b x y color b', P b →
    b.setPixel x y color = some b' → P b') {root : LayoutBox}
    (hb : P b) (hpaint : paint root b = some b') : P b' := by
  have harea : ∀ (b b' : Bitmap) (x0 x1 y0 y1 : Int) (color : Nat), P b →
    b.paintArea x0 x1 y0 y1 color = some b' → P b' :=
    fun b b' x0 x1 y0 y1 color => foldlM_keeps
      (fun y _ => foldlM_keeps fun x _ b b' => hpixel b x y color b') b b'
  have hrect : ∀ (b b' : Bitmap) (x y w h : Int) (color : Nat), P b →
    b.fillRect x y w h color = some b' → P b' := by
    intro b b' x y w h color hb hfill
    unfold Bitmap.fillRect at hfill
    split at hfill
    · obtain rfl := Option.some.inj hfill
      exact hb
    · exact harea _ _ _ _ _ _ _ hb hfill
  have hcell : ∀ (b b' : Bitmap) (cx y size : Int) (color gx gy : Nat), P b →
    b.paintCell cx y size color gx gy = some b' → P b' := by
    intro b b' cx y size color gx gy hb hcell
    obtain ⟨⟨px0, px1⟩, _, hcell⟩ := Option.bind_eq_some_iff.mp hcell
    obtain ⟨⟨py0, py1⟩, _, hcell⟩ := Option.bind_eq_some_iff.mp hcell
    refine foldlM_keeps (fun oy _ => foldlM_keeps fun ox _ b b' hb hstep => ?_) b b' hb hcell
    obtain ⟨px, _, hstep⟩ := Option.bind_eq_some_iff.mp hstep
    obtain ⟨py, _, hstep⟩ := Option.bind_eq_some_iff.mp hstep
    exact hpixel b px py color b' hb hstep
  have hglyph : ∀ (b b' : Bitmap) (rows : List UInt8) (cx y size : Int) (color : Nat), P b →
      b.paintGlyph rows cx y size color = some b' → P b' := by
    intro b b' rows cx y size color
    refine foldlM_keeps (fun gy _ => foldlM_keeps fun gx _ b b' hb hstep => ?_) b b'
    obtain ⟨row, _, hstep⟩ := Option.bind_eq_some_iff.mp hstep
    split at hstep
    · obtain rfl := Option.some.inj hstep
      exact hb
    · exact hcell _ _ _ _ _ _ _ _ hb hstep
  have hchars : ∀ (y size : Int) (color : Nat) (text : List Char) (cx : Int) (b b' : Bitmap), P b →
      Bitmap.paintChars y size color text cx b = some b' → P b' := by
    intro y size color text
    induction text with
    | nil =>
      intro cx b b' hb hchars
      obtain rfl := Option.some.inj hchars
      exact hb
    | cons ch text ih =>
      intro cx b b' hb hchars
      obtain ⟨mid, hfirst, hchars⟩ := Option.bind_eq_some_iff.mp hchars
      obtain ⟨cx', _, hchars⟩ := Option.bind_eq_some_iff.mp hchars
      exact ih cx' mid b' (hglyph _ _ _ _ _ _ _ hb hfirst) hchars
  obtain ⟨blank, hfill, hboxes⟩ := Option.bind_eq_some_iff.mp hpaint
  rw [paintBox_eq] at hboxes
  refine foldlM_keeps (fun item _ b b' hb hitem => ?_) blank b' (harea _ _ _ _ _ _ _ hb hfill) hboxes
  cases item with
  | rect x y w h color => exact hrect _ _ _ _ _ _ _ hb hitem
  | text run => exact hchars _ _ _ _ _ _ _ hb hitem

/-- No byte is written behind the last place that an offset of 32 bits reaches. -/
theorem setPixel_far {j : Nat} (hj : 4294967299 ≤ j) {x y : Int} (hset : b.setPixel x y color = some b') :
    b.Like b' ∧ (b'.data.drop j).take 1 = (b.data.drop j).take 1 := by
  unfold Bitmap.setPixel at hset
  split at hset
  · obtain rfl := Option.some.inj hset
    exact ⟨⟨rfl, rfl, rfl, rfl⟩, rfl⟩
  · split at hset
    · obtain rfl := Option.some.inj hset
      exact ⟨⟨rfl, rfl, rfl, rfl⟩, rfl⟩
    · obtain ⟨off, hoff, hwrite⟩ := Option.bind_eq_some_iff.mp hset
      obtain ⟨row, _, hoff⟩ := Option.bind_eq_some_iff.mp hoff
      obtain ⟨col, _, hoff⟩ := Option.bind_eq_some_iff.mp hoff
      have hlt : off < 4294967296 := by
        unfold u32 at hoff
        split at hoff
        · next hlt =>
          obtain rfl := Option.some.inj hoff
          exact hlt
        · exact nomatch hoff
      have hfour := length_leBytes 4 color
      unfold Bitmap.write at hwrite
      split at hwrite
      · next hroom =>
        obtain rfl := Option.some.inj hwrite
        refine ⟨⟨rfl, rfl, rfl, length_copyFrom hroom⟩, ?_⟩
        exact take_drop_copyFrom_apart hroom (.inr (by omega))
      · exact nomatch hwrite

/-- The bitmap has data over which a page is not painted if its last pixel is not reached. -/
theorem not_painted_of_not_reached (root : LayoutBox) (h : ¬bitmap.Reached) :
    ∃ data, ∃ hlength : data.length = bitmap.data.length, ¬Painted root (bitmap.over data hlength) := by
  obtain ⟨last, hlast⟩ : ∃ last : Int × Int, last =
    ((bitmap.width : Int) - 1, (bitmap.height : Int) - 1) := ⟨_, rfl⟩
  have hwidth := bitmap.width_pos
  have hheight := bitmap.height_pos
  have hin : bitmap.InFrame last := by
    rw [hlast]
    unfold Bitmap.InFrame
    dsimp only
    omega
  have hplace : bitmap.place last = (bitmap.height - 1) * bitmap.stride + (bitmap.width - 1) * 4 := by
    have hx : ((bitmap.width : Int) - 1).toNat = bitmap.width - 1 := by omega
    have hy : ((bitmap.height : Int) - 1).toNat = bitmap.height - 1 := by omega
    rw [hlast, Bitmap.place, hx, hy]
  have hfour : ∀ c, (leBytes 4 c).length = 4 := length_leBytes 4
  unfold Bitmap.Reached at h
  rw [← hplace] at h
  -- the byte at the end of the last pixel is not the one it should have
  obtain ⟨wrong, hwrong⟩ : ∃ wrong : UInt8,
    [wrong] ≠ (leBytes 4 (shown (items root) last white)).drop 3 := by
    generalize shown (items root) last white = c
    refine ⟨UInt8.ofNat (c / 256 / 256 / 256) + 1, fun heq => ?_⟩
    have hbyte : UInt8.ofNat (c / 256 / 256 / 256) + 1 = UInt8.ofNat (c / 256 / 256 / 256) :=
      List.singleton_inj.mp heq
    generalize UInt8.ofNat (c / 256 / 256 / 256) = byte at hbyte
    have hnat := congrArg UInt8.toNat hbyte
    rw [UInt8.toNat_add] at hnat
    have hlt := byte.toNat_lt
    change (byte.toNat + 1) % 256 = byte.toNat at hnat
    omega
  refine ⟨bitmap.data.set (bitmap.place last + 3) wrong, List.length_set, ?_⟩
  rintro ⟨after, hpaint, hpixels⟩
  have hpixel := hpixels last hin
  have hsame : ∀ b x y color b', (bitmap.over
    (bitmap.data.set (bitmap.place last + 3) wrong) List.length_set).Like b →
      b.setPixel x y color = some b' → (bitmap.over
        (bitmap.data.set (bitmap.place last + 3) wrong) List.length_set).Like b' := by
    intro b x y color b' hb hset
    obtain ⟨hlike, -⟩ := setPixel_far le_rfl hset
    exact ⟨hlike.width.trans hb.width, hlike.height.trans hb.height, hlike.stride.trans hb.stride,
      hlike.length.trans hb.length⟩
  have hlike := paint_keeps hsame ⟨rfl, rfl, rfl, rfl⟩ hpaint
  have hafter : after.place last = bitmap.place last := hlike.place
  rw [Bitmap.pixel, hafter] at hpixel
  by_cases hroom : bitmap.place last + 4 ≤ bitmap.data.length
  · have hfar : 4294967299 ≤ bitmap.place last + 3 := by
      by_contra hnear
      exact h ⟨by omega, hroom⟩
    have hstale := paint_keeps (fun b x y color b' hb hset => (setPixel_far hfar hset).2.trans hb)
      rfl hpaint
    have hfirst : ((bitmap.data.set (bitmap.place last + 3) wrong).drop
      (bitmap.place last + 3)).take 1 = [wrong] := by
      rw [List.drop_eq_getElem_cons (by rw [List.length_set]; omega), List.getElem_set_self]
      rfl
    refine hwrong ?_
    rw [← hpixel, List.drop_take, List.drop_drop, ← hfirst]
    exact hstale.symm
  · have hlength := congrArg List.length hpixel
    have hdata := hlike.length
    change after.data.length = (bitmap.data.set (bitmap.place last + 3) wrong).length at hdata
    rw [hfour, List.length_take, List.length_drop, hdata, List.length_set] at hlength
    omega

end failures

/-! ### Pages -/

/-- A page that is laid out is painted as it should be, whatever the bitmap holds, just when the
last pixel of the bitmap is reached and the lit pixels of the glyphs of its texts are scaled within
32 bits. -/
theorem paint_exact (html : List Char) (viewportW viewportH : Int) {root : LayoutBox}
    (h : layoutDocument (parse html) viewportW viewportH = some root) (bitmap : Bitmap) :
    (∀ data, ∀ hlength : data.length = bitmap.data.length, Painted root (bitmap.over data hlength)) ↔
      bitmap.Reached ∧ ∀ run ∈ root.allRuns, run.Scales := by
  have hplaced := layoutDocument_placed h
  constructor
  · intro hall
    refine ⟨?_, fun run hrun => ?_⟩
    · by_contra hnot
      obtain ⟨data, hlength, hfails⟩ := not_painted_of_not_reached root hnot
      exact hfails (hall data hlength)
    · by_contra hnot
      obtain ⟨after, hpaint, -⟩ := hall bitmap.data rfl
      rw [paint_none hrun (hplaced run hrun).size hnot] at hpaint
      exact nomatch hpaint
  · rintro ⟨hreached, hscales⟩ data hlength
    have hover : (bitmap.over data hlength).Reached := ⟨hreached.1, hreached.2.trans hlength.ge⟩
    exact painted_of_reached hover hplaced hscales

/-- A bitmap of one pixel. -/
def onePixel : Bitmap where
  data := [0, 0, 0, 0]
  width := 1
  height := 1
  stride := 4
  width_pos := Nat.one_pos
  height_pos := Nat.one_pos
  width_fits := by decide
  height_fits := by decide
  stride_fits := by decide
  wide := by decide
  room := by decide

/-- A page with a letter, and what painting it comes to. -/
theorem paint_exact_letter : ∃ root, layoutDocument (parse "<p>A".toList) 1 1 = some root ∧
    ((∀ data, ∀ hlength : data.length = onePixel.data.length, Painted root (onePixel.over data hlength)) ↔
      onePixel.Reached ∧ ∀ run ∈ root.allRuns, run.Scales) := by
  obtain ⟨root, hroot⟩ := Option.isSome_iff_exists.mp
    (show (layoutDocument (parse "<p>A".toList) 1 1).isSome = true by
      rw [layoutDocument, Cascade.new_eq, String.toList_ofList]
      decide +kernel)
  exact ⟨root, hroot, paint_exact _ 1 1 hroot onePixel⟩

/-- A font of four hundred million pixels is laid out, and its letters cannot be scaled. -/
theorem huge_letter_fails : ∃ root, layoutDocument
    (parse "<p style=\"font-size:400000000px\">A".toList) 1 1 = some root ∧
    ¬Painted root onePixel := by
  have hpage : (layoutDocument (parse "<p style=\"font-size:400000000px\">A".toList) 1 1).any
      (fun root => root.allRuns.any fun run => run.text = ['A'] ∧ run.fontSize = 400000000) = true := by
    rw [layoutDocument, Cascade.new_eq, String.toList_ofList]
    decide +kernel
  obtain ⟨root, hroot, hany⟩ := (Option.any_eq_true _ _).mp hpage
  obtain ⟨run, hrun, hletter⟩ := List.any_eq_true.mp hany
  obtain ⟨htext, hsize⟩ := of_decide_eq_true hletter
  refine ⟨root, hroot, ?_⟩
  rintro ⟨after, hpaint, -⟩
  rw [paint_none hrun (by omega)] at hpaint
  · cases hpaint
  · intro hscales
    have hle := hscales 'A' (by rw [htext]; exact List.mem_singleton_self _) 1 (by decide) 6
      (by decide) (by decide)
    rw [hsize] at hle
    exact absurd hle (by decide)

end Lerux.Web
