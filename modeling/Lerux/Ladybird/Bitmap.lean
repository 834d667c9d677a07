import Lerux.Base.Buffer
import Lerux.Base.Exact
import Lerux.Base.Writes
import Mathlib.Tactic

/-!
# Drawing on the frame of the ladybird browser

A frame of pixels of four bytes, with `fill_rect` and `blit_rect`. A number of 32 bits is an integer
with its bounds, and what a drawing operation computes with is checked: none is an overflow, an
index out of range or a failed conversion.

`Bitmap.color` is the picture that the bytes hold. Both operations are loops of `set_pixel`, and
`setPixel_writes` is all that is used of it.
-/

namespace Lerux.Ladybird

open Base (I32 i32 add32 sub32 copyFrom Writes)

structure Color where
  b : UInt8
  g : UInt8
  r : UInt8
  a : UInt8
  deriving DecidableEq

def Color.toBytes (c : Color) : List UInt8 := [c.b, c.g, c.r, c.a]

/-- A rectangle in pixel coordinates, in numbers of 32 bits. -/
structure Rect where
  x : Int
  y : Int
  width : Int
  height : Int
  x_fits : I32 x
  y_fits : I32 y
  width_fits : I32 width
  height_fits : I32 height

def usizeValues : Nat := 18446744073709551616

def u32Values : Nat := 4294967296

structure Bitmap where
  bytes : List UInt8
  width : Nat
  height : Nat
  width_pos : 0 < width
  height_pos : 0 < height
  width_fits : width < u32Values
  height_fits : height < u32Values
  needed : width * height * 4 < usizeValues
  size : bytes.length = width * height * 4

def usize (n : Nat) : Option Nat := if n < usizeValues then some n else none

def Bitmap.offset (bitmap : Bitmap) (x y : Nat) : Option Nat := do
  let row ← usize (y * bitmap.width)
  let place ← usize (row + x)
  usize (place * 4)

/-- Four bytes from a place. -/
def Bitmap.read (bitmap : Bitmap) (off : Nat) : Option Color :=
  match bitmap.bytes.drop off with
  | b :: g :: r :: a :: _ => some ⟨b, g, r, a⟩
  | _ => none

/-- Four bytes at a place. -/
def Bitmap.write (bitmap : Bitmap) (off : Nat) (color : Color) : Option Bitmap :=
  if h : off + color.toBytes.length ≤ bitmap.bytes.length then
    some { bitmap with bytes := copyFrom bitmap.bytes off color.toBytes, size := (Base.length_copyFrom h).trans bitmap.size }
  else none

def Bitmap.setPixel (bitmap : Bitmap) (x y : Int) (color : Color) : Option Bitmap :=
  if x < 0 then some bitmap
  else if y < 0 then some bitmap
  else if bitmap.width ≤ x.toNat ∨ bitmap.height ≤ y.toNat then some bitmap
  else do
    let off ← bitmap.offset x.toNat y.toNat
    bitmap.write off color

def Bitmap.pixel (bitmap : Bitmap) (x y : Int) : Option (Option Color) :=
  if x < 0 then some none
  else if y < 0 then some none
  else if bitmap.width ≤ x.toNat ∨ bitmap.height ≤ y.toNat then some none
  else do
    let off ← bitmap.offset x.toNat y.toNat
    let color ← bitmap.read off
    some (some color)

def add64 (a b : Int) : Option Int := if -9223372036854775808 ≤ a + b ∧ a + b ≤
    9223372036854775807 then some (a + b) else none

/-- Half-open column or row range that lies inside `0..limit`. -/
def visibleRange (origin length : Int) (limit : Nat) : Option (Option (Int × Int)) :=
  if length ≤ 0 then some none
  else do
    let limit := (i32 limit).getD 2147483647
    let stop ← add64 origin length
    let start := max origin 0
    let stop := min stop limit
    if start ≥ stop then some none
    else
      some do
        let start ← i32 start
        let stop ← i32 stop
        some (start, stop)

/-- The numbers of a half-open range. -/
def numbers (start stop : Int) : List Int := (List.range (stop - start).toNat).map fun k : Nat => start + k

/-- The loops over what is visible of a rectangle, with the returns before them. -/
def Bitmap.eachVisible (bitmap : Bitmap) (x y width height : Int) (step : Bitmap → Int → Int →
    Option Bitmap) : Option Bitmap := do
  match ← visibleRange x width bitmap.width with
  | none => some bitmap
  | some (x0, x1) =>
    match ← visibleRange y height bitmap.height with
    | none => some bitmap
    | some (y0, y1) => (numbers y0 y1).foldlM (fun bitmap y => (numbers x0 x1).foldlM (fun bitmap x => step bitmap x y) bitmap) bitmap

def Bitmap.fillRect (bitmap : Bitmap) (rect : Rect) (color : Color) : Option Bitmap :=
  bitmap.eachVisible rect.x rect.y rect.width rect.height fun bitmap x y => bitmap.setPixel x y color

/-- The place in the source that a place in the frame is copied from, if it is a number of 32 bits. -/
def sourceOf (dst srcRect : Rect) (x y : Int) : Option (Int × Int) := do
  let col ← sub32 x dst.x
  let row ← sub32 y dst.y
  let sx ← add32 srcRect.x col
  let sy ← add32 srcRect.y row
  some (sx, sy)

def Bitmap.blitPixel (dst : Rect) (src : Bitmap) (srcRect : Rect) (bitmap : Bitmap) (x y : Int) :
    Option Bitmap :=
  match sourceOf dst srcRect x y with
  | none => some bitmap
  | some (sx, sy) => do
    match ← src.pixel sx sy with
    | none => some bitmap
    | some color => bitmap.setPixel x y color

def Bitmap.blitRect (bitmap : Bitmap) (dst : Rect) (src : Bitmap) (srcRect : Rect) : Option Bitmap :=
  let width := min dst.width srcRect.width
  let height := min dst.height srcRect.height
  bitmap.eachVisible dst.x dst.y width height (Bitmap.blitPixel dst src srcRect)

/-! ### The picture in the bytes -/

def Bitmap.InFrame (bitmap : Bitmap) (x y : Int) : Prop := (0 ≤ x ∧ x < bitmap.width) ∧ 0 ≤ y ∧
    y < bitmap.height

instance Bitmap.instDecidableInFrame (bitmap : Bitmap) (x y : Int) : Decidable (bitmap.InFrame x y) :=
  inferInstanceAs (Decidable (_ ∧ _))

def Bitmap.place (bitmap : Bitmap) (x y : Int) : Nat := (y.toNat * bitmap.width + x.toNat) * 4

/-- The colour of a pixel of the frame. -/
def Bitmap.color (bitmap : Bitmap) (p : Int × Int) : Option Color :=
  if bitmap.InFrame p.1 p.2 then bitmap.read (bitmap.place p.1 p.2) else none

/-- The sides of the frame. -/
def Bitmap.Sides (width height : Nat) (bitmap : Bitmap) : Prop := bitmap.width = width ∧
    bitmap.height = height

section pixels

variable {bitmap : Bitmap} {x y : Int}

theorem Bitmap.place_lt (h : bitmap.InFrame x y) : bitmap.place x y + 4 ≤ bitmap.bytes.length := by
  have hrow : y.toNat + 1 ≤ bitmap.height := by
    have := h.2
    omega
  have hcol : x.toNat < bitmap.width := by
    have := h.1
    omega
  have hrows := Nat.mul_le_mul_right bitmap.width hrow
  rw [bitmap.size, Bitmap.place, Nat.mul_comm bitmap.width]
  rw [Nat.succ_mul] at hrows
  omega

theorem Bitmap.offset_eq (h : bitmap.InFrame x y) : bitmap.offset x.toNat y.toNat =
    some (bitmap.place x y) := by
  have hplace := Bitmap.place_lt h
  have hneeded := bitmap.needed
  rw [← bitmap.size] at hneeded
  unfold Bitmap.place at hplace ⊢
  have hfits : ∀ n, n ≤ (y.toNat * bitmap.width + x.toNat) * 4 → usize n = some n :=
    fun n hn => if_pos (by omega)
  simp only [Bitmap.offset, Option.bind_eq_bind]
  rw [hfits _ (by omega), Option.bind_some, hfits _ (by omega), Option.bind_some, hfits _ le_rfl]

theorem Bitmap.read_isSome {off : Nat} (h : off + 4 ≤ bitmap.bytes.length) : ∃ c,
    bitmap.read off = some c := by
  have hlength : (bitmap.bytes.drop off).length = bitmap.bytes.length - off := List.length_drop
  unfold Bitmap.read
  match hdrop : bitmap.bytes.drop off with
  | b :: g :: r :: a :: _ => exact ⟨_, rfl⟩
  | [] | [_] | [_, _] | [_, _, _] =>
    rw [hdrop] at hlength
    simp only [List.length_cons, List.length_nil] at hlength
    omega

theorem Bitmap.color_isSome (h : bitmap.InFrame x y) : ∃ c, bitmap.color (x, y) = some c := by
  rw [Bitmap.color, if_pos h]
  exact Bitmap.read_isSome (Bitmap.place_lt h)

/-- The checks of a coordinate. -/
theorem Bitmap.checked {α : Type} (bitmap : Bitmap) (x y : Int) (a b : α) :
    (if x < 0 then a else if y < 0 then a else if bitmap.width ≤ x.toNat ∨ bitmap.height ≤
      y.toNat then a else b) =
      if bitmap.InFrame x y then b else a := by
  have hframe : bitmap.InFrame x y ↔ ¬x < 0 ∧ ¬y < 0 ∧
    ¬(bitmap.width ≤ x.toNat ∨ bitmap.height ≤ y.toNat) := by
    unfold Bitmap.InFrame
    omega
  by_cases hx : x < 0
  · rw [if_pos hx, if_neg fun h => (hframe.mp h).1 hx]
  by_cases hy : y < 0
  · rw [if_neg hx, if_pos hy, if_neg fun h => (hframe.mp h).2.1 hy]
  by_cases hout : bitmap.width ≤ x.toNat ∨ bitmap.height ≤ y.toNat
  · rw [if_neg hx, if_neg hy, if_pos hout, if_neg fun h => (hframe.mp h).2.2 hout]
  · rw [if_neg hx, if_neg hy, if_neg hout, if_pos (hframe.mpr ⟨hx, hy, hout⟩)]

/-- A pixel is read without fail. -/
theorem Bitmap.pixel_eq (bitmap : Bitmap) (x y : Int) : bitmap.pixel x y = some (bitmap.color (x, y)) := by
  rw [Bitmap.pixel, Bitmap.checked, Bitmap.color]
  by_cases h : bitmap.InFrame x y
  · obtain ⟨c, hc⟩ := Bitmap.read_isSome (Bitmap.place_lt h)
    rw [if_pos h, if_pos h, Bitmap.offset_eq h, Option.bind_eq_bind, Option.bind_some, hc]
    rfl
  · rw [if_neg h, if_neg h]

/-- Two pixels have no byte in common. -/
theorem Bitmap.place_apart {x' y' : Int} (h : bitmap.InFrame x y) (h' : bitmap.InFrame x' y')
    (hne : (x', y') ≠ (x, y)) :
    bitmap.place x' y' + 4 ≤ bitmap.place x y ∨ bitmap.place x y + 4 ≤ bitmap.place x' y' := by
  have hrows : ∀ a b : Nat, a < b → a * bitmap.width + bitmap.width ≤ b * bitmap.width := by
    intro a b hab
    have := Nat.mul_le_mul_right bitmap.width hab
    rwa [Nat.succ_mul] at this
  obtain ⟨hx, hy⟩ := h
  obtain ⟨hx', hy'⟩ := h'
  unfold Bitmap.place
  rcases lt_trichotomy y.toNat y'.toNat with hlt | heq | hlt
  · have := hrows _ _ hlt
    omega
  · have hcols : x ≠ x' := by
      rintro rfl
      exact hne (by rw [show y' = y by omega])
    rw [heq]
    omega
  · have := hrows _ _ hlt
    omega

/-- A pixel is what its four bytes are. -/
theorem Bitmap.read_congr {other : Bitmap} {off : Nat}
    (h : (bitmap.bytes.drop off).take 4 = (other.bytes.drop off).take 4) : bitmap.read off =
      other.read off := by
  have hread : ∀ b : Bitmap, b.read off = ((b.bytes.drop off).take 4)[0]?.bind fun blue =>
    ((b.bytes.drop off).take 4)[1]?.bind fun green =>
      ((b.bytes.drop off).take 4)[2]?.bind fun red => ((b.bytes.drop off).take 4)[3]?.bind
        fun alpha => some ⟨blue, green, red, alpha⟩ := by
    intro b
    unfold Bitmap.read
    generalize b.bytes.drop off = bytes
    rcases bytes with _ | ⟨_, _ | ⟨_, _ | ⟨_, _ | ⟨_, _⟩⟩⟩⟩ <;> rfl
  rw [hread, hread, h]

/-- `set_pixel` writes one pixel. -/
theorem setPixel_writes {width height : Nat} {value : Int × Int → Option Color} {c : Color}
    (hsides : bitmap.Sides width height)
    (h : bitmap.InFrame x y) (hvalue : value (x, y) = some c) :
    Writes Bitmap.color value (Bitmap.Sides width height) (· = (x, y)) (bitmap.setPixel x y c) bitmap := by
  have hroom := Bitmap.place_lt h
  have hfour : c.toBytes.length = 4 := rfl
  obtain ⟨after, hafter⟩ : ∃ after : Bitmap, after = { bitmap with
      bytes := copyFrom bitmap.bytes (bitmap.place x y) c.toBytes
      size := (Base.length_copyFrom (by rw [hfour]; exact hroom)).trans bitmap.size } := ⟨_, rfl⟩
  have hwrite : bitmap.write (bitmap.place x y) c = some after := by
    rw [Bitmap.write, dif_pos (by rw [hfour]; exact hroom), hafter]
  have hbytes : after.bytes = copyFrom bitmap.bytes (bitmap.place x y) c.toBytes := by rw [hafter]
  have hframe : ∀ p q, after.InFrame p q ↔ bitmap.InFrame p q := fun p q => by rw [hafter]; rfl
  have hplace : ∀ p q, after.place p q = bitmap.place p q := fun p q => by rw [hafter]; rfl
  refine ⟨after, ?_, by rw [hafter]; exact hsides, ?_, ?_⟩
  · rw [Bitmap.setPixel, Bitmap.checked, if_pos h, Bitmap.offset_eq h, Option.bind_eq_bind,
      Option.bind_some, hwrite]
  · rintro p rfl
    have hfront : (bitmap.bytes.take (bitmap.place x y)).length = bitmap.place x y :=
      List.length_take_of_le (by omega)
    rw [hvalue, Bitmap.color, if_pos ((hframe x y).mpr h), Bitmap.read, hplace, hbytes, copyFrom,
      List.append_assoc]
    dsimp only
    rw [List.drop_append_of_le_length (by omega), List.drop_eq_nil_of_le (by omega)]
    rfl
  · rintro ⟨p, q⟩ hne
    rw [Bitmap.color, Bitmap.color]
    dsimp only
    by_cases hpq : bitmap.InFrame p q
    · rw [if_pos ((hframe p q).mpr hpq), if_pos hpq, hplace]
      apply Bitmap.read_congr
      rw [hbytes]
      exact Base.take_drop_copyFrom_apart (by rw [hfour]; exact hroom) (Bitmap.place_apart h hpq hne)
    · rw [if_neg fun hp => hpq ((hframe p q).mp hp), if_neg hpq]

end pixels

/-! ### Rectangles -/

/-- The coordinate lies in the range from an origin on. -/
def Spans (origin length n : Int) : Prop := origin ≤ n ∧ n < origin + length

def Rect.Contains (rect : Rect) (x y : Int) : Prop := Spans rect.x rect.width x ∧ Spans rect.y rect.height y

/-- The target of a copy, clipped to the smaller of the two sizes. -/
def Clipped (dst srcRect : Rect) (x y : Int) : Prop :=
  Spans dst.x (min dst.width srcRect.width) x ∧ Spans dst.y (min dst.height srcRect.height) y

instance instDecidableSpans (origin length n : Int) : Decidable (Spans origin length n) :=
  inferInstanceAs (Decidable (_ ∧ _))

instance Rect.instDecidableContains (rect : Rect) (x y : Int) : Decidable (rect.Contains x y) :=
  inferInstanceAs (Decidable (_ ∧ _))

instance instDecidableClipped (dst srcRect : Rect) (x y : Int) : Decidable (Clipped dst srcRect x y) :=
  inferInstanceAs (Decidable (_ ∧ _))

theorem mem_numbers {start stop n : Int} : n ∈ numbers start stop ↔ start ≤ n ∧ n < stop := by
  unfold numbers
  simp only [List.mem_map, List.mem_range]
  constructor
  · rintro ⟨k, hk, rfl⟩
    omega
  · rintro ⟨hle, hlt⟩
    exact ⟨(n - start).toNat, by omega, by omega⟩

/-- The range is what is visible, and no sum overflows. -/
theorem visibleRange_spec {origin length : Int} {limit : Nat} (horigin : I32 origin)
    (hlength : I32 length) (hlimit : limit < 2147483648) :
    ∃ range, visibleRange origin length limit = some range ∧
      ∀ n, (∃ r ∈ range, n ∈ numbers r.1 r.2) ↔ (0 ≤ n ∧ n < limit) ∧ Spans origin length n := by
  unfold I32 at horigin hlength
  unfold visibleRange Spans
  by_cases hpos : length ≤ 0
  · rw [if_pos hpos]
    refine ⟨none, rfl, fun n => iff_of_false ?_ (by omega)⟩
    rintro ⟨r, hr, -⟩
    cases hr
  have hlimit32 : (i32 limit).getD 2147483647 = limit := by
    rw [i32, if_pos (by unfold I32; omega), Option.getD_some]
  have hsum : add64 origin length = some (origin + length) := if_pos (by omega)
  rw [if_neg hpos, hsum]
  dsimp only [Option.bind_eq_bind, Option.bind_some]
  rw [hlimit32]
  by_cases hempty : max origin 0 ≥ min (origin + length) limit
  · rw [if_pos hempty]
    refine ⟨none, rfl, fun n => iff_of_false ?_ (by omega)⟩
    rintro ⟨r, hr, -⟩
    cases hr
  · have hstart : i32 (max origin 0) = some (max origin 0) := if_pos (by unfold I32; omega)
    have hstop : i32 (min (origin + length) limit) = some (min (origin + length) limit) :=
      if_pos (by unfold I32; omega)
    rw [if_neg hempty, hstart, hstop]
    refine ⟨_, rfl, fun n => ?_⟩
    simp only [Option.bind_some, Option.mem_def, Option.some.injEq, exists_eq_left', mem_numbers]
    omega

/-- Sides that are numbers of 32 bits with a sign. -/
def Bitmap.Small (bitmap : Bitmap) : Prop := bitmap.width < 2147483648 ∧ bitmap.height < 2147483648

section loops

variable {bitmap : Bitmap} {value : Int × Int → Option Color} {keep : Int → Int → Prop}
  {step : Bitmap → Int → Int → Option Bitmap}

/-- A loop over what is visible of a rectangle writes where a step at one of its pixels does. -/
theorem eachVisible_writes {x y width height : Int} (hsmall : bitmap.Small) (hx : I32 x)
    (hy : I32 y) (hwidth : I32 width)
    (hheight : I32 height)
    (hstep : ∀ b : Bitmap, b.Sides bitmap.width bitmap.height → ∀ p q, b.InFrame p q →
      Spans x width p → Spans y height q →
      Writes Bitmap.color value (Bitmap.Sides bitmap.width bitmap.height)
        (fun r => keep p q ∧ r = (p, q)) (step b p q) b) :
    Writes Bitmap.color value (Bitmap.Sides bitmap.width bitmap.height)
      (fun r => bitmap.InFrame r.1 r.2 ∧ (Spans x width r.1 ∧ Spans y height r.2) ∧ keep r.1 r.2)
      (bitmap.eachVisible x y width height step) bitmap := by
  obtain ⟨cols, hcols, hcol⟩ := visibleRange_spec hx hwidth hsmall.1
  obtain ⟨rows, hrows, hrow⟩ := visibleRange_spec hy hheight hsmall.2
  have hsides : bitmap.Sides bitmap.width bitmap.height := ⟨rfl, rfl⟩
  rw [Bitmap.eachVisible, hcols, Option.bind_eq_bind, Option.bind_some]
  cases cols with
  | none =>
    refine Writes.nothing hsides fun r hr => ?_
    obtain ⟨range, hrange, -⟩ := (hcol r.1).mpr ⟨hr.1.1, hr.2.1.1⟩
    cases hrange
  | some xs =>
    obtain ⟨x0, x1⟩ := xs
    dsimp only
    rw [hrows, Option.bind_some]
    cases rows with
    | none =>
      refine Writes.nothing hsides fun r hr => ?_
      obtain ⟨range, hrange, -⟩ := (hrow r.2).mpr ⟨hr.1.2, hr.2.1.2⟩
      cases hrange
    | some ys =>
      obtain ⟨y0, y1⟩ := ys
      simp only [Option.mem_def, Option.some.injEq, exists_eq_left'] at hcol hrow
      have hloop : Writes Bitmap.color value (Bitmap.Sides bitmap.width bitmap.height)
          (fun r => ∃ q ∈ numbers y0 y1, ∃ p ∈ numbers x0 x1, keep p q ∧ r = (p, q))
          ((numbers y0 y1).foldlM (fun b q => (numbers x0 x1).foldlM
            (fun b p => step b p q) b) bitmap) bitmap := by
        refine Writes.foldlM (fun q hq b hb => ?_) bitmap hsides
        refine Writes.foldlM (fun p hp b hb => ?_) b hb
        obtain ⟨hpin, hpspan⟩ := (hcol p).mp hp
        obtain ⟨hqin, hqspan⟩ := (hrow q).mp hq
        refine hstep b hb p q ?_ hpspan hqspan
        rw [Bitmap.InFrame, hb.1, hb.2]
        exact ⟨hpin, hqin⟩
      refine hloop.congr fun r => ?_
      constructor
      · rintro ⟨q, hq, p, hp, hkeep, rfl⟩
        obtain ⟨hpin, hpspan⟩ := (hcol p).mp hp
        obtain ⟨hqin, hqspan⟩ := (hrow q).mp hq
        exact ⟨⟨hpin, hqin⟩, ⟨hpspan, hqspan⟩, hkeep⟩
      · rintro ⟨⟨hpin, hqin⟩, ⟨hpspan, hqspan⟩, hkeep⟩
        exact ⟨r.2, (hrow r.2).mpr ⟨hqin, hqspan⟩, r.1, (hcol r.1).mpr ⟨hpin, hpspan⟩, hkeep, rfl⟩

end loops

/-! ### Filling and copying -/

section drawing

variable {bitmap src : Bitmap} {dst srcRect : Rect}

theorem fillRect_writes (hsmall : bitmap.Small) (rect : Rect) (color : Color) :
    Writes Bitmap.color (fun _ => some color) (Bitmap.Sides bitmap.width bitmap.height)
      (fun p => bitmap.InFrame p.1 p.2 ∧ rect.Contains p.1 p.2 ∧ True)
        (bitmap.fillRect rect color) bitmap := by
  have hstep : ∀ b : Bitmap, b.Sides bitmap.width bitmap.height → ∀ p q, b.InFrame p q →
      Writes Bitmap.color (fun _ => some color) (Bitmap.Sides bitmap.width bitmap.height)
        (fun r => True ∧ r = (p, q))
        (b.setPixel p q color) b := fun b hb p q hin =>
    (setPixel_writes hb hin rfl).congr fun r => (and_iff_right trivial).symm
  exact @eachVisible_writes bitmap _ (fun _ _ => True) _ _ _ _ _ hsmall rect.x_fits rect.y_fits
    rect.width_fits rect.height_fits
    fun b hb p q hin _ _ => hstep b hb p q hin

/-- The pixel of the source that goes to a pixel. -/
def sourcePixel (dst srcRect : Rect) (p : Int × Int) : Int × Int :=
  (srcRect.x + (p.1 - dst.x), srcRect.y + (p.2 - dst.y))

/-- A place in the source is found, unless it is so far out that it is in no frame. -/
theorem sourceOf_spec {x y : Int} (hx : I32 (x - dst.x)) (hy : I32 (y - dst.y)) :
    sourceOf dst srcRect x y =
      if I32 (sourcePixel dst srcRect (x, y)).1 ∧ I32 (sourcePixel dst srcRect (x, y)).2 then
        some (sourcePixel dst srcRect (x, y))
      else none := by
  have hcol : sub32 x dst.x = some (x - dst.x) := if_pos hx
  have hrow : sub32 y dst.y = some (y - dst.y) := if_pos hy
  simp only [sourceOf, Option.bind_eq_bind]
  rw [hcol, Option.bind_some, hrow, Option.bind_some]
  unfold sourcePixel add32 i32
  dsimp only
  by_cases hsx : I32 (srcRect.x + (x - dst.x))
  · by_cases hsy : I32 (srcRect.y + (y - dst.y))
    · have hboth : I32 (srcRect.x + (x - dst.x)) ∧ I32 (srcRect.y + (y - dst.y)) := ⟨hsx, hsy⟩
      rw [if_pos hsx, if_pos hsy, if_pos hboth]
      rfl
    · have hnot : ¬(I32 (srcRect.x + (x - dst.x)) ∧ I32 (srcRect.y + (y - dst.y))) := fun h => hsy h.2
      rw [if_pos hsx, if_neg hsy, if_neg hnot]
      rfl
  · have hnot : ¬(I32 (srcRect.x + (x - dst.x)) ∧ I32 (srcRect.y + (y - dst.y))) := fun h => hsx h.1
    rw [if_neg hsx, if_neg hnot]
    rfl

theorem Spans.sub_fits {origin length other n : Int} (h : Spans origin (min length other) n)
    (hlength : I32 length) : I32 (n - origin) := by
  unfold Spans at h
  unfold I32 at hlength ⊢
  omega

theorem InFrame.fits {x y : Int} (hsmall : src.Small) (h : src.InFrame x y) : I32 x ∧ I32 y := by
  unfold Bitmap.InFrame at h
  unfold Bitmap.Small at hsmall
  unfold I32
  omega

/-- One pixel is copied, if the source has it. -/
theorem blitPixel_writes {width height : Nat} {x y : Int} (hsrc : src.Small)
    (hsides : bitmap.Sides width height) (hin : bitmap.InFrame x y)
    (hx : Spans dst.x (min dst.width srcRect.width) x)
      (hy : Spans dst.y (min dst.height srcRect.height) y) :
    Writes Bitmap.color (fun p => src.color (sourcePixel dst srcRect p)) (Bitmap.Sides width height)
      (fun p => src.InFrame (sourcePixel dst srcRect (x, y)).1 (sourcePixel dst srcRect (x, y)).2 ∧
        p = (x, y))
      (Bitmap.blitPixel dst src srcRect bitmap x y) bitmap := by
  have hsource := @sourceOf_spec dst srcRect x y (hx.sub_fits dst.width_fits) (hy.sub_fits dst.height_fits)
  rw [Bitmap.blitPixel, hsource]
  by_cases hfits : I32 (sourcePixel dst srcRect (x, y)).1 ∧ I32 (sourcePixel dst srcRect (x, y)).2
  swap
  · rw [if_neg hfits]
    exact Writes.nothing hsides fun p hp => hfits (InFrame.fits hsrc hp.1)
  rw [if_pos hfits]
  dsimp only
  rw [Bitmap.pixel_eq, Option.bind_eq_bind, Option.bind_some]
  by_cases hframe : src.InFrame (sourcePixel dst srcRect (x, y)).1 (sourcePixel dst srcRect (x, y)).2
  · obtain ⟨c, hc⟩ := Bitmap.color_isSome hframe
    rw [hc]
    exact (setPixel_writes hsides hin hc).congr fun p => (and_iff_right hframe).symm
  · have hnone : src.color (sourcePixel dst srcRect (x, y)) = none := if_neg hframe
    rw [hnone]
    exact Writes.nothing hsides fun p hp => hframe hp.1

theorem blitRect_writes (hsmall : bitmap.Small) (hsrc : src.Small) (dst srcRect : Rect) :
    Writes Bitmap.color (fun p => src.color (sourcePixel dst srcRect p))
      (Bitmap.Sides bitmap.width bitmap.height)
      (fun p => bitmap.InFrame p.1 p.2 ∧ Clipped dst srcRect p.1 p.2 ∧
        src.InFrame (sourcePixel dst srcRect p).1 (sourcePixel dst srcRect p).2)
          (bitmap.blitRect dst src srcRect) bitmap := by
  have hmin : ∀ {a b : Int}, I32 a → I32 b → I32 (min a b) := fun {a b} ha hb => by
    unfold I32 at ha hb ⊢
    omega
  exact eachVisible_writes hsmall dst.x_fits dst.y_fits (hmin dst.width_fits srcRect.width_fits)
    (hmin dst.height_fits srcRect.height_fits) fun b hb x y hin hx hy => blitPixel_writes hsrc hb hin hx hy

end drawing

/-- Drawing in a frame with small sides: no check fails, a filled pixel has the colour and a copied
one that of its source, and all others are what they were. -/
theorem draw_pixels {bitmap : Bitmap} (hsmall : bitmap.Small) :
    (∀ (rect : Rect) (color : Color), ∃ after, bitmap.fillRect rect color = some after ∧
      after.width = bitmap.width ∧ after.height = bitmap.height ∧
      ∀ x y, after.pixel x y = if bitmap.InFrame x y ∧ rect.Contains x y then some (some color)
        else bitmap.pixel x y) ∧
    ∀ src : Bitmap, src.Small → ∀ dst srcRect : Rect, ∃ after,
      bitmap.blitRect dst src srcRect = some after ∧
      after.width = bitmap.width ∧ after.height = bitmap.height ∧
      ∀ x y, after.pixel x y =
        if bitmap.InFrame x y ∧ Clipped dst srcRect x y ∧ src.InFrame (srcRect.x + (x - dst.x))
          (srcRect.y + (y - dst.y)) then
          src.pixel (srcRect.x + (x - dst.x)) (srcRect.y + (y - dst.y))
        else bitmap.pixel x y := by
  constructor
  · intro rect color
    obtain ⟨after, hafter, hsides, hin, hout⟩ := fillRect_writes hsmall rect color
    refine ⟨after, hafter, hsides.1, hsides.2, fun x y => ?_⟩
    rw [Bitmap.pixel_eq, Bitmap.pixel_eq]
    split
    · next h => rw [hin (x, y) ⟨h.1, h.2, trivial⟩]
    · next h => rw [hout (x, y) fun hp => h ⟨hp.1, hp.2.1⟩]
  · intro src hsrc dst srcRect
    obtain ⟨after, hafter, hsides, hin, hout⟩ := blitRect_writes hsmall hsrc dst srcRect
    refine ⟨after, hafter, hsides.1, hsides.2, fun x y => ?_⟩
    rw [Bitmap.pixel_eq, Bitmap.pixel_eq, Bitmap.pixel_eq]
    split
    · next h => exact congrArg some (hin (x, y) h)
    · next h => exact congrArg some (hout (x, y) h)

/-- Two pixels beside each other, and a rectangle of which the right one is filled. -/
def pair : Bitmap :=
  { bytes := [1, 2, 3, 4, 5, 6, 7, 8], width := 2, height := 1, width_pos := by decide, height_pos := by decide
    width_fits := by decide, height_fits := by decide, needed := by decide, size := by decide }

theorem draw_pixels_pair :
    (∀ (rect : Rect) (color : Color), ∃ after, pair.fillRect rect color = some after ∧
      after.width = pair.width ∧ after.height = pair.height ∧
      ∀ x y, after.pixel x y = if pair.InFrame x y ∧ rect.Contains x y then some (some color)
        else pair.pixel x y) ∧
    ∀ src : Bitmap, src.Small → ∀ dst srcRect : Rect, ∃ after, pair.blitRect dst src srcRect = some after ∧
      after.width = pair.width ∧ after.height = pair.height ∧
      ∀ x y, after.pixel x y =
        if pair.InFrame x y ∧ Clipped dst srcRect x y ∧ src.InFrame (srcRect.x + (x - dst.x))
          (srcRect.y + (y - dst.y)) then
          src.pixel (srcRect.x + (x - dst.x)) (srcRect.y + (y - dst.y))
        else pair.pixel x y :=
  draw_pixels ⟨by decide, by decide⟩

end Lerux.Ladybird
