import Lerux.Web.Layout

/-!
# The box model of a page

The geometry that a page has in exact numbers. A run of inline content is broken into lines whose
places are counted from its corner (`Flow`), the heights of blocks are those of their contents, and
from both come the places of all parts of the page (`pageParts`). Layout overflows just where a
number of a part does not fit 32 bits.
-/

namespace Lerux.Web

open Lerux.Html (Document NodeKind TagName parse)
open Lerux.Base

/-! ### Lines -/

/-- A square of inline content, blank if it is a space that a line does not begin with, or a line break. -/
inductive Piece
  | glyph (size : Int) (blank : Bool)
  | newline

/-- The next place in a run of inline content, the height of its line, and how far to the right a
piece has been tried. -/
structure Flow where
  x : Int
  y : Int
  lineH : Int
  reach : Int

namespace Flow

def start : Flow := ⟨0, 0, 0, 0⟩

def newline (f : Flow) : Flow := { f with x := 0, y := f.y + max f.lineH 1, lineH := 0 }

/-- The place for a square: on a line of its own if it does not fit behind others. -/
def wrap (width : Int) (f : Flow) (size : Int) : Flow :=
  let f' := { f with reach := max f.reach (f.x + size) }
  if width < f.x + size ∧ 0 < f.x then f'.newline else f'

def put (f : Flow) (size : Int) : Flow := { f with x := f.x + size, lineH := max f.lineH size }

def place (width : Int) (f : Flow) : Piece → Flow
  | .newline => f.newline
  | .glyph size blank => if blank = true ∧ f.x = 0 then f else (f.wrap width size).put size

/-- The lines and the last line. -/
def height (f : Flow) : Int := f.y + f.lineH

/-- Within the numbers of 32 bits, from a corner. -/
def Fits (left top : Int) (f : Flow) : Prop := left + f.reach ≤ 2147483647 ∧ top + f.y ≤ 2147483647

structure Grown (f : Flow) : Prop where
  x : 0 ≤ f.x
  y : 0 ≤ f.y
  lineH : 0 ≤ f.lineH
  reach : f.x ≤ f.reach

theorem grown_start : start.Grown := ⟨le_rfl, le_rfl, le_rfl, le_rfl⟩

theorem Grown.newline {f : Flow} (h : f.Grown) : f.newline.Grown where
  x := le_rfl
  y := by
    have := h.y
    show 0 ≤ f.y + max f.lineH 1
    omega
  lineH := le_rfl
  reach := h.x.trans h.reach

end Flow

section lines

variable {left top width size : Int} {cur : InlineCursor} {pen : Pen} {f : Flow} {color : Nat}
  {preserve : Bool}

/-- A cursor is at the place of a flow. -/
structure Follows (left top width : Int) (cur : InlineCursor) (f : Flow) : Prop where
  x : cur.x = left + f.x
  y : cur.y = top + f.y
  lineH : cur.lineH = f.lineH
  contentX : cur.contentX = left
  maxX : cur.maxX = left + width
  startY : cur.startY = top
  grown : f.Grown

/-- The corner of some content. -/
structure Corner (left top : Int) : Prop where
  left : I32 left
  top : I32 top

/-- The lower bound is out of reach. -/
theorem Corner.right_iff (h : Corner left top) {n : Int} (hn : 0 ≤ n) : I32 (left + n) ↔
    left + n ≤ 2147483647 := by
  have := h.left.1
  unfold I32
  omega

theorem Corner.bottom_iff (h : Corner left top) {n : Int} (hn : 0 ≤ n) : I32 (top + n) ↔
    top + n ≤ 2147483647 := by
  have := h.top.1
  unfold I32
  omega

theorem newLine_exact (hcorner : Corner left top) (h : Follows left top width cur f) :
    Exact (newLine cur) (top + f.newline.y ≤ 2147483647) (Follows left top width · f.newline) := by
  have hgrown := h.grown.newline
  have hy : cur.y + max cur.lineH 1 = top + f.newline.y := by
    rw [h.y, h.lineH, Int.add_assoc]
    rfl
  refine Exact.iff (Exact.bind (exact_add32 _ _) fun _ y hnext => Exact.pure ?_) ?_
  · exact ⟨h.contentX.trans (Int.add_zero _).symm, hnext.trans hy, rfl, h.contentX, h.maxX,
      h.startY, hgrown⟩
  · rw [hy, and_true]
    exact hcorner.bottom_iff hgrown.y

/-! ### Characters -/

/-- The pen of a text: if some characters are in no run yet, they are on its line. -/
structure Inks (left top width : Int) (pen : Pen) (f : Flow) : Prop where
  cur : Follows left top width pen.cur f
  buf : pen.buf ≠ [] → 0 < f.x

theorem flushRun_follows (h : Follows left top width pen.cur f) :
    Follows left top width (flushRun pen color size).cur f := by
  unfold flushRun
  split
  · exact h
  · exact ⟨h.x, h.y, h.lineH, h.contentX, h.maxX, h.startY, h.grown⟩

theorem flushRun_buf : (flushRun pen color size).buf = [] := by
  unfold flushRun
  split
  · assumption
  · rfl

namespace Flow

theorem wrap_reach (width size : Int) (f : Flow) : (f.wrap width size).reach =
    max f.reach (f.x + size) := by
  unfold wrap
  dsimp only
  split
  · rfl
  · rfl

theorem Grown.wrapped (h : f.Grown) (width size : Int) : (f.wrap width size).Grown := by
  have hreached : ({ f with reach := max f.reach (f.x + size) } : Flow).Grown :=
    ⟨h.x, h.y, h.lineH, h.reach.trans (le_max_left _ _)⟩
  unfold Flow.wrap
  dsimp only
  split
  · exact hreached.newline
  · exact hreached

/-- Where a square is put has been tried. -/
theorem Grown.wrap_x (h : f.Grown) (width size : Int) : (f.wrap width size).x + size ≤
    (f.wrap width size).reach := by
  rw [wrap_reach]
  unfold Flow.wrap
  dsimp only
  split
  · have := h.x
    show 0 + size ≤ _
    omega
  · exact le_max_right _ _

theorem Grown.put (h : f.Grown) (hsize : 1 ≤ size) (hreach : f.x + size ≤ f.reach) :
    (f.put size).Grown where
  x := Int.add_nonneg h.x (by omega)
  y := h.y
  lineH := h.lineH.trans (le_max_left _ _)
  reach := hreach

/-- What a square needs that fits so far. -/
theorem Grown.fits_put_iff (h : f.Grown) (hfits : f.Fits left top) :
    left + (f.x + size) ≤ 2147483647 ∧ top + (f.wrap width size).y ≤ 2147483647 ∧
    left + ((f.wrap width size).x + size) ≤ 2147483647 ↔ ((f.wrap width size).put size).Fits left top := by
  have hx := h.wrap_x width size
  have hreach := wrap_reach width size f
  have hold := hfits.1
  show _ ↔ left + (f.wrap width size).reach ≤ 2147483647 ∧ top + (f.wrap width size).y ≤ 2147483647
  omega

theorem le_wrap_y (width size : Int) (f : Flow) : f.y ≤ (f.wrap width size).y := by
  unfold wrap newline
  dsimp only
  split
  · dsimp only
    omega
  · exact le_rfl

/-- A flow goes on to the right and down. -/
theorem le_place (width : Int) (f : Flow) (p : Piece) : f.reach ≤ (f.place width p).reach ∧
    f.y ≤ (f.place width p).y := by
  cases p with
  | newline =>
    have hlater : (f.place width .newline).y = f.y + max f.lineH 1 := rfl
    exact ⟨le_rfl, by omega⟩
  | glyph size blank =>
    unfold place
    dsimp only
    split
    · exact ⟨le_rfl, le_rfl⟩
    · exact ⟨(le_max_left _ _).trans_eq (wrap_reach width size f).symm, le_wrap_y width size f⟩

theorem lineH_place (h : 0 ≤ f.lineH) (p : Piece) : 0 ≤ (f.place width p).lineH := by
  cases p with
  | newline => exact le_rfl
  | glyph size blank =>
    unfold place
    dsimp only
    split
    · exact h
    · refine le_trans ?_ (le_max_left _ _)
      unfold wrap newline
      dsimp only
      split
      · exact le_rfl
      · exact h

/-- What does not fit does not fit later. -/
theorem Fits.of_place {p : Piece} (hfits : (f.place width p).Fits left top) : f.Fits left top := by
  obtain ⟨hreach, hy⟩ := hfits
  have hle := le_place width f p
  exact ⟨by omega, by omega⟩

def run (width : Int) (f : Flow) (pieces : List Piece) : Flow := pieces.foldl (place width) f

theorem run_append (width : Int) (f : Flow) (pieces pieces' : List Piece) :
    f.run width (pieces ++ pieces') = (f.run width pieces).run width pieces' := List.foldl_append

theorem Fits.of_run {pieces : List Piece} (hfits : (f.run width pieces).Fits left top) :
    f.Fits left top := by
  induction pieces generalizing f with
  | nil => exact hfits
  | cons p pieces ih => exact (ih hfits).of_place

theorem run_start (width : Int) (pieces : List Piece) :
    0 ≤ (start.run width pieces).reach ∧ 0 ≤ (start.run width pieces).y ∧
      0 ≤ (start.run width pieces).lineH := by
  have hall : ∀ (pieces : List Piece) (f : Flow), 0 ≤ f.reach ∧ 0 ≤ f.y ∧ 0 ≤ f.lineH →
      0 ≤ (f.run width pieces).reach ∧ 0 ≤ (f.run width pieces).y ∧ 0 ≤ (f.run width pieces).lineH := by
    intro pieces
    induction pieces with
    | nil => exact fun _ h => h
    | cons p pieces ih =>
      rintro f ⟨hreach, hy, hline⟩
      obtain ⟨hreach', hy'⟩ := le_place width f p
      exact ih _ ⟨hreach.trans hreach', hy.trans hy', lineH_place hline p⟩
  exact hall pieces start ⟨le_rfl, le_rfl, le_rfl⟩

end Flow

/-- A place that is tried is not gone to. -/
theorem Follows.tried (h : Follows left top width cur f) (n : Int) :
    Follows left top width cur { f with reach := max f.reach n } :=
  ⟨h.x, h.y, h.lineH, h.contentX, h.maxX, h.startY, h.grown.x, h.grown.y, h.grown.lineH,
    h.grown.reach.trans (le_max_left _ _)⟩

/-- The source compares places, and the flow compares them from the left edge. -/
theorem Follows.wraps_iff (h : Follows left top width cur f) (size : Int) :
    cur.maxX < cur.x + size ∧ cur.contentX < cur.x ↔ width < f.x + size ∧ 0 < f.x := by
  rw [h.maxX, h.x, h.contentX]
  omega

theorem Follows.put (h : Follows left top width cur f) (hsize : 1 ≤ size) (hreach : f.x + size ≤ f.reach) :
    Follows left top width { cur with x := left + (f.x + size), lineH := max cur.lineH size }
      (f.put size) :=
  ⟨rfl, h.y, by rw [h.lineH]; rfl, h.contentX, h.maxX, h.startY, h.grown.put hsize hreach⟩

/-- The break before a square that is tried. -/
theorem breakLine_exact (hcorner : Corner left top) (h : Follows left top width cur f)
    (hfits : f.Fits left top) {right : Int}
    (hright : right = cur.x + size) :
    Exact (breakLine cur right) (top + (f.wrap width size).y ≤ 2147483647)
      (Follows left top width · (f.wrap width size)) := by
  have htried := h.tried (f.x + size)
  have hwraps := h.wraps_iff size
  unfold breakLine Flow.wrap
  rw [hright]
  dsimp only
  by_cases hwrap : width < f.x + size ∧ 0 < f.x
  · rw [if_pos (hwraps.mpr hwrap), if_pos hwrap]
    exact newLine_exact hcorner htried
  · rw [if_neg (mt hwraps.mp hwrap), if_neg hwrap]
    exact ⟨fun _ => ⟨cur, rfl, htried⟩, fun hn => absurd hfits.2 hn⟩

theorem wrapChar_exact (hcorner : Corner left top) (h : Inks left top width pen f)
    (hfits : f.Fits left top) {right : Int}
    (hright : right = pen.cur.x + size) :
    Exact (wrapChar color size pen right) (top + (f.wrap width size).y ≤ 2147483647)
      (Inks left top width · (f.wrap width size)) := by
  have htried := h.cur.tried (f.x + size)
  have hwraps := h.cur.wraps_iff size
  unfold wrapChar Flow.wrap
  rw [hright]
  dsimp only
  by_cases hwrap : width < f.x + size ∧ 0 < f.x
  · rw [if_pos (hwraps.mpr hwrap), if_pos hwrap]
    refine Exact.iff (Exact.bind (newLine_exact hcorner (flushRun_follows htried)) fun _ cur hcur =>
      Exact.pure ?_) (and_true _ ▸ Iff.rfl)
    exact ⟨hcur, fun hbuf => absurd flushRun_buf hbuf⟩
  · rw [if_neg (mt hwraps.mp hwrap), if_neg hwrap]
    exact ⟨fun _ => ⟨pen, rfl, htried, h.buf⟩, fun hn => absurd hfits.2 hn⟩

theorem putChar_exact (hcorner : Corner left top) (hsize : 1 ≤ size) (h : Inks left top width pen f)
    (hreach : f.x + size ≤ f.reach)
    (ch : Char) : Exact (putChar size pen ch) (left + (f.x + size) ≤ 2147483647)
      (Inks left top width · (f.put size)) := by
  have hx := h.cur.grown.x
  obtain ⟨pen', hpen, hcur⟩ : ∃ pen', (if pen.buf = [] then
    { pen with runX := pen.cur.x, runY := pen.cur.y } else pen) = pen' ∧
      pen'.cur = pen.cur := by
    refine ⟨_, rfl, ?_⟩
    split
    · rfl
    · rfl
  unfold putChar
  dsimp only
  rw [hpen]
  have hright : pen'.cur.x + size = left + (f.x + size) := by rw [hcur, h.cur.x, Int.add_assoc]
  refine Exact.iff (Exact.bind (exact_add32 _ _) fun _ x hnext => Exact.pure ?_) ?_
  · rw [hnext, hright, hcur]
    exact ⟨h.cur.put hsize hreach, fun _ => Int.add_pos_of_nonneg_of_pos hx (by omega)⟩
  · rw [hright, and_true]
    exact hcorner.right_iff (by omega)

/-- A character goes to its place. -/
theorem pushChar_exact (hcorner : Corner left top) (hsize : 1 ≤ size)
    (h : Inks left top width pen f) (hfits : f.Fits left top) (ch : Char) :
    Exact (pushChar color size preserve pen ch)
      ((f.place width (.glyph size (ch = ' ' ∧ preserve = false))).Fits left top)
      (Inks left top width · (f.place width (.glyph size (ch = ' ' ∧ preserve = false)))) := by
  have hskip : (ch = ' ' ∧ preserve = false ∧ pen.cur.x = pen.cur.contentX ∧ pen.buf = []) ↔
      decide (ch = ' ' ∧ preserve = false) = true ∧ f.x = 0 := by
    have hbuf : f.x = 0 → pen.buf = [] := fun hzero => by
      by_contra hne
      exact absurd (h.buf hne) (by omega)
    have hstart : pen.cur.x = pen.cur.contentX ↔ f.x = 0 := by
      rw [h.cur.x, h.cur.contentX]
      omega
    rw [decide_eq_true_eq, hstart]
    tauto
  unfold pushChar Flow.place
  dsimp only
  by_cases hblank : decide (ch = ' ' ∧ preserve = false) = true ∧ f.x = 0
  · rw [if_pos (hskip.mpr hblank), if_pos hblank]
    exact ⟨fun _ => ⟨pen, rfl, h⟩, fun hn => absurd hfits hn⟩
  · rw [if_neg (mt hskip.mp hblank), if_neg hblank]
    have hgrown := h.cur.grown
    have hx := hgrown.x
    refine Exact.iff (Exact.bind (exact_add32 _ _) fun _ right hright => Exact.bind
      (wrapChar_exact hcorner h hfits hright) fun _ pen' hpen =>
      putChar_exact hcorner hsize hpen (hgrown.wrap_x width size) ch) ?_
    rw [← hgrown.fits_put_iff hfits, h.cur.x, Int.add_assoc, hcorner.right_iff (by omega)]

/-! ### Texts and elements -/

def charPieces (size : Int) (preserve : Bool) (text : List Char) : List Piece :=
  text.map fun ch => .glyph size (ch = ' ' ∧ preserve = false)

def linePieces (size : Int) (line : List Char) : List Piece := .newline :: charPieces size true line

/-- The pieces of a text. -/
def textPieces (text : List Char) (size : Int) (preserve : Bool) : List Piece :=
  if preserve then
    match text.splitOn '\n' with
    | [] => []
    | line :: lines => charPieces size true line ++ lines.flatMap (linePieces size)
  else charPieces size false (collapseWs text)

/-- A cursor goes through some pieces, if that fits. -/
def Goes (left top width : Int) (next : Option InlineCursor) (f : Flow) (pieces : List Piece) : Prop :=
  Exact next ((f.run width pieces).Fits left top) (Follows left top width · (f.run width pieces))

theorem Goes.append {next : Option InlineCursor} {rest : InlineCursor → Option InlineCursor}
    {pieces pieces' : List Piece}
    (h : Goes left top width next f pieces) (hrest : (f.run width pieces).Fits left top →
      ∀ cur, Follows left top width cur (f.run width pieces) → Goes left top width (rest cur)
        (f.run width pieces) pieces') :
    Goes left top width (next >>= rest) f (pieces ++ pieces') := by
  unfold Goes
  rw [Flow.run_append]
  refine Exact.iff (Exact.bind h hrest) ?_
  exact ⟨And.right, fun hfits => ⟨hfits.of_run, hfits⟩⟩

theorem Goes.nil (h : Follows left top width cur f) (hfits : f.Fits left top) :
    Goes left top width (some cur) f [] :=
  ⟨fun _ => ⟨cur, rfl, h⟩, fun hn => absurd hfits hn⟩

theorem pushChars_goes (hcorner : Corner left top) (hsize : 1 ≤ size)
    (h : Follows left top width cur f) (hfits : f.Fits left top)
    (text : List Char) : Goes left top width (pushChars cur text color size preserve) f
      (charPieces size preserve text) := by
  have hpen : Inks left top width ⟨cur, [], cur.x, cur.y⟩ f := ⟨h, fun hne => absurd rfl hne⟩
  unfold Goes Flow.run charPieces pushChars
  rw [List.foldl_map]
  have hloop : Exact (text.foldlM (pushChar color size preserve) ⟨cur, [], cur.x, cur.y⟩) _
    (Inks left top width · _) :=
    Exact.foldlM (fun f ch => Flow.Fits.of_place)
      (fun pen f ch hpen hfits => pushChar_exact hcorner hsize hpen hfits ch) text _ f hpen hfits
  exact Exact.iff (Exact.bind hloop fun _ pen hpen => Exact.pure (flushRun_follows hpen.cur))
    (and_true _ ▸ Iff.rfl)

theorem pushLine_goes (hcorner : Corner left top) (hsize : 1 ≤ size)
    (h : Follows left top width cur f) (hfits : f.Fits left top)
    (line : List Char) : Goes left top width (pushLine color size cur line) f (linePieces size line) := by
  have hline : Goes left top width (newLine cur) f [.newline] := by
    refine Exact.iff (newLine_exact hcorner h) ?_
    exact ⟨fun hy => ⟨hfits.1, hy⟩, And.right⟩
  exact hline.append fun hfits cur hcur => pushChars_goes hcorner hsize hcur hfits line

theorem pushText_goes (hcorner : Corner left top) (hsize : 1 ≤ size)
    (h : Follows left top width cur f) (hfits : f.Fits left top)
    (text : List Char) : Goes left top width (pushText cur text color size preserve) f
      (textPieces text size preserve) := by
  unfold pushText textPieces
  cases preserve with
  | false => exact pushChars_goes hcorner hsize h hfits (collapseWs text)
  | true =>
    rw [if_pos rfl, if_pos rfl]
    cases text.splitOn '\n' with
    | nil => exact Goes.nil h hfits
    | cons line lines =>
      refine (pushChars_goes hcorner hsize h hfits line).append fun hfits cur hcur => ?_
      have hlines : (f.run width (charPieces size true line)).run width (lines.flatMap (linePieces size)) =
          lines.foldl (fun f line => f.run width (linePieces size line))
            (f.run width (charPieces size true line)) := List.foldl_flatMap
      have hstep : ∀ cur f line, Follows left top width cur f → f.Fits left top →
        Exact (pushLine color size cur line)
          ((f.run width (linePieces size line)).Fits left top)
            (Follows left top width · (f.run width (linePieces size line))) :=
        fun cur f line hcur hfits => pushLine_goes hcorner hsize hcur hfits line
      unfold Goes
      rw [hlines]
      exact Exact.foldlM (fun f line => Flow.Fits.of_run) hstep lines cur _ hcur hfits

/-- The line is as high as the square that is going to be put in it. -/
theorem wrapIfNeeded_exact (hcorner : Corner left top) (hsize : 1 ≤ size)
    (h : Follows left top width cur f) (hfits : f.Fits left top) :
    Exact (wrapIfNeeded cur size size) (left + (f.x + size) ≤ 2147483647 ∧
      top + (f.wrap width size).y ≤ 2147483647) fun next =>
      ∃ cur', Follows left top width cur' (f.wrap width size) ∧
        next = { cur' with lineH := max cur'.lineH size } := by
  have hx := h.grown.x
  refine Exact.iff (Exact.bind (exact_add32 _ _) fun _ right hright => Exact.bind
    (breakLine_exact hcorner h hfits hright) fun _ cur' hcur =>
    Exact.pure ⟨cur', hcur, rfl⟩) ?_
  rw [h.x, Int.add_assoc, hcorner.right_iff (by omega), and_true]

theorem pushReplaced_goes (hcorner : Corner left top) (hsize : 1 ≤ size)
    (h : Follows left top width cur f) (hfits : f.Fits left top) :
    Goes left top width (pushReplaced cur size size color) f [.glyph size false] := by
  have hgrown := h.grown.wrapped width size
  have hx := hgrown.x
  have hplace : f.run width [.glyph size false] = (f.wrap width size).put size := rfl
  unfold Goes pushReplaced
  rw [hplace]
  refine Exact.iff (Exact.bind (wrapIfNeeded_exact hcorner hsize h hfits) ?_)
    (and_assoc.trans (h.grown.fits_put_iff hfits))
  rintro _ _ ⟨cur', hcur, rfl⟩
  have hright : cur'.x + size = left + ((f.wrap width size).x + size) := by rw [hcur.x, Int.add_assoc]
  refine Exact.iff (Exact.bind (exact_add32 _ _) fun _ x hnext => Exact.pure ?_) ?_
  · obtain ⟨hputx, hputy, hline, hcontent, hmax, hstart, hputgrown⟩ :=
      hcur.put hsize (h.grown.wrap_x width size)
    exact ⟨hnext.trans hright, hputy,
      by rw [← hline, max_assoc, max_self], hcontent, hmax, hstart, hputgrown⟩
  · rw [hright, and_true]
    exact hcorner.right_iff (by omega)

end lines

/-! ### Font sizes -/

theorem applyDecls_fontSize {parentFont : Int} {style : ComputedStyle} (h : 1 ≤ style.fontSize)
    (decls : List Decl) :
    1 ≤ (applyDecls parentFont style decls).fontSize := by
  have hsize : ∀ (decls : List Decl) (style : ComputedStyle), 1 ≤ style.fontSize →
    1 ≤ (decls.foldl (applyFontSize parentFont) style).fontSize := by
    intro decls
    induction decls with
    | nil => exact fun _ h => h
    | cons decl decls ih =>
      intro style h
      refine ih _ ?_
      unfold applyFontSize
      split
      · exact le_max_right _ _
      · exact h
  unfold applyDecls
  dsimp only
  rw [foldl_applyDecl]
  exact hsize decls style h

theorem applyMatching_fontSize (tag : TagName) (parentFont : Int) {style : ComputedStyle}
    (h : 1 ≤ style.fontSize) (sheet : List Rule) :
    1 ≤ (applyMatching tag parentFont style sheet).fontSize := by
  unfold applyMatching
  induction sheet generalizing style with
  | nil => exact h
  | cons rule sheet ih =>
    refine ih ?_
    show 1 ≤ (if rule.selects tag then applyDecls parentFont style rule.decls else style).fontSize
    split
    · exact applyDecls_fontSize h rule.decls
    · exact h

/-- No font is smaller than a pixel. -/
theorem compute_fontSize (cascade : Cascade) (doc : Document) (id : Nat) {parent : ComputedStyle}
    (h : 1 ≤ parent.fontSize) :
    1 ≤ (cascade.compute doc id parent).fontSize := by
  unfold Cascade.compute
  cases doc.tag id with
  | none => exact h
  | some tag =>
    have hinherited : 1 ≤ parent.inherited.fontSize := h
    have hrules := applyMatching_fontSize tag parent.fontSize
      (applyMatching_fontSize tag parent.fontSize hinherited cascade.ua) cascade.author
    dsimp only
    split
    · exact applyDecls_fontSize hrules _
    · exact hrules

section page

variable (doc : Document) (cascade : Cascade)

mutual

/-- The pieces of an inline node. -/
def inlinePieces : Tree → ComputedStyle → List Piece
  | .node id children, parent =>
    match doc.nodes[id]?.map Html.Node.kind with
    | some (.text text) => textPieces text parent.fontSize (preserves doc id)
    | some (.element name _) =>
      let style := cascade.compute doc id parent
      if style.display = .none then []
      else if name = .img then [.glyph imgPlaceholder false]
      else runPieces children style
    | _ => []

def runPieces : List Tree → ComputedStyle → List Piece
  | [], _ => []
  | t :: ts, parent => inlinePieces t parent ++ runPieces ts parent

end

/-- The lines of a run of inline content. -/
def runFlow (style : ComputedStyle) (run : List Tree) (width : Int) : Flow :=
  Flow.start.run width (runPieces doc cascade run style)

variable {doc cascade} {left top width : Int}

mutual

theorem emitInline_goes (hcorner : Corner left top) :
    (t : Tree) → ∀ (parent : ComputedStyle) (cur : InlineCursor) (f : Flow),
    1 ≤ parent.fontSize → Follows left top width cur f → f.Fits left top →
      Goes left top width (emitInline doc cascade t parent cur) f (inlinePieces doc cascade t parent)
  | .node id children, parent, cur, f, hsize, h, hfits => by
    have himg : 1 ≤ imgPlaceholder := by decide
    have hstyle := compute_fontSize cascade doc id hsize
    rw [emitInline, inlinePieces]
    dsimp only
    generalize cascade.compute doc id parent = style at hstyle
    generalize doc.nodes[id]?.map Html.Node.kind = kind
    match kind with
    | none => exact Goes.nil h hfits
    | some .document => exact Goes.nil h hfits
    | some (.text text) => exact pushText_goes hcorner hsize h hfits text
    | some (.element name attrs) =>
      dsimp only
      by_cases hnone : style.display = .none
      · rw [if_pos hnone, if_pos hnone]
        exact Goes.nil h hfits
      · rw [if_neg hnone, if_neg hnone]
        by_cases hname : name = .img
        · rw [if_pos hname, if_pos hname]
          exact pushReplaced_goes hcorner himg h hfits
        · rw [if_neg hname, if_neg hname]
          exact emitInlines_goes hcorner children style cur f hstyle h hfits

theorem emitInlines_goes (hcorner : Corner left top) : (ts : List Tree) →
    ∀ (parent : ComputedStyle) (cur : InlineCursor) (f : Flow),
    1 ≤ parent.fontSize → Follows left top width cur f → f.Fits left top →
      Goes left top width (emitInlines doc cascade ts parent cur) f (runPieces doc cascade ts parent)
  | [], parent, cur, f, _, h, hfits => by
    rw [emitInlines, runPieces]
    exact Goes.nil h hfits
  | t :: ts, parent, cur, f, hsize, h, hfits => by
    rw [emitInlines, runPieces]
    exact (emitInline_goes hcorner t parent cur f hsize h hfits).append fun hfits cur hcur =>
      emitInlines_goes hcorner ts parent cur _ hsize hcur hfits

end

theorem follows_start (width : Int) (hcorner : Corner left top) :
    Follows left top width ⟨left, top, 0, left, left + width, top, [], []⟩ Flow.start ∧
      Flow.start.Fits left top := by
  refine ⟨⟨(Int.add_zero _).symm, (Int.add_zero _).symm, rfl, rfl, rfl, rfl, Flow.grown_start⟩, ?_⟩
  have hleft := hcorner.left.2
  have htop := hcorner.top.2
  exact ⟨by rwa [Flow.start, Int.add_zero], by rwa [Flow.start, Int.add_zero]⟩

/-- A run is as high as its lines. Its right edge, the places that are tried and its height fit. -/
theorem layoutInlineRun_exact (hcorner : Corner left top) {parent : ComputedStyle}
    (hsize : 1 ≤ parent.fontSize) (run : List Tree) :
    Exact (layoutInlineRun doc cascade run parent left top width)
      (I32 (left + width) ∧ (runFlow doc cascade parent run width).Fits left top ∧
        I32 (runFlow doc cascade parent run width).height)
      fun r => r.2.2 = (runFlow doc cascade parent run width).height := by
  obtain ⟨hfollows, hfits⟩ := follows_start width hcorner
  unfold layoutInlineRun
  refine Exact.iff (Exact.bind (exact_add32 _ _) ?_) Iff.rfl
  rintro _ _ rfl
  refine Exact.bind (emitInlines_goes hcorner run parent _ _ hsize hfollows hfits) fun _ cur hcur => ?_
  have hy := hcur.grown.y
  have hline := hcur.grown.lineH
  have hheight : cur.y - cur.startY + max cur.lineH 0 = (runFlow doc cascade parent run width).height := by
    rw [hcur.y, hcur.startY, hcur.lineH, add_sub_cancel_left, max_eq_left hline]
    rfl
  refine Exact.iff (Exact.bind (exact_sub32 _ _) ?_) (and_iff_right_of_imp ?_)
  · rintro _ _ rfl
    refine Exact.iff (Exact.bind (exact_add32 _ _) fun _ h hnext => Exact.pure ?_) ?_
    · rw [hnext, hheight]
      exact max_eq_left (Int.add_nonneg hy hline)
    · rw [hheight, and_true]
  · intro hheight
    obtain ⟨hlow, hhigh⟩ := hheight
    have hlines : cur.y - cur.startY = (runFlow doc cascade parent run width).y := by
      rw [hcur.y, hcur.startY, add_sub_cancel_left]
      rfl
    have hsum : (runFlow doc cascade parent run width).height =
        (runFlow doc cascade parent run width).y + (runFlow doc cascade parent run width).lineH := rfl
    have hy : 0 ≤ (runFlow doc cascade parent run width).y := hcur.grown.y
    have hline : 0 ≤ (runFlow doc cascade parent run width).lineH := hcur.grown.lineH
    unfold I32
    omega

end page

/-! ### Blocks -/

/-- The width of the content of a block. -/
def contentWidth (style : ComputedStyle) (avail : Int) : Int :=
  style.width.getD
    (max (avail - style.margin.left - style.margin.right - style.padding.left - style.padding.right) 0)

/-- A part of the page at its place: the edges of a block, its height around its content, the lines
of a run, or the bottom of a child. -/
inductive Part
  | edges (style : ComputedStyle) (x y avail : Int)
  | around (style : ComputedStyle) (content : Int)
  | lines (left top width : Int) (flow : Flow)
  | bottom (top height margin : Int)

namespace Part

/-- What the margins and the padding leave in turn, if the width is automatic. -/
def autoNumbers (style : ComputedStyle) (avail : Int) : List Int :=
  if style.width = none then
    [avail - style.margin.left, avail - style.margin.left - style.margin.right,
      avail - style.margin.left - style.margin.right - style.padding.left,
      avail - style.margin.left - style.margin.right - style.padding.left - style.padding.right]
  else []

/-- The numbers of a part. -/
def numbers : Part → List Int
  | edges style x y avail => [x + style.margin.left, y + style.margin.top] ++ autoNumbers style avail ++
    [contentWidth style avail + style.padding.left, contentWidth style avail + style.padding.left +
      style.padding.right,
      x + style.margin.left + style.padding.left, style.padding.top + style.padding.bottom,
        y + style.margin.top + style.padding.top]
  | around style content => [style.padding.top + content, style.padding.top + content +
    style.padding.bottom]
  | lines left top width flow => [left + width, left + flow.reach, flow.height, top + flow.height]
  | bottom top height margin => [top + height, top + height + margin]

def Fits (p : Part) : Prop := ∀ n ∈ p.numbers, I32 n

instance instDecidableFits (p : Part) : Decidable p.Fits :=
  inferInstanceAs (Decidable (∀ n ∈ p.numbers, I32 n))

end Part

section page

variable (doc : Document) (cascade : Cascade)

/-- The margin above a node, which has none if it is not a block. -/
def marginTop (parent : ComputedStyle) (t : Tree) : Int :=
  if (cascade.compute doc t.id parent).display = .block then
    (cascade.compute doc t.id parent).margin.top else 0

def marginBottom (parent : ComputedStyle) (t : Tree) : Int :=
  (cascade.compute doc t.id parent).margin.bottom

mutual

/-- The height of a node with its padding. -/
def blockHeight : Tree → ComputedStyle → Int → Int
  | .node id children, parent, avail =>
    let style := cascade.compute doc id parent
    if style.display = .block then
      max (style.padding.top + contentHeight children style [] (contentWidth style avail) +
        style.padding.bottom)
        (style.padding.top + style.padding.bottom)
    else 0

/-- The height of blocks and runs below each other, behind a run that has begun. -/
def contentHeight : List Tree → ComputedStyle → List Tree → Int → Int
  | [], style, run, width => (runFlow doc cascade style run width).height
  | t :: ts, style, run, width =>
    if isBlockChild doc cascade style t then
      (runFlow doc cascade style run width).height +
        (marginTop doc cascade style t + blockHeight t style width + marginBottom doc cascade style t) +
        contentHeight ts style [] width
    else contentHeight ts style (run ++ [t]) width

end

def runParts (style : ComputedStyle) (run : List Tree) (left top width : Int) : List Part :=
  if run = [] then [] else [.lines left top width (runFlow doc cascade style run width)]

/-- The bottom of a child. -/
def bottomPart (style : ComputedStyle) (t : Tree) (top width : Int) : Part :=
  .bottom (top + marginTop doc cascade style t) (blockHeight doc cascade t style width)
    (marginBottom doc cascade style t)

mutual

/-- The parts of a block. -/
def blockParts : Tree → ComputedStyle → Int → Int → Int → List Part
  | .node id children, parent, x, y, avail =>
    let style := cascade.compute doc id parent
    if style.display = .block then
      .edges style x y avail :: (contentParts children style [] (x + style.margin.left + style.padding.left)
        (y + style.margin.top + style.padding.top) (contentWidth style avail) ++
          [.around style (contentHeight doc cascade children style [] (contentWidth style avail))])
    else []

def contentParts : List Tree → ComputedStyle → List Tree → Int → Int → Int → List Part
  | [], style, run, left, top, width => runParts doc cascade style run left top width
  | t :: ts, style, run, left, top, width =>
    if isBlockChild doc cascade style t then
      let below := top + (runFlow doc cascade style run width).height
      runParts doc cascade style run left top width ++
        (blockParts t style left below width ++ (bottomPart doc cascade style t below width ::
        contentParts ts style [] left (below + marginTop doc cascade style t +
          blockHeight doc cascade t style width +
          marginBottom doc cascade style t) width))
    else contentParts ts style (run ++ [t]) left top width

end

variable {doc cascade} {left top width : Int}

theorem forall_fits_append {parts parts' : List Part} : (∀ p ∈ parts ++ parts', p.Fits) ↔
    (∀ p ∈ parts, p.Fits) ∧ ∀ p ∈ parts', p.Fits :=
  List.forall_mem_append

theorem autoWidth_exact (style : ComputedStyle) (avail : Int) :
    Exact (widthOr style avail) (∀ n ∈ Part.autoNumbers style avail, I32 n)
      (· = contentWidth style avail) := by
  unfold widthOr Part.autoNumbers contentWidth
  cases style.width with
  | some w =>
    rw [if_neg (by simp)]
    exact Exact.iff (Exact.pure rfl) (iff_of_true trivial fun _ hn => nomatch hn)
  | none =>
    rw [if_pos rfl]
    unfold autoWidth
    refine Exact.iff (Exact.bind (exact_sub32 _ _) ?_) (by rw [List.forall_mem_cons])
    rintro _ _ rfl
    refine Exact.iff (Exact.bind (exact_sub32 _ _) ?_) (by rw [List.forall_mem_cons])
    rintro _ _ rfl
    refine Exact.iff (Exact.bind (exact_sub32 _ _) ?_) (by rw [List.forall_mem_cons])
    rintro _ _ rfl
    refine Exact.iff (Exact.bind (exact_sub32 _ _) ?_) (by rw [List.forall_mem_singleton, and_true])
    rintro _ _ rfl
    exact Exact.pure rfl

/-- The place of the content of a block. -/
def contentPlace (style : ComputedStyle) (x y avail : Int) : ContentPlace :=
  ⟨x + style.margin.left + style.padding.left, y + style.margin.top + style.padding.top,
    contentWidth style avail⟩

theorem openBlock_exact (style : ComputedStyle) (x y avail : Int) :
    Exact (openBlock style x y avail) (Part.edges style x y avail).Fits
    fun r => r.1.y = y + style.margin.top ∧ r.2 = contentPlace style x y avail := by
  have hfits : (Part.edges style x y avail).Fits ↔ I32 (x + style.margin.left) ∧
    I32 (y + style.margin.top) ∧
      (∀ n ∈ Part.autoNumbers style avail, I32 n) ∧ I32 (contentWidth style avail + style.padding.left) ∧
      I32 (contentWidth style avail + style.padding.left + style.padding.right) ∧
        I32 (x + style.margin.left + style.padding.left) ∧
      I32 (style.padding.top + style.padding.bottom) ∧ I32 (y + style.margin.top + style.padding.top) := by
    unfold Part.Fits Part.numbers
    simp only [List.forall_mem_append, List.forall_mem_cons, List.not_mem_nil, false_implies,
      implies_true, and_true, and_assoc]
  rw [hfits]
  unfold openBlock
  refine Exact.bind (exact_add32 _ _) ?_
  rintro _ _ rfl
  refine Exact.bind (exact_add32 _ _) ?_
  rintro _ _ rfl
  refine Exact.bind (autoWidth_exact style avail) ?_
  rintro _ _ rfl
  refine Exact.bind (exact_add32 _ _) ?_
  rintro _ _ rfl
  refine Exact.bind (exact_add32 _ _) ?_
  rintro _ _ rfl
  refine Exact.bind (exact_add32 _ _) ?_
  rintro _ _ rfl
  refine Exact.bind (exact_add32 _ _) ?_
  rintro _ _ rfl
  refine Exact.last (exact_add32 _ _) ?_
  rintro _ _ rfl
  exact ⟨rfl, rfl⟩

/-- The corner of the content is among the edges. -/
theorem Part.Fits.corner {style : ComputedStyle} {x y avail : Int} (h : (Part.edges style x y avail).Fits) :
    Corner (contentPlace style x y avail).x (contentPlace style x y avail).y := by
  unfold Part.Fits Part.numbers at h
  simp only [List.forall_mem_append, List.forall_mem_cons] at h
  obtain ⟨_, _, _, hx, _, hy, _⟩ := h
  exact ⟨hx, hy⟩

theorem Part.Fits.padding {style : ComputedStyle} {x y avail : Int}
    (h : (Part.edges style x y avail).Fits) :
    I32 (style.padding.top + style.padding.bottom) := by
  unfold Part.Fits Part.numbers at h
  simp only [List.forall_mem_append, List.forall_mem_cons] at h
  exact h.2.2.2.2.1

theorem closeBlock_exact (style : ComputedStyle) {borderY content : Int} {place : ContentPlace}
    (box : LayoutBox)
    (hplace : place.y = borderY + style.padding.top + content)
      (hpadding : I32 (style.padding.top + style.padding.bottom)) :
    Exact (closeBlock style borderY place box) (Part.around style content).Fits fun r => r.y = box.y ∧
      r.height = max (style.padding.top + content + style.padding.bottom)
        (style.padding.top + style.padding.bottom) := by
  have hfits : (Part.around style content).Fits ↔ I32 (style.padding.top + content) ∧
    I32 (style.padding.top + content + style.padding.bottom) := by
    unfold Part.Fits Part.numbers
    simp only [List.forall_mem_cons, List.not_mem_nil, false_implies, implies_true, and_true]
  have hinner : place.y - borderY = style.padding.top + content := by
    rw [hplace]
    omega
  rw [hfits]
  unfold closeBlock
  rw [← hinner]
  refine Exact.bind (exact_sub32 _ _) ?_
  rintro _ _ rfl
  refine Exact.iff (Exact.bind (exact_add32 _ _) ?_) (and_iff_left hpadding)
  rintro _ _ rfl
  refine Exact.last (exact_add32 _ _) ?_
  rintro _ _ rfl
  refine ⟨rfl, ?_⟩
  dsimp only
  split
  · exact (max_eq_right (by omega)).symm
  · exact (max_eq_left (by omega)).symm

theorem lines_fits_iff (hcorner : Corner left top) {style : ComputedStyle} (run : List Tree) :
    (I32 (left + width) ∧ (runFlow doc cascade style run width).Fits left top ∧
      I32 (runFlow doc cascade style run width).height) ∧
      I32 (top + (runFlow doc cascade style run width).height) ↔
    ∀ p ∈ [Part.lines left top width (runFlow doc cascade style run width)], p.Fits := by
  obtain ⟨hreach, hy, hline⟩ := Flow.run_start width (runPieces doc cascade run style)
  rw [List.forall_mem_singleton]
  unfold Part.Fits Part.numbers
  simp only [List.forall_mem_cons, List.not_mem_nil, false_implies, implies_true, and_true]
  unfold runFlow
  have hheight : (Flow.start.run width (runPieces doc cascade run style)).height =
      (Flow.start.run width (runPieces doc cascade run style)).y +
        (Flow.start.run width (runPieces doc cascade run style)).lineH := rfl
  generalize Flow.start.run width (runPieces doc cascade run style) = flow at *
  rw [hcorner.right_iff hreach, hcorner.bottom_iff (by omega)]
  unfold Flow.Fits
  constructor
  · rintro ⟨⟨hright, ⟨htried, _⟩, hsize⟩, hbottom⟩
    exact ⟨hright, htried, hsize, hbottom⟩
  · rintro ⟨hright, htried, hsize, hbottom⟩
    exact ⟨⟨hright, ⟨htried, by omega⟩, hsize⟩, hbottom⟩

theorem closeRun_exact {style : ComputedStyle} (hsize : 1 ≤ style.fontSize) (run : List Tree)
    {place : ContentPlace} (box : LayoutBox)
    (hcorner : Corner place.x place.y) : Exact (closeRun doc cascade style run place box)
      (∀ p ∈ runParts doc cascade style run place.x place.y place.w, p.Fits)
      fun r => r.1 = { place with y := place.y + (runFlow doc cascade style run place.w).height } ∧
        r.2.y = box.y := by
  unfold closeRun runParts
  by_cases hrun : run = []
  · have hempty : (runFlow doc cascade style [] place.w).height = 0 := by
      rw [runFlow, runPieces]
      rfl
    rw [if_pos hrun, if_pos hrun, hrun, hempty, Int.add_zero]
    exact ⟨fun _ => ⟨_, rfl, rfl, rfl⟩, fun hn => absurd (fun _ hp => nomatch hp) hn⟩
  · rw [if_neg hrun, if_neg hrun]
    refine Exact.iff (Exact.bind (layoutInlineRun_exact hcorner hsize run) ?_) (lines_fits_iff hcorner run)
    rintro _ ⟨runs, replaced, h⟩ hheight
    obtain rfl : h = _ := hheight
    refine Exact.last (exact_add32 _ _) ?_
    rintro _ _ rfl
    exact ⟨rfl, rfl⟩

theorem childBottom_exact (style : ComputedStyle) (t : Tree) {child : LayoutBox}
    (hy : child.y = top + marginTop doc cascade style t)
    (hheight : child.height = blockHeight doc cascade t style width) :
    Exact (childBottom doc cascade style t child) (bottomPart doc cascade style t top width).Fits
      (· = top + marginTop doc cascade style t + blockHeight doc cascade t style width +
        marginBottom doc cascade style t) := by
  unfold childBottom bottomPart Part.Fits Part.numbers
  rw [hy, hheight]
  refine Exact.iff (Exact.bind (exact_add32 _ _) ?_)
    (by rw [List.forall_mem_cons, List.forall_mem_singleton])
  rintro _ _ rfl
  exact exact_add32 _ _

/-- A block child is laid out below what is there. -/
theorem Part.Fits.corner_below {style : ComputedStyle} {t : Tree} (hcorner : Corner left top)
    (h : (bottomPart doc cascade style t top width).Fits) :
    Corner left (top + marginTop doc cascade style t + blockHeight doc cascade t style width +
      marginBottom doc cascade style t) :=
  ⟨hcorner.left, h _ (List.mem_cons_of_mem _ List.mem_cons_self)⟩

theorem corner_run {style : ComputedStyle} {run : List Tree} (hcorner : Corner left top)
    (h : ∀ p ∈ runParts doc cascade style run left top width, p.Fits) :
    Corner left (top + (runFlow doc cascade style run width).height) := by
  unfold runParts at h
  split at h
  · next hrun =>
    have hempty : (runFlow doc cascade style [] width).height = 0 := by
      rw [runFlow, runPieces]
      rfl
    rw [hrun, hempty, Int.add_zero]
    exact hcorner
  · have hlines := List.forall_mem_singleton.mp h
    exact ⟨hcorner.left, hlines _ (by simp [Part.numbers])⟩

mutual

/-- A block is laid out if its parts fit, with the height they make. -/
theorem layoutBlock_exact : (t : Tree) → ∀ (parent : ComputedStyle) (x y avail : Int), 1 ≤ parent.fontSize →
    Exact (layoutBlock doc cascade t parent x y avail)
      (∀ p ∈ blockParts doc cascade t parent x y avail, p.Fits) fun box =>
      box.y = y + marginTop doc cascade parent t ∧ box.height = blockHeight doc cascade t parent avail
  | .node id children, parent, x, y, avail, hsize => by
    have hstyle := compute_fontSize cascade doc id hsize
    have hempty : ∀ p ∈ ([] : List Part), p.Fits := fun _ hp => nomatch hp
    rw [layoutBlock, blockParts, blockHeight, marginTop, Tree.id]
    dsimp only
    generalize cascade.compute doc id parent = style at hstyle
    cases hdisplay : style.display with
    | none =>
      exact ⟨fun _ => ⟨_, rfl, (Int.add_zero y).symm, rfl⟩, fun hn => absurd hempty hn⟩
    | inline =>
      exact ⟨fun _ => ⟨_, rfl, (Int.add_zero y).symm, rfl⟩, fun hn => absurd hempty hn⟩
    | block =>
      simp only [reduceCtorEq, if_false, if_true]
      refine Exact.iff (Exact.bind (openBlock_exact style x y avail) ?_) List.forall_mem_cons.symm
      rintro hedges ⟨box, place⟩ ⟨hy, hplace⟩
      obtain rfl : place = contentPlace style x y avail := hplace
      have hcorner := hedges.corner
      have hpadding := hedges.padding
      refine Exact.iff (Exact.bind (layoutBlockChildren_exact children style [] _ box hstyle hcorner) ?_)
        (List.forall_mem_append.trans (and_congr_right' List.forall_mem_singleton)).symm
      rintro _ ⟨place', box'⟩ ⟨hplace', hbox'⟩
      have hbottom : place'.y = box.y + style.padding.top +
        contentHeight doc cascade children style [] (contentWidth style avail) := by
        rw [hplace', hy]
        rfl
      refine (closeBlock_exact style box' hbottom hpadding).imp ?_
      rintro _ r ⟨hr, hheight⟩
      exact ⟨hr.trans (hbox'.trans hy), hheight⟩

theorem layoutBlockChildren_exact : (ts : List Tree) → ∀ (style : ComputedStyle) (run : List Tree)
    (place : ContentPlace) (box : LayoutBox),
    1 ≤ style.fontSize → Corner place.x place.y →
      Exact (layoutBlockChildren doc cascade ts style run place box)
        (∀ p ∈ contentParts doc cascade ts style run place.x place.y place.w, p.Fits) fun r =>
          r.1.y = place.y + contentHeight doc cascade ts style run place.w ∧ r.2.y = box.y
  | [], style, run, place, box, hsize, hcorner => by
    rw [layoutBlockChildren, contentParts, contentHeight]
    refine (closeRun_exact hsize run box hcorner).imp ?_
    rintro _ r ⟨hplace, hbox⟩
    exact ⟨by rw [hplace], hbox⟩
  | t :: ts, style, run, place, box, hsize, hcorner => by
    rw [layoutBlockChildren, contentParts, contentHeight]
    by_cases hblock : isBlockChild doc cascade style t = true
    · rw [if_pos hblock, if_pos hblock, if_pos hblock]
      refine Exact.iff (Exact.bind (closeRun_exact hsize run box hcorner) ?_) List.forall_mem_append.symm
      rintro hrun ⟨place', box'⟩ ⟨hplace', hbox'⟩
      obtain rfl : place' = _ := hplace'
      have hbelow := corner_run hcorner hrun
      refine Exact.iff (Exact.bind (layoutBlock_exact t style _ _ _ hsize) ?_) List.forall_mem_append.symm
      rintro _ child ⟨hchild, hheight⟩
      refine Exact.iff (Exact.bind (childBottom_exact style t hchild hheight) ?_) List.forall_mem_cons.symm
      rintro hbottom _ rfl
      refine (layoutBlockChildren_exact ts style [] _ _ hsize (hbottom.corner_below hbelow)).imp ?_
      rintro _ r ⟨hr, hbox⟩
      refine ⟨hr.trans ?_, hbox.trans hbox'⟩
      simp only [Int.add_assoc]
    · rw [if_neg hblock, if_neg hblock, if_neg hblock]
      exact layoutBlockChildren_exact ts style (run ++ [t]) place box hsize hcorner

end

/-- The parts of a page without a root element. -/
def nodesParts (doc : Document) (cascade : Cascade) (parent : ComputedStyle) (avail : Int) :
    List Tree → Int → List Part
  | [], _ => []
  | t :: ts, y =>
    if (doc.tag t.id).isSome then
      blockParts doc cascade t parent 0 y avail ++ (bottomPart doc cascade parent t y avail ::
        nodesParts doc cascade parent avail ts (y + marginTop doc cascade parent t +
          blockHeight doc cascade t parent avail +
          marginBottom doc cascade parent t))
    else nodesParts doc cascade parent avail ts y

theorem layoutNode_exact {parent : ComputedStyle} (hsize : 1 ≤ parent.fontSize) (avail y : Int)
    (box : LayoutBox) {t : Tree}
    (htag : (doc.tag t.id).isSome = true) : Exact (layoutNode doc cascade parent avail (y, box) t)
      (∀ p ∈ blockParts doc cascade t parent 0 y avail ++ [bottomPart doc cascade parent t y avail], p.Fits)
      fun r => r.1 = y + marginTop doc cascade parent t + blockHeight doc cascade t parent avail +
        marginBottom doc cascade parent t := by
  unfold layoutNode
  obtain ⟨tag, htag⟩ := Option.isSome_iff_exists.mp htag
  rw [htag]
  refine Exact.iff (Exact.bind (layoutBlock_exact t parent 0 y avail hsize) ?_)
    (List.forall_mem_append.trans (and_congr_right' List.forall_mem_singleton)).symm
  rintro _ child ⟨hchild, hheight⟩
  refine Exact.last (childBottom_exact parent t hchild hheight) ?_
  rintro _ _ rfl
  rfl

theorem layoutNodes_exact {parent : ComputedStyle} (hsize : 1 ≤ parent.fontSize) (avail : Int)
    (ts : List Tree) :
    ∀ (y : Int) (box : LayoutBox), Exact (ts.foldlM (layoutNode doc cascade parent avail) (y, box))
      (∀ p ∈ nodesParts doc cascade parent avail ts y, p.Fits) fun _ => True := by
  induction ts with
  | nil =>
    intro y box
    exact ⟨fun _ => ⟨_, rfl, trivial⟩, fun hn => absurd (fun _ hp => nomatch hp) hn⟩
  | cons t ts ih =>
    intro y box
    rw [List.foldlM_cons, nodesParts]
    by_cases htag : (doc.tag t.id).isSome = true
    · rw [if_pos htag, ← List.singleton_append, ← List.append_assoc]
      refine Exact.iff (Exact.bind (layoutNode_exact hsize avail y box htag) ?_) List.forall_mem_append.symm
      rintro _ ⟨y', box'⟩ hy
      obtain rfl : y' = _ := hy
      exact ih _ box'
    · have hskip : layoutNode doc cascade parent avail (y, box) t = some (y, box) := by
        unfold layoutNode
        rw [Option.not_isSome_iff_eq_none.mp htag]
      rw [if_neg htag, hskip]
      exact ih y box

end page

/-! ### Pages -/

/-- The tree of a page is the tree of its nodes. -/
theorem tree_parse (html : List Char) (id : Nat) :
    tree (parse html) id = .node id (((parse html).children id).map (tree (parse html))) := by
  have hwell := (Html.parse_wellFormed html).1
  refine Tree.Behind.grow_node (fun i c hc => ?_) id
  obtain ⟨hlt, hpos⟩ := hwell.child i c hc
  obtain ⟨n, hn⟩ : ∃ n, (parse html).nodes[c]? = some n := ⟨_, List.getElem?_eq_getElem hlt⟩
  obtain ⟨_, p, hp, _, _, hparent⟩ := hwell.parent c n hn hpos
  rw [hparent i hc]
  exact ⟨hp, hlt⟩

def pageParts (doc : Document) (viewportW : Int) : List Part :=
  match firstElement doc .html with
  | some html => blockParts doc (Cascade.new doc) (tree doc html) .initial 0 0 viewportW
  | none => nodesParts doc (Cascade.new doc) .initial viewportW
    ((doc.children Document.root).map (tree doc)) 0

/-- Layout does not overflow just where the numbers of all parts of the page are numbers of 32 bits. -/
theorem layout_safe_iff (html : List Char) (viewportW viewportH : Int) :
    (layoutDocument (parse html) viewportW viewportH).isSome ↔
      ∀ p ∈ pageParts (parse html) viewportW, p.Fits := by
  have hsize : 1 ≤ ComputedStyle.initial.fontSize := by decide
  have hroot : Exact (layoutRoot (parse html) (Cascade.new (parse html)) viewportW viewportH)
      (∀ p ∈ pageParts (parse html) viewportW, p.Fits) fun _ => True := by
    unfold layoutRoot pageParts
    cases firstElement (parse html) .html with
    | some id => exact (layoutBlock_exact _ _ 0 0 viewportW hsize).imp fun _ _ _ => trivial
    | none => exact Exact.last (layoutNodes_exact hsize viewportW _ 0 _) fun _ _ _ => trivial
  have hdocument : Exact (layoutDocument (parse html) viewportW viewportH)
    (∀ p ∈ pageParts (parse html) viewportW, p.Fits) fun _ => True :=
    Exact.last hroot fun _ _ _ => trivial
  exact hdocument.isSome_iff

/-- The margin of a paragraph is taken from the width of the page. -/
theorem margin_overflows : ¬(layoutDocument
    (parse "<p style=\"margin:-2147483648px\">".toList) 800 600).isSome := by
  rw [layoutDocument, Cascade.new_eq, String.toList_ofList]
  decide +kernel

end Lerux.Web
