import Lerux.Web.BoxModel
import Mathlib.Data.List.Destutter

/-!
# Lines of text

What a text should look like on its lines, character by character (`Typeset`): in order, each where
the one before it ends, on a new line where it would end behind the right edge, and with nothing
lost but spaces at the start of a line. `push_text` does so for every text that it takes as
characters: a text that is kept as it is, or one of ASCII.
-/

namespace Lerux.Web

open Lerux.Html (isWs)
open Lerux.Base

/-- A character, or a line break of a text that is kept. -/
inductive Sign
  | char (c : Char)
  | newline
deriving DecidableEq

/-- A character at its place. -/
structure Glyph where
  char : Char
  x : Int
  y : Int

/-- From a place on a line, some signs become glyphs, and the next place is behind them. -/
inductive Typeset (left right size : Int) (preserve : Bool) : Int → Int → List Sign → List Glyph →
    Int → Int → Prop
  | done (x y : Int) : Typeset left right size preserve x y [] [] x y
  | drop {y x' y' : Int} {signs : List Sign} {glyphs : List Glyph} : preserve = false →
      Typeset left right size preserve left y signs glyphs x' y' →
      Typeset left right size preserve left y (.char ' ' :: signs) glyphs x' y'
  | put {x y x' y' : Int} {c : Char} {signs : List Sign} {glyphs : List Glyph} : x + size ≤ right ∨
      x = left →
      Typeset left right size preserve (x + size) y signs glyphs x' y' →
      Typeset left right size preserve x y (.char c :: signs) (⟨c, x, y⟩ :: glyphs) x' y'
  | wrap {x y below x' y' : Int} {c : Char} {signs : List Sign} {glyphs : List Glyph} : right <
      x + size → left < x → y < below →
      Typeset left right size preserve (left + size) below signs glyphs x' y' →
      Typeset left right size preserve x y (.char c :: signs) (⟨c, left, below⟩ :: glyphs) x' y'
  | newline {x y below x' y' : Int} {signs : List Sign} {glyphs : List Glyph} : y < below →
      Typeset left right size preserve left below signs glyphs x' y' →
      Typeset left right size preserve x y (.newline :: signs) glyphs x' y'

/-- White space as one space. -/
def collapsed (text : List Char) : List Char :=
  (text.map fun c => if isWs c then ' ' else c).destutter fun a b => ¬(a = ' ' ∧ b = ' ')

/-- The signs of a text: its characters with white space collapsed, or as they are, with line breaks. -/
def signs (text : List Char) (preserve : Bool) : List Sign :=
  if preserve then text.map fun c => if c = '\n' then .newline else .char c else (collapsed text).map .char

/-- The glyphs of a run. -/
def glyphsFrom (size y : Int) : Int → List Char → List Glyph
  | _, [] => []
  | x, c :: text => ⟨c, x, y⟩ :: glyphsFrom size y (x + size) text

theorem glyphsFrom_nil (size y x : Int) : glyphsFrom size y x [] = [] := rfl

theorem glyphsFrom_cons (size y x : Int) (c : Char) (text : List Char) :
    glyphsFrom size y x (c :: text) = ⟨c, x, y⟩ :: glyphsFrom size y (x + size) text := rfl

def GlyphRun.glyphs (run : GlyphRun) : List Glyph := glyphsFrom run.fontSize run.y run.x run.text

section rules

variable {left right size x y x' y' x'' y'' : Int} {preserve : Bool} {some_ rest : List Sign}
  {glyphs glyphs' : List Glyph}

theorem Typeset.append (h : Typeset left right size preserve x y some_ glyphs x' y')
    (hrest : Typeset left right size preserve x' y' rest glyphs' x'' y'') :
    Typeset left right size preserve x y (some_ ++ rest) (glyphs ++ glyphs') x'' y'' := by
  induction h with
  | done => exact hrest
  | drop hpreserve _ ih => exact .drop hpreserve (ih hrest)
  | put hfits _ ih => exact .put hfits (ih hrest)
  | wrap hright hleft hbelow _ ih => exact .wrap hright hleft hbelow (ih hrest)
  | newline hbelow _ ih => exact .newline hbelow (ih hrest)

/-- What is not a space. -/
def inked : List Sign → List Char
  | [] => []
  | .char c :: signs => if c = ' ' then inked signs else c :: inked signs
  | .newline :: signs => inked signs

/-- Nothing is lost but spaces. -/
theorem Typeset.inked (h : Typeset left right size preserve x y some_ glyphs x' y') :
    (glyphs.map Glyph.char).filter (· ≠ ' ') = inked some_ := by
  have hchar : ∀ (c : Char) (signs : List Sign) (glyphs : List Glyph),
    (glyphs.map Glyph.char).filter (· ≠ ' ') = Web.inked signs →
      (c :: glyphs.map Glyph.char).filter (· ≠ ' ') = Web.inked (.char c :: signs) := by
    intro c signs glyphs ih
    unfold Web.inked
    by_cases hc : c = ' '
    · rw [if_pos hc, List.filter_cons_of_neg (by simp [hc]), ih]
    · rw [if_neg hc, List.filter_cons_of_pos (by simp [hc]), ih]
  induction h with
  | done => rfl
  | drop _ _ ih => exact ih
  | put _ _ ih => exact hchar _ _ _ ih
  | wrap _ _ _ _ ih => exact hchar _ _ _ ih
  | newline _ _ ih => exact ih

theorem glyphsFrom_append (size y x : Int) (text more : List Char) :
    glyphsFrom size y x (text ++ more) = glyphsFrom size y x text ++
      glyphsFrom size y (x + text.length * size) more := by
  induction text generalizing x with
  | nil => simp [glyphsFrom_nil]
  | cons c text ih =>
    rw [List.cons_append, glyphsFrom_cons, glyphsFrom_cons, ih, List.cons_append, List.length_cons]
    congr 3
    push_cast
    ring

theorem map_char_glyphsFrom (size y x : Int) (text : List Char) :
    (glyphsFrom size y x text).map Glyph.char = text := by
  induction text generalizing x with
  | nil => rfl
  | cons c text ih => rw [glyphsFrom_cons, List.map_cons, ih]

/-- The characters of the glyphs are the texts of the runs. -/
theorem map_char_glyphs (runs : List GlyphRun) : (runs.flatMap GlyphRun.glyphs).map Glyph.char =
    (runs.map GlyphRun.text).flatten := by
  induction runs with
  | nil => rfl
  | cons run runs ih =>
    rw [List.flatMap_cons, List.map_append, ih, List.map_cons, List.flatten_cons]
    congr 1
    exact map_char_glyphsFrom _ _ _ _

end rules

section code

variable {left right size : Int} {color : Nat} {preserve : Bool} {base : List GlyphRun}
  {glyphs : List Glyph} {cur cur' : InlineCursor}
  {pen pen' : Pen}

/-- The cursor is on a line between two edges. -/
structure Between (left right : Int) (cur : InlineCursor) : Prop where
  contentX : cur.contentX = left
  maxX : cur.maxX = right
  left : left ≤ cur.x
  lineH : 0 ≤ cur.lineH

/-- The runs behind those that were there are of one colour and size, and with the characters that
are in no run yet they are the glyphs. -/
structure Drawn (base : List GlyphRun) (color : Nat) (size : Int) (pen : Pen)
    (glyphs : List Glyph) : Prop where
  runs : ∃ more, pen.cur.runs = base ++ more ∧ (∀ run ∈ more, run.color = color ∧ run.fontSize = size) ∧
    glyphs = more.flatMap GlyphRun.glyphs ++ glyphsFrom size pen.runY pen.runX pen.buf
  buf : pen.buf ≠ [] → pen.cur.x = pen.runX + pen.buf.length * size ∧ pen.cur.y = pen.runY

theorem newLine_eq (h : newLine cur = some cur') :
    ∃ below, cur.y < below ∧ cur' = { cur with y := below, x := cur.contentX, lineH := 0 } := by
  obtain ⟨y, hy, hcur⟩ := Option.bind_eq_some_iff.mp h
  refine ⟨y, ?_, (Option.some.inj hcur).symm⟩
  rw [eq_of_add32 hy]
  have := le_max_right cur.lineH 1
  omega

theorem flushRun_drawn (h : Drawn base color size pen glyphs) : (flushRun pen color size).buf = [] ∧
    (flushRun pen color size).cur = { pen.cur with runs := (flushRun pen color size).cur.runs } ∧
    ∃ more, (flushRun pen color size).cur.runs = base ++ more ∧
      (∀ run ∈ more, run.color = color ∧ run.fontSize = size) ∧
      glyphs = more.flatMap GlyphRun.glyphs := by
  obtain ⟨more, hruns, hmore, hglyphs⟩ := h.runs
  unfold flushRun
  by_cases hbuf : pen.buf = []
  · rw [if_pos hbuf]
    refine ⟨hbuf, rfl, more, hruns, hmore, ?_⟩
    rw [hglyphs, hbuf, glyphsFrom_nil, List.append_nil]
  · rw [if_neg hbuf]
    refine ⟨rfl, rfl, more ++ [⟨pen.runX, pen.runY, pen.buf, color, size⟩], ?_, ?_, ?_⟩
    · show pen.cur.runs ++ _ = _
      rw [hruns, List.append_assoc]
    · intro run hrun
      rcases List.mem_append.mp hrun with hrun | hrun
      · exact hmore run hrun
      · obtain rfl := List.mem_singleton.mp hrun
        exact ⟨rfl, rfl⟩
    · rw [hglyphs, List.flatMap_append, List.flatMap_singleton]
      rfl

/-- A character that is put where the pen is. -/
theorem putChar_drawn (hbetween : Between left right pen.cur) (hsize : 1 ≤ size)
    (h : Drawn base color size pen glyphs) {ch : Char}
    (hput : putChar size pen ch = some pen') : Between left right pen'.cur ∧
      pen'.cur.x = pen.cur.x + size ∧ pen'.cur.y = pen.cur.y ∧
      Drawn base color size pen' (glyphs ++ [⟨ch, pen.cur.x, pen.cur.y⟩]) := by
  obtain ⟨more, hruns, hmore, hglyphs⟩ := h.runs
  obtain ⟨hcontent, hmax, hleft, hline⟩ := hbetween
  have hheight := hline.trans (le_max_left pen.cur.lineH size)
  unfold putChar at hput
  by_cases hbuf : pen.buf = []
  · rw [if_pos hbuf] at hput
    obtain ⟨x, hx, hpen⟩ := Option.bind_eq_some_iff.mp hput
    obtain rfl := Option.some.inj hpen
    obtain rfl := eq_of_add32 hx
    refine ⟨⟨hcontent, hmax, by dsimp only; omega, hheight⟩, rfl, rfl, ⟨more, hruns, hmore, ?_⟩,
      fun _ => ⟨?_, rfl⟩⟩
    · rw [hglyphs, hbuf]
      simp only [glyphsFrom_cons, glyphsFrom_nil, List.append_nil, List.nil_append]
    · simp only [hbuf, List.nil_append, List.length_singleton, Nat.cast_one, one_mul]
  · rw [if_neg hbuf] at hput
    obtain ⟨hx', hy'⟩ := h.buf hbuf
    obtain ⟨x, hx, hpen⟩ := Option.bind_eq_some_iff.mp hput
    obtain rfl := Option.some.inj hpen
    obtain rfl := eq_of_add32 hx
    refine ⟨⟨hcontent, hmax, by dsimp only; omega, hheight⟩, rfl, rfl, ⟨more, hruns, hmore, ?_⟩,
      fun _ => ⟨?_, hy'⟩⟩
    · dsimp only
      rw [hglyphs, List.append_assoc, glyphsFrom_append, ← hx', hy']
      rfl
    · dsimp only
      rw [hx', List.length_append, List.length_singleton]
      push_cast
      ring

/-- What a character adds to what is drawn. -/
theorem pushChar_typesets (hbetween : Between left right pen.cur) (hsize : 1 ≤ size)
    (h : Drawn base color size pen glyphs) {ch : Char}
    (hpush : pushChar color size preserve pen ch = some pen') : ∃ more, Between left right pen'.cur ∧
      Drawn base color size pen' (glyphs ++ more) ∧
      Typeset left right size preserve pen.cur.x pen.cur.y [.char ch] more pen'.cur.x pen'.cur.y := by
  obtain ⟨hcontent, hmax, hleft, _⟩ := id hbetween
  unfold pushChar at hpush
  by_cases hskip : ch = ' ' ∧ preserve = false ∧ pen.cur.x = pen.cur.contentX ∧ pen.buf = []
  · rw [if_pos hskip] at hpush
    obtain rfl := Option.some.inj hpush
    obtain ⟨rfl, hpreserve, hstart, _⟩ := hskip
    refine ⟨[], hbetween, by rwa [List.append_nil], ?_⟩
    rw [hstart, hcontent]
    exact .drop hpreserve (.done left _)
  · rw [if_neg hskip] at hpush
    obtain ⟨right', hright, hpush⟩ := Option.bind_eq_some_iff.mp hpush
    obtain rfl := eq_of_add32 hright
    obtain ⟨mid, hwrap, hput⟩ := Option.bind_eq_some_iff.mp hpush
    unfold wrapChar at hwrap
    split at hwrap
    · next hover =>
      rw [hmax, hcontent] at hover
      obtain ⟨cur, hnew, hmid⟩ := Option.bind_eq_some_iff.mp hwrap
      obtain rfl := Option.some.inj hmid
      obtain ⟨below, hbelow, rfl⟩ := newLine_eq hnew
      obtain ⟨hbuf, hcur, more, hruns, hmore, hglyphs⟩ := flushRun_drawn h
      generalize flushRun pen color size = flushed at *
      have hline : flushed.cur.contentX = left ∧ flushed.cur.maxX = right ∧ flushed.cur.y = pen.cur.y := by
        rw [hcur]
        exact ⟨hcontent, hmax, rfl⟩
      obtain ⟨hcontent', hmax', hy⟩ := hline
      have hmid : Drawn base color size ⟨{ flushed.cur with y := below, x := flushed.cur.contentX, lineH := 0 }, flushed.buf,
          flushed.cur.contentX, below⟩ glyphs := by
        refine ⟨⟨more, hruns, hmore, ?_⟩, fun hne => absurd hbuf hne⟩
        rw [hbuf, glyphsFrom_nil, List.append_nil, hglyphs]
      have hstart : Between left right { flushed.cur with y := below, x := flushed.cur.contentX, lineH := 0 } :=
        ⟨hcontent', hmax', hcontent'.ge, le_rfl⟩
      obtain ⟨hbetween', hx, hy', hdrawn⟩ := putChar_drawn hstart hsize hmid hput
      refine ⟨_, hbetween', hdrawn, ?_⟩
      rw [hx, hy']
      dsimp only
      rw [hcontent']
      exact .wrap hover.1 hover.2 (hy ▸ hbelow) (.done _ _)
    · next hfits =>
      obtain rfl := Option.some.inj hwrap
      rw [hmax, hcontent] at hfits
      obtain ⟨hbetween', hx, hy, hdrawn⟩ := putChar_drawn hbetween hsize h hput
      refine ⟨_, hbetween', hdrawn, ?_⟩
      rw [hx, hy]
      exact .put (by omega) (.done _ _)

/-- What some signs add to the runs of a cursor. -/
def Emits (left right size : Int) (color : Nat) (preserve : Bool) (cur : InlineCursor)
    (signs : List Sign) (cur' : InlineCursor) : Prop :=
  Between left right cur' ∧ ∃ more, cur'.runs = cur.runs ++ more ∧
    (∀ run ∈ more, run.color = color ∧ run.fontSize = size) ∧
    Typeset left right size preserve cur.x cur.y signs (more.flatMap GlyphRun.glyphs) cur'.x cur'.y

theorem Emits.append {cur'' : InlineCursor} {some_ rest : List Sign}
    (h : Emits left right size color preserve cur some_ cur')
    (hrest : Emits left right size color preserve cur' rest cur'') : Emits left right size color
      preserve cur (some_ ++ rest) cur'' := by
  obtain ⟨_, more, hruns, hmore, htypeset⟩ := h
  obtain ⟨hbetween, more', hruns', hmore', htypeset'⟩ := hrest
  refine ⟨hbetween, more ++ more', by rw [hruns', hruns, List.append_assoc], ?_, ?_⟩
  · intro run hrun
    rcases List.mem_append.mp hrun with hrun | hrun
    · exact hmore run hrun
    · exact hmore' run hrun
  · rw [List.flatMap_append]
    exact htypeset.append htypeset'

theorem foldlM_typesets (hsize : 1 ≤ size) (text : List Char) : ∀ {pen : Pen} {glyphs : List Glyph},
    Between left right pen.cur →
    Drawn base color size pen glyphs → text.foldlM (pushChar color size preserve) pen = some pen' →
      ∃ more, Between left right pen'.cur ∧
      Drawn base color size pen' (glyphs ++ more) ∧
      Typeset left right size preserve pen.cur.x pen.cur.y (text.map .char) more pen'.cur.x pen'.cur.y := by
  induction text with
  | nil =>
    intro pen glyphs hbetween h hfold
    obtain rfl := Option.some.inj hfold
    exact ⟨[], hbetween, by rwa [List.append_nil], .done _ _⟩
  | cons ch text ih =>
    intro pen glyphs hbetween h hfold
    rw [List.foldlM_cons] at hfold
    obtain ⟨mid, hpush, hfold⟩ := Option.bind_eq_some_iff.mp hfold
    obtain ⟨more, hmid, hdrawn, htypeset⟩ := pushChar_typesets hbetween hsize h hpush
    obtain ⟨more', hlast, hdrawn', htypeset'⟩ := ih hmid hdrawn hfold
    exact ⟨more ++ more', hlast, by rwa [← List.append_assoc], htypeset.append htypeset'⟩

theorem pushChars_emits (hbetween : Between left right cur) (hsize : 1 ≤ size) (text : List Char)
    (hpush : pushChars cur text color size preserve =
      some cur') : Emits left right size color preserve cur (text.map .char) cur' := by
  obtain ⟨pen, hfold, hlast⟩ := Option.bind_eq_some_iff.mp hpush
  obtain rfl := Option.some.inj hlast
  have hstart : Drawn cur.runs color size ⟨cur, [], cur.x, cur.y⟩ [] :=
    ⟨⟨[], (List.append_nil _).symm, (fun _ hrun => nomatch hrun), rfl⟩, fun hne => absurd rfl hne⟩
  obtain ⟨glyphs, hpen, hdrawn, htypeset⟩ := foldlM_typesets hsize text hbetween hstart hfold
  obtain ⟨_, hcur, more, hruns, hmore, hglyphs⟩ := flushRun_drawn hdrawn
  rw [List.nil_append] at hglyphs
  have hplace : (flushRun pen color size).cur.x = pen.cur.x ∧ (flushRun pen color size).cur.y = pen.cur.y ∧
      Between left right (flushRun pen color size).cur := by
    rw [hcur]
    exact ⟨rfl, rfl, hpen.contentX, hpen.maxX, hpen.left, hpen.lineH⟩
  obtain ⟨hx, hy, hlast⟩ := hplace
  exact ⟨hlast, more, hruns, hmore, by rw [hx, hy, ← hglyphs]; exact htypeset⟩

theorem pushLine_emits (hbetween : Between left right cur) (hsize : 1 ≤ size) (line : List Char)
    (hpush : pushLine color size cur line = some cur') : Emits left right size color true cur
      (.newline :: line.map .char) cur' := by
  obtain ⟨mid, hnew, hpush⟩ := Option.bind_eq_some_iff.mp hpush
  obtain ⟨below, hbelow, rfl⟩ := newLine_eq hnew
  have hmid : Between left right { cur with y := below, x := cur.contentX, lineH := 0 } :=
    ⟨hbetween.contentX, hbetween.maxX, hbetween.contentX.ge, le_rfl⟩
  have hline : Emits left right size color true cur [.newline]
    { cur with y := below, x := cur.contentX, lineH := 0 } := by
    refine ⟨hmid, [], (List.append_nil _).symm, (fun _ hrun => nomatch hrun), ?_⟩
    dsimp only
    rw [hbetween.contentX]
    exact .newline hbelow (.done _ _)
  exact hline.append (pushChars_emits hmid hsize line hpush)

theorem pushLines_emits (hsize : 1 ≤ size) (lines : List (List Char)) : ∀ {cur : InlineCursor},
    Between left right cur →
    lines.foldlM (pushLine color size) cur = some cur' →
      Emits left right size color true cur (lines.flatMap fun line => .newline :: line.map .char) cur' := by
  induction lines with
  | nil =>
    intro cur hbetween hfold
    obtain rfl := Option.some.inj hfold
    exact ⟨hbetween, [], (List.append_nil _).symm, (fun _ hrun => nomatch hrun), .done _ _⟩
  | cons line lines ih =>
    intro cur hbetween hfold
    rw [List.foldlM_cons] at hfold
    obtain ⟨mid, hline, hfold⟩ := Option.bind_eq_some_iff.mp hfold
    have hemits := pushLine_emits hbetween hsize line hline
    exact hemits.append (ih hemits.1 hfold)

/-- The lines of a text that is kept are its characters with the line breaks between them. -/
theorem signs_splitOn (text : List Char) : ∃ line lines, text.splitOn '\n' = line :: lines ∧
    (text.map fun c => if c = '\n' then Sign.newline else .char c) =
      line.map .char ++ lines.flatMap fun line => .newline :: line.map .char := by
  induction text with
  | nil => exact ⟨[], [], rfl, rfl⟩
  | cons c text ih =>
    obtain ⟨line, lines, hsplit, hsigns⟩ := ih
    have hstep : (c :: text).splitOn '\n' = if c = '\n' then [] :: text.splitOn '\n'
      else (text.splitOn '\n').modifyHead (List.cons c) := by
      unfold List.splitOn
      rw [List.splitOnP_cons_eq_if_modifyHead]
      simp only [beq_iff_eq]
    rw [hstep, hsplit, List.map_cons, hsigns]
    by_cases hc : c = '\n'
    · rw [if_pos hc, if_pos hc]
      exact ⟨[], line :: lines, rfl, rfl⟩
    · rw [if_neg hc, if_neg hc]
      exact ⟨c :: line, lines, rfl, rfl⟩

end code

/-! ### White space -/

/-- The bytes of a text, each as a character. -/
def latin (text : List Char) : List Char :=
  (text.flatMap String.utf8EncodeChar).map fun b => Char.ofNat b.toNat

/-- White space as one space, or none behind white space. -/
def collapseFrom : Bool → List Char → List Char
  | _, [] => []
  | prevWs, c :: text => if isWs c then (if prevWs then [] else [' ']) ++ collapseFrom true text
      else c :: collapseFrom false text

theorem collapsed_eq (text : List Char) : collapsed text = collapseFrom false text := by
  have hbehind : ∀ (text : List Char) (a : Char), ((text.map fun c => if isWs c then ' ' else c).destutter'
      (fun a b => ¬(a = ' ' ∧ b = ' ')) a) = a :: collapseFrom (a = ' ') text := by
    intro text
    induction text with
    | nil => exact fun _ => rfl
    | cons c text ih =>
      intro a
      rw [List.map_cons, List.destutter'_cons, collapseFrom]
      by_cases hc : isWs c = true
      · rw [if_pos hc, if_pos hc]
        by_cases ha : a = ' '
        · rw [if_neg (by simp [ha]), ih, ha]
          simp
        · rw [if_pos (by simp [ha]), ih]
          simp [ha]
      · have hne : c ≠ ' ' := fun heq => hc (heq ▸ rfl)
        rw [if_neg hc, if_neg hc, if_pos (by simp [hne]), ih]
        simp [hne]
  unfold collapsed
  cases text with
  | nil => rfl
  | cons c text =>
    rw [List.map_cons, List.destutter_cons', hbehind, collapseFrom]
    by_cases hc : isWs c = true
    · rw [if_pos hc, if_pos hc]
      rfl
    · have hne : c ≠ ' ' := fun heq => hc (heq ▸ rfl)
      rw [if_neg hc, if_neg hc]
      simp [hne]

theorem isWs_byte (b : UInt8) : isWs (Char.ofNat b.toNat) = true ↔ b = 0x20 ∨ b = 0x09 ∨ b = 0x0a ∨
    b = 0x0d := by
  have hall : ∀ n < 256, isWs (Char.ofNat n) =
      decide (UInt8.ofNat n = 0x20 ∨ UInt8.ofNat n = 0x09 ∨ UInt8.ofNat n = 0x0a ∨ UInt8.ofNat n =
        0x0d) := by decide +kernel
  rw [hall b.toNat b.toNat_lt, decide_eq_true_eq, UInt8.ofNat_toNat]

/-- The code collapses the white space of the bytes. -/
theorem collapseWs_eq (text : List Char) : collapseWs text = collapsed (latin text) := by
  have hfold : ∀ (bytes : List UInt8) (out : List Char) (prevWs : Bool), (bytes.foldl (fun p b =>
      if b = 0x20 ∨ b = 0x09 ∨ b = 0x0a ∨ b = 0x0d then (if p.2 then p.1 else p.1 ++ [' '], true)
      else (p.1 ++ [Char.ofNat b.toNat], false)) (out, prevWs)).1 =
        out ++ collapseFrom prevWs (bytes.map fun b => Char.ofNat b.toNat) := by
    intro bytes
    induction bytes with
    | nil => exact fun out _ => (List.append_nil out).symm
    | cons b bytes ih =>
      intro out prevWs
      rw [List.foldl_cons, List.map_cons, collapseFrom]
      by_cases hb : b = 0x20 ∨ b = 0x09 ∨ b = 0x0a ∨ b = 0x0d
      · rw [if_pos ((isWs_byte b).mpr hb)]
        dsimp only
        rw [if_pos hb, ih]
        cases prevWs <;> simp
      · rw [if_neg (mt (isWs_byte b).mp hb)]
        dsimp only
        rw [if_neg hb, ih, List.append_assoc]
        rfl
  rw [collapsed_eq]
  exact (hfold _ [] false).trans (List.nil_append _)

/-- What is not white space is kept. -/
theorem filter_collapsed (text : List Char) : (collapsed text).filter (· ≠ ' ') =
    text.filter fun c => !isWs c := by
  rw [collapsed_eq]
  generalize false = prevWs
  induction text generalizing prevWs with
  | nil => rfl
  | cons c text ih =>
    rw [collapseFrom]
    by_cases hc : isWs c = true
    · rw [if_pos hc, List.filter_append, ih, List.filter_cons_of_neg (by simp [hc])]
      cases prevWs <;> simp
    · have hne : c ≠ ' ' := fun heq => hc (heq ▸ rfl)
      rw [if_neg hc, List.filter_cons_of_pos (by simp [hne]), ih, List.filter_cons_of_pos (by simp [hc])]

def Ascii (text : List Char) : Prop := ∀ c ∈ text, c.toNat < 128

theorem latin_ascii {text : List Char} (h : Ascii text) : latin text = text := by
  have hchar : ∀ n < 128, (String.utf8EncodeChar (Char.ofNat n)).map (fun b => Char.ofNat b.toNat) =
    [Char.ofNat n] := by decide +kernel
  induction text with
  | nil => rfl
  | cons c text ih =>
    have hc := hchar c.toNat (h c List.mem_cons_self)
    rw [Char.ofNat_toNat] at hc
    unfold latin at ih ⊢
    rw [List.flatMap_cons, List.map_append, hc, ih fun d hd => h d (List.mem_cons_of_mem _ hd)]
    rfl

/-- A character behind the ASCII ones is two characters at least, which are not white space. -/
theorem latin_other {c : Char} (hc : ¬c.toNat < 128) : isWs c = false ∧
    2 ≤ ((latin [c]).filter fun c => !isWs c).length := by
  have hsize : c.utf8Size ≠ 1 := fun hone => hc (by
    rw [Char.utf8Size_eq_one_iff, UInt32.le_iff_toNat_le] at hone
    exact Nat.lt_succ_of_le hone)
  have hpos := c.utf8Size_pos
  have hws : ∀ d ∈ latin [c], (!isWs d) = true := by
    intro d hd
    obtain ⟨b, hb, rfl⟩ := List.mem_map.mp hd
    rw [List.flatMap_singleton] at hb
    have hhigh : ¬b < 128 := mt (utf8Size_eq_one_iff_of_mem hb).mpr hsize
    have hplain : isWs (Char.ofNat b.toNat) = false := by
      rw [← Bool.not_eq_true, isWs_byte]
      rintro (rfl | rfl | rfl | rfl) <;> exact hhigh (by decide)
    rw [hplain]
    rfl
  refine ⟨?_, ?_⟩
  · rw [← Bool.not_eq_true, Html.isWs_iff]
    rintro (rfl | rfl | rfl | rfl) <;> exact hc (by decide)
  · rw [List.filter_eq_self.mpr hws, latin, List.length_map, List.flatMap_singleton,
      String.length_utf8EncodeChar]
    omega

theorem latin_longer (text : List Char) : (text.filter fun c => !isWs c).length ≤
    ((latin text).filter fun c => !isWs c).length ∧
    (((latin text).filter fun c => !isWs c).length ≤ (text.filter fun c => !isWs c).length →
      Ascii text) := by
  induction text with
  | nil => exact ⟨le_rfl, fun _ _ hc => nomatch hc⟩
  | cons c text ih =>
    obtain ⟨hle, hascii⟩ := ih
    have hcons : latin (c :: text) = latin [c] ++ latin text := by
      unfold latin
      rw [List.flatMap_cons, List.map_append, List.flatMap_singleton]
    have hsplit : (c :: text).filter (fun c => !isWs c) = [c].filter (fun c => !isWs c) ++
      text.filter fun c => !isWs c :=
      List.filter_append [c] text
    rw [hcons, hsplit, List.filter_append, List.length_append, List.length_append]
    by_cases hc : c.toNat < 128
    · have hsame : latin [c] = [c] := latin_ascii (List.forall_mem_singleton.mpr hc)
      rw [hsame]
      refine ⟨by omega, fun hlength d hd => ?_⟩
      rcases List.mem_cons.mp hd with rfl | hd
      · exact hc
      · exact hascii (by omega) d hd
    · obtain ⟨hws, htwo⟩ := latin_other hc
      have hone : ([c].filter fun c => !isWs c).length ≤ 1 := List.length_filter_le _ _
      exact ⟨by omega, fun hlength => by omega⟩

/-! ### Texts -/

/-- A cursor of a run. -/
structure OnRun (cur : InlineCursor) : Prop where
  corner : Corner cur.contentX cur.startY
  x : cur.contentX ≤ cur.x ∧ cur.x ≤ 2147483647
  y : cur.startY ≤ cur.y ∧ cur.y ≤ 2147483647
  lineH : 0 ≤ cur.lineH

/-- The place of the cursor from the corner of its run. -/
def flowOf (cur : InlineCursor) : Flow := ⟨cur.x - cur.contentX, cur.y - cur.startY, cur.lineH,
    cur.x - cur.contentX⟩

/-- The lines that the text needs fit. -/
def Room (cur : InlineCursor) (text : List Char) (size : Int) (preserve : Bool) : Prop :=
  ((flowOf cur).run (cur.maxX - cur.contentX) (textPieces text size preserve)).Fits cur.contentX cur.startY

section texts

variable {cur cur' : InlineCursor} {size : Int} {color : Nat} {preserve : Bool}

theorem OnRun.follows (h : OnRun cur) : Follows cur.contentX cur.startY
    (cur.maxX - cur.contentX) cur (flowOf cur) ∧
    (flowOf cur).Fits cur.contentX cur.startY := by
  obtain ⟨_, hx, hy, hline⟩ := h
  unfold flowOf
  refine ⟨⟨by
    dsimp only; omega, by dsimp only; omega, rfl, rfl, by omega, rfl, ⟨?_, ?_, hline, le_rfl⟩⟩, ?_,
    ?_⟩ <;> dsimp only <;> omega

/-- The signs of a text come out as its glyphs, if the code takes them as characters. -/
theorem pushText_emits {left right : Int} (hbetween : Between left right cur) (hsize : 1 ≤ size)
    (text : List Char)
    (hpush : pushText cur text color size preserve = some cur') :
    Emits left right size color preserve cur (signs (if preserve then text
      else latin text) preserve) cur' := by
  unfold pushText at hpush
  unfold signs
  cases preserve with
  | false =>
    have hchars := pushChars_emits hbetween hsize (collapseWs text) hpush
    rwa [collapseWs_eq] at hchars
  | true =>
    obtain ⟨line, lines, hsplit, hsigns⟩ := signs_splitOn text
    rw [if_pos rfl, hsplit] at hpush
    obtain ⟨mid, hline, hpush⟩ := Option.bind_eq_some_iff.mp hpush
    rw [if_pos rfl, if_pos rfl, hsigns]
    have hemits := pushChars_emits hbetween hsize line hline
    exact hemits.append (pushLines_emits hsize lines hemits.1 hpush)

theorem inked_map_char (text : List Char) : inked (text.map .char) = text.filter (· ≠ ' ') := by
  induction text with
  | nil => rfl
  | cons c text ih =>
    rw [List.map_cons, inked, ih]
    by_cases hc : c = ' '
    · rw [if_pos hc, List.filter_cons_of_neg (by simp [hc])]
    · rw [if_neg hc, List.filter_cons_of_pos (by simp [hc])]

/-- A text comes out as its own glyphs just where it is kept as it is or of ASCII, and its lines fit. -/
theorem text_lossless_iff (hcur : OnRun cur) (hsize : 1 ≤ size) (text : List Char) (color : Nat)
    (preserve : Bool) :
    (∃ cur', pushText cur text color size preserve = some cur' ∧
      Emits cur.contentX cur.maxX size color preserve cur (signs text preserve) cur') ↔
      (preserve = true ∨ Ascii text) ∧ Room cur text size preserve := by
  obtain ⟨hfollows, hfits⟩ := hcur.follows
  have hgoes : Goes cur.contentX cur.startY (cur.maxX - cur.contentX)
    (pushText cur text color size preserve) (flowOf cur)
      (textPieces text size preserve) := pushText_goes hcur.corner hsize hfollows hfits text
  have hbetween : Between cur.contentX cur.maxX cur := ⟨rfl, rfl, hcur.x.1, hcur.lineH⟩
  constructor
  · rintro ⟨cur', hpush, hemits⟩
    refine ⟨?_, hgoes.isSome_iff.mp (by rw [hpush]; rfl)⟩
    cases preserve with
    | true => exact Or.inl rfl
    | false =>
      obtain ⟨_, more, hruns, _, htypeset⟩ := hemits
      obtain ⟨_, more', hruns', _, htypeset'⟩ := pushText_emits hbetween hsize text hpush
      obtain rfl := List.append_cancel_left (hruns.symm.trans hruns')
      have hinked : inked ((collapsed text).map .char) =
        inked ((collapsed (latin text)).map .char) := htypeset.inked.symm.trans htypeset'.inked
      rw [inked_map_char, inked_map_char, filter_collapsed, filter_collapsed] at hinked
      exact Or.inr ((latin_longer text).2 (congrArg List.length hinked).ge)
  · rintro ⟨hchars, hroom⟩
    obtain ⟨cur', hpush, _⟩ := hgoes.1 hroom
    refine ⟨cur', hpush, ?_⟩
    have hemits := pushText_emits hbetween hsize text hpush
    have htext : (if preserve then text else latin text) = text := by
      cases preserve with
      | true => rfl
      | false => exact latin_ascii (hchars.resolve_left Bool.false_ne_true)
    rwa [htext] at hemits

end texts

/-- The first place of a page that is 100 pixels wide. -/
def firstCursor : InlineCursor := ⟨0, 0, 0, 0, 100, 0, [], []⟩

theorem text_lossless_hi : OnRun firstCursor ∧
    ((∃ cur', pushText firstCursor "hi".toList 0 16 false = some cur' ∧
    Emits 0 100 16 0 false firstCursor (signs "hi".toList false) cur') ↔
      (false = true ∨ Ascii "hi".toList) ∧ Room firstCursor "hi".toList 16 false) := by
  have hcur : OnRun firstCursor := ⟨⟨by decide, by decide⟩, by decide, by decide, by decide⟩
  exact ⟨hcur, text_lossless_iff hcur (by decide) "hi".toList 0 false⟩

/-- An é becomes two characters. -/
theorem accent_lost : ¬∃ cur', pushText firstCursor ['é'] 0 16 false = some cur' ∧
    Emits 0 100 16 0 false firstCursor (signs ['é'] false) cur' := by
  rintro ⟨cur', hpush, _, more, hruns, _, htypeset⟩
  have htexts : (pushText firstCursor ['é'] 0 16 false).map (fun cur => cur.runs.map GlyphRun.text) =
      some [[Char.ofNat 0xc3, Char.ofNat 0xa9]] := by decide +kernel
  rw [hpush, Option.map_some, hruns] at htexts
  have hmore : more.map GlyphRun.text = [[Char.ofNat 0xc3, Char.ofNat 0xa9]] := Option.some.inj htexts
  have hinked := htypeset.inked
  rw [map_char_glyphs, hmore] at hinked
  exact absurd hinked (by decide)

end Lerux.Web
