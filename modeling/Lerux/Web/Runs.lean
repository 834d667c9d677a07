import Lerux.Web.BoxModel
import Lerux.Web.Typeset

/-!
# Where the texts of a page are

In every box tree that layout gives, a run of text begins at a place that is a number of 32 bits, it
ends at one, and so does its line: layout has added these numbers up and checked the sums.
`layoutDocument_placed` is what painting a page relies on.
-/

namespace Lerux.Web

open Lerux.Html (Document NodeKind TagName)
open Lerux.Base

/-- A run in its place, above a bottom. -/
structure GlyphRun.Placed (bottom : Int) (run : GlyphRun) : Prop where
  size : 1 ≤ run.fontSize
  left : -2147483648 ≤ run.x
  right : run.x + run.text.length * run.fontSize ≤ 2147483647
  top : -2147483648 ≤ run.y
  bottom : run.y + run.fontSize ≤ bottom

theorem GlyphRun.Placed.mono {bottom bottom' : Int} {run : GlyphRun} (h : run.Placed bottom)
    (hle : bottom ≤ bottom') :
    run.Placed bottom' :=
  ⟨h.size, h.left, h.right, h.top, h.bottom.trans hle⟩

mutual

/-- The runs of a box and of those in it. -/
def LayoutBox.allRuns : LayoutBox → List GlyphRun
  | ⟨_, _, _, _, _, runs, _, children⟩ => runs ++ allRunsOf children

def allRunsOf : List LayoutBox → List GlyphRun
  | [] => []
  | box :: boxes => box.allRuns ++ allRunsOf boxes

end

theorem LayoutBox.allRuns_eq (box : LayoutBox) : box.allRuns = box.runs ++ allRunsOf box.children := by
  cases box
  rw [LayoutBox.allRuns]

theorem allRunsOf_append (boxes more : List LayoutBox) : allRunsOf (boxes ++ more) =
    allRunsOf boxes ++ allRunsOf more := by
  induction boxes with
  | nil => rfl
  | cons box boxes ih => rw [List.cons_append, allRunsOf, allRunsOf, ih, List.append_assoc]

/-- The runs of a box are all in their places. -/
def LayoutBox.RunsPlaced (box : LayoutBox) : Prop := ∀ run ∈ box.allRuns, run.Placed 2147483647

theorem runsPlaced_congr {box box' : LayoutBox} (h : box.RunsPlaced) (hruns : box'.runs = box.runs)
    (hchildren : box'.children = box.children) : box'.RunsPlaced := by
  rw [LayoutBox.RunsPlaced, LayoutBox.allRuns_eq, hruns, hchildren, ← LayoutBox.allRuns_eq]
  exact h

/-- A box with another one in it. -/
theorem LayoutBox.RunsPlaced.child {box box' child : LayoutBox} (h : box.RunsPlaced)
    (hchild : child.RunsPlaced)
    (hruns : box'.runs = box.runs) (hchildren : box'.children =
      box.children ++ [child]) : box'.RunsPlaced := by
  intro run hrun
  rw [LayoutBox.allRuns_eq, hruns, hchildren, allRunsOf_append, ← List.append_assoc,
    ← LayoutBox.allRuns_eq, allRunsOf, allRunsOf,
    List.append_nil] at hrun
  rcases List.mem_append.mp hrun with hrun | hrun
  · exact h run hrun
  · exact hchild run hrun

/-- A box with more runs. -/
theorem LayoutBox.RunsPlaced.more {box box' : LayoutBox} {runs : List GlyphRun} (h : box.RunsPlaced)
    (hmore : ∀ run ∈ runs, run.Placed 2147483647) (hruns : box'.runs = box.runs ++ runs)
      (hchildren : box'.children = box.children) :
    box'.RunsPlaced := by
  intro run hrun
  rw [LayoutBox.allRuns_eq, hruns, hchildren, List.append_assoc, List.mem_append, List.mem_append] at hrun
  rcases hrun with hrun | hrun | hrun
  · exact h run (by rw [LayoutBox.allRuns_eq]; exact List.mem_append_left _ hrun)
  · exact hmore run hrun
  · exact h run (by rw [LayoutBox.allRuns_eq]; exact List.mem_append_right _ hrun)

theorem i32_of_add32 {a b c : Int} (h : add32 a b = some c) : I32 c ∧ c = a + b := by
  have hc := eq_of_add32 h
  unfold add32 i32 at h
  split at h
  · next hfits => exact ⟨hc ▸ hfits, hc⟩
  · cases h

/-! ### Inline content -/

section inline

variable {cur cur' : InlineCursor} {color : Nat} {size : Int} {preserve : Bool} {pen pen' : Pen}

/-- The bottom of the line, or of all that can be. -/
def InlineCursor.floor (cur : InlineCursor) : Int := max 2147483647 (cur.y + cur.lineH)

/-- What the cursor has been through is in its place. -/
structure InlineCursor.Keeps (cur : InlineCursor) : Prop where
  x : I32 cur.x
  y : I32 cur.y
  left : I32 cur.contentX
  start : cur.startY ≤ cur.y
  runs : ∀ run ∈ cur.runs, run.Placed cur.floor

/-- The line gets higher. -/
theorem InlineCursor.Keeps.higher (h : cur.Keeps) (hx : I32 cur'.x) (hy : cur'.y = cur.y)
    (hleft : cur'.contentX = cur.contentX)
    (hstart : cur'.startY = cur.startY) (hline : cur.lineH ≤ cur'.lineH)
      (hruns : cur'.runs = cur.runs) : cur'.Keeps := by
  refine ⟨hx, hy ▸ h.y, hleft ▸ h.left, by rw [hstart, hy]; exact h.start, fun run hrun => ?_⟩
  rw [hruns] at hrun
  refine (h.runs run hrun).mono ?_
  unfold InlineCursor.floor
  omega

/-- A new line is below all that was there. -/
theorem newLine_keeps (h : cur.Keeps) (hnew : newLine cur = some cur') :
    cur'.Keeps ∧ cur'.startY = cur.startY ∧ ∀ run ∈ cur'.runs, run.Placed 2147483647 := by
  obtain ⟨below, hbelow, hcur⟩ := Option.bind_eq_some_iff.mp hnew
  obtain rfl := Option.some.inj hcur
  obtain ⟨hfits, rfl⟩ := i32_of_add32 hbelow
  have hruns : ∀ run ∈ cur.runs, run.Placed 2147483647 := by
    intro run hrun
    refine (h.runs run hrun).mono ?_
    unfold InlineCursor.floor
    unfold I32 at hfits
    omega
  have hstart := h.start
  refine ⟨⟨h.left, hfits, h.left, ?_, fun run hrun => (hruns run hrun).mono (le_max_left _ _)⟩, rfl, hruns⟩
  dsimp only
  omega

theorem breakLine_keeps (h : cur.Keeps) {right : Int} (hbreak : breakLine cur right = some cur') :
    cur'.Keeps ∧ cur'.startY = cur.startY := by
  unfold breakLine at hbreak
  split at hbreak
  · exact ⟨(newLine_keeps h hbreak).1, (newLine_keeps h hbreak).2.1⟩
  · obtain rfl := Option.some.inj hbreak
    exact ⟨h, rfl⟩

theorem wrapIfNeeded_keeps (h : cur.Keeps) {width height : Int}
    (hwrap : wrapIfNeeded cur width height = some cur') :
    cur'.Keeps ∧ cur'.startY = cur.startY := by
  obtain ⟨right, _, hwrap⟩ := Option.bind_eq_some_iff.mp hwrap
  obtain ⟨mid, hbreak, hcur⟩ := Option.bind_eq_some_iff.mp hwrap
  obtain rfl := Option.some.inj hcur
  obtain ⟨hmid, hstart⟩ := breakLine_keeps h hbreak
  exact ⟨hmid.higher hmid.x rfl rfl rfl (le_max_left _ _) rfl, hstart⟩

theorem pushReplaced_keeps (h : cur.Keeps) {width height : Int}
    (hpush : pushReplaced cur width height color = some cur') :
    cur'.Keeps ∧ cur'.startY = cur.startY := by
  obtain ⟨mid, hwrap, hpush⟩ := Option.bind_eq_some_iff.mp hpush
  obtain ⟨x, hx, hcur⟩ := Option.bind_eq_some_iff.mp hpush
  obtain rfl := Option.some.inj hcur
  obtain ⟨hmid, hstart⟩ := wrapIfNeeded_keeps h hwrap
  exact ⟨hmid.higher (i32_of_add32 hx).1 rfl rfl rfl (le_max_left _ _) rfl, hstart⟩

/-- The characters that are in no run yet are on the line, up to the cursor. -/
structure Pen.Keeps (size : Int) (pen : Pen) : Prop where
  cur : pen.cur.Keeps
  left : pen.buf ≠ [] → I32 pen.runX ∧ pen.cur.x = pen.runX + pen.buf.length * size
  top : pen.buf ≠ [] → pen.runY = pen.cur.y ∧ size ≤ pen.cur.lineH

theorem flushRun_keeps (hsize : 1 ≤ size) (h : pen.Keeps size) : (flushRun pen color size).cur.Keeps ∧
    (flushRun pen color size).cur.startY = pen.cur.startY ∧ (flushRun pen color size).buf = [] := by
  unfold flushRun
  split
  · next hbuf => exact ⟨h.cur, rfl, hbuf⟩
  · next hbuf =>
    obtain ⟨hleft, hx⟩ := h.left hbuf
    obtain ⟨hy, hline⟩ := h.top hbuf
    have hright := h.cur.x
    have htop := h.cur.y
    unfold I32 at hright htop hleft
    refine ⟨⟨h.cur.x, h.cur.y, h.cur.left, h.cur.start, fun run hrun => ?_⟩, rfl, rfl⟩
    rcases List.mem_append.mp hrun with hrun | hrun
    · exact h.cur.runs run hrun
    · obtain rfl := List.mem_singleton.mp hrun
      refine ⟨hsize, hleft.1, ?_, ?_, ?_⟩
      · change pen.runX + pen.buf.length * size ≤ 2147483647
        omega
      · change -2147483648 ≤ pen.runY
        omega
      · change pen.runY + size ≤ max 2147483647 (pen.cur.y + pen.cur.lineH)
        omega

theorem wrapChar_keeps (hsize : 1 ≤ size) (h : pen.Keeps size) {right : Int}
    (hwrap : wrapChar color size pen right = some pen') :
    pen'.Keeps size ∧ pen'.cur.startY = pen.cur.startY := by
  unfold wrapChar at hwrap
  split at hwrap
  · obtain ⟨mid, hnew, hpen⟩ := Option.bind_eq_some_iff.mp hwrap
    obtain rfl := Option.some.inj hpen
    obtain ⟨hflushed, hstart, hbuf⟩ := @flushRun_keeps color size pen hsize h
    obtain ⟨hmid, hstart', _⟩ := newLine_keeps hflushed hnew
    exact ⟨⟨hmid, fun hne => absurd hbuf hne, fun hne => absurd hbuf hne⟩, hstart'.trans hstart⟩
  · obtain rfl := Option.some.inj hwrap
    exact ⟨h, rfl⟩

theorem putChar_keeps (h : pen.Keeps size) {ch : Char} (hput : putChar size pen ch = some pen') :
    pen'.Keeps size ∧ pen'.cur.startY = pen.cur.startY := by
  have hplace : I32 (if pen.buf = [] then { pen with runX := pen.cur.x, runY := pen.cur.y } else pen).runX ∧
      pen.cur.x = (if pen.buf = [] then { pen with runX := pen.cur.x, runY := pen.cur.y }
        else pen).runX + pen.buf.length * size ∧
      (if pen.buf = [] then { pen with runX := pen.cur.x, runY := pen.cur.y } else pen).runY =
        pen.cur.y := by
    split
    · next hbuf =>
      refine ⟨h.cur.x, ?_, rfl⟩
      rw [hbuf]
      simp
    · next hbuf => exact ⟨(h.left hbuf).1, (h.left hbuf).2, (h.top hbuf).1⟩
  obtain ⟨hleft, hx, hy⟩ := hplace
  obtain ⟨x, hright, hpen⟩ := Option.bind_eq_some_iff.mp hput
  obtain rfl := Option.some.inj hpen
  have hcur : (if pen.buf = [] then { pen with runX := pen.cur.x, runY := pen.cur.y }
    else pen).cur = pen.cur := by
    split <;> rfl
  have hbuf : (if pen.buf = [] then { pen with runX := pen.cur.x, runY := pen.cur.y }
    else pen).buf = pen.buf := by
    split <;> rfl
  generalize (if pen.buf = [] then { pen with runX := pen.cur.x, runY := pen.cur.y } else pen) = mid at *
  obtain ⟨cur, buf, runX, runY⟩ := mid
  obtain rfl : cur = pen.cur := hcur
  obtain rfl : buf = pen.buf := hbuf
  obtain ⟨hfits, rfl⟩ := i32_of_add32 hright
  refine ⟨⟨h.cur.higher hfits rfl rfl rfl (le_max_left _ _) rfl, fun _ => ⟨hleft, ?_⟩,
    fun _ => ⟨hy, le_max_right _ _⟩⟩, rfl⟩
  change pen.cur.x + size = runX + ((pen.buf ++ [ch]).length : Nat) * size
  rw [List.length_append, List.length_singleton, hx]
  push_cast
  ring

theorem pushChar_keeps (hsize : 1 ≤ size) (h : pen.Keeps size) {ch : Char}
    (hpush : pushChar color size preserve pen ch = some pen') :
    pen'.Keeps size ∧ pen'.cur.startY = pen.cur.startY := by
  unfold pushChar at hpush
  split at hpush
  · obtain rfl := Option.some.inj hpush
    exact ⟨h, rfl⟩
  · obtain ⟨right, _, hpush⟩ := Option.bind_eq_some_iff.mp hpush
    obtain ⟨mid, hwrap, hput⟩ := Option.bind_eq_some_iff.mp hpush
    obtain ⟨hmid, hstart⟩ := wrapChar_keeps hsize h hwrap
    obtain ⟨hlast, hstart'⟩ := putChar_keeps hmid hput
    exact ⟨hlast, hstart'.trans hstart⟩

theorem pushChars_keeps (hsize : 1 ≤ size) (h : cur.Keeps) (text : List Char)
    (hpush : pushChars cur text color size preserve = some cur') : cur'.Keeps ∧
      cur'.startY = cur.startY := by
  have hall : ∀ (text : List Char) (pen pen' : Pen), pen.Keeps size →
    text.foldlM (pushChar color size preserve) pen = some pen' →
      pen'.Keeps size ∧ pen'.cur.startY = pen.cur.startY := by
    intro text
    induction text with
    | nil =>
      intro pen pen' hpen hfold
      obtain rfl := Option.some.inj hfold
      exact ⟨hpen, rfl⟩
    | cons ch text ih =>
      intro pen pen' hpen hfold
      rw [List.foldlM_cons] at hfold
      obtain ⟨mid, hchar, hfold⟩ := Option.bind_eq_some_iff.mp hfold
      obtain ⟨hmid, hstart⟩ := pushChar_keeps hsize hpen hchar
      obtain ⟨hlast, hstart'⟩ := ih mid pen' hmid hfold
      exact ⟨hlast, hstart'.trans hstart⟩
  obtain ⟨pen, hfold, hlast⟩ := Option.bind_eq_some_iff.mp hpush
  obtain rfl := Option.some.inj hlast
  obtain ⟨hpen, hstart⟩ := hall text ⟨cur, [], cur.x, cur.y⟩ pen ⟨h, fun hne => absurd rfl hne,
    fun hne => absurd rfl hne⟩ hfold
  obtain ⟨hflushed, hstart', _⟩ := @flushRun_keeps color size pen hsize hpen
  exact ⟨hflushed, hstart'.trans hstart⟩

theorem pushText_keeps (hsize : 1 ≤ size) (h : cur.Keeps) (text : List Char)
    (hpush : pushText cur text color size preserve = some cur') : cur'.Keeps ∧
      cur'.startY = cur.startY := by
  have hlines : ∀ (lines : List (List Char)) (cur cur' : InlineCursor), cur.Keeps →
    lines.foldlM (pushLine color size) cur = some cur' →
      cur'.Keeps ∧ cur'.startY = cur.startY := by
    intro lines
    induction lines with
    | nil =>
      intro cur cur' hcur hfold
      obtain rfl := Option.some.inj hfold
      exact ⟨hcur, rfl⟩
    | cons line lines ih =>
      intro cur cur' hcur hfold
      rw [List.foldlM_cons] at hfold
      obtain ⟨mid, hline, hfold⟩ := Option.bind_eq_some_iff.mp hfold
      obtain ⟨below, hnew, hchars⟩ := Option.bind_eq_some_iff.mp hline
      obtain ⟨hbelow, hstart, _⟩ := newLine_keeps hcur hnew
      obtain ⟨hmid, hstart'⟩ := pushChars_keeps hsize hbelow line hchars
      obtain ⟨hlast, hstart''⟩ := ih mid cur' hmid hfold
      exact ⟨hlast, hstart''.trans (hstart'.trans hstart)⟩
  unfold pushText at hpush
  split at hpush
  · split at hpush
    · obtain rfl := Option.some.inj hpush
      exact ⟨h, rfl⟩
    · next line lines _ =>
      obtain ⟨mid, hline, hfold⟩ := Option.bind_eq_some_iff.mp hpush
      obtain ⟨hmid, hstart⟩ := pushChars_keeps hsize h line hline
      obtain ⟨hlast, hstart'⟩ := hlines lines mid cur' hmid hfold
      exact ⟨hlast, hstart'.trans hstart⟩
  · exact pushChars_keeps hsize h _ hpush

end inline

/-! ### Pages -/

section page

variable {doc : Document} {cascade : Cascade}

mutual

theorem emitInline_keeps : (t : Tree) → ∀ (parent : ComputedStyle) (cur cur' : InlineCursor),
    1 ≤ parent.fontSize → cur.Keeps →
    emitInline doc cascade t parent cur = some cur' → cur'.Keeps ∧ cur'.startY = cur.startY
  | .node id children, parent, cur, cur', hsize, h, hemit => by
    have hstyle := compute_fontSize cascade doc id hsize
    have hsame : some cur = some cur' → cur'.Keeps ∧ cur'.startY = cur.startY := by
      intro heq
      obtain rfl := Option.some.inj heq
      exact ⟨h, rfl⟩
    rw [emitInline] at hemit
    dsimp only at hemit
    generalize cascade.compute doc id parent = style at hstyle hemit
    generalize doc.nodes[id]?.map Html.Node.kind = kind at hemit
    match kind with
    | none => exact hsame hemit
    | some .document => exact hsame hemit
    | some (.text text) => exact pushText_keeps hsize h text hemit
    | some (.element name attrs) =>
      dsimp only at hemit
      split at hemit
      · exact hsame hemit
      · split at hemit
        · exact pushReplaced_keeps h hemit
        · exact emitInlines_keeps children style cur cur' hstyle h hemit

theorem emitInlines_keeps : (ts : List Tree) → ∀ (parent : ComputedStyle) (cur cur' : InlineCursor),
    1 ≤ parent.fontSize → cur.Keeps →
    emitInlines doc cascade ts parent cur = some cur' → cur'.Keeps ∧ cur'.startY = cur.startY
  | [], parent, cur, cur', _, h, hemit => by
    rw [emitInlines] at hemit
    obtain rfl := Option.some.inj hemit
    exact ⟨h, rfl⟩
  | t :: ts, parent, cur, cur', hsize, h, hemit => by
    rw [emitInlines] at hemit
    obtain ⟨mid, hfirst, hrest⟩ := Option.bind_eq_some_iff.mp hemit
    obtain ⟨hmid, hstart⟩ := emitInline_keeps t parent cur mid hsize h hfirst
    obtain ⟨hlast, hstart'⟩ := emitInlines_keeps ts parent mid cur' hsize hmid hrest
    exact ⟨hlast, hstart'.trans hstart⟩

end

theorem sub32_eq {a b c : Int} (h : sub32 a b = some c) : c = a - b := eq_of_i32 h

/-- The lines of a run of inline content end above what is below them. -/
theorem layoutInlineRun_placed {run : List Tree} {parent : ComputedStyle}
    (hsize : 1 ≤ parent.fontSize) {x y width height bottom : Int}
    {runs : List GlyphRun} {replaced : List Replaced} (hx : I32 x) (hy : I32 y)
    (hlayout : layoutInlineRun doc cascade run parent x y width = some (runs, replaced, height))
      (hbottom : I32 bottom)
    (heq : bottom = y + height) : ∀ r ∈ runs, r.Placed 2147483647 := by
  obtain ⟨maxX, _, hlayout⟩ := Option.bind_eq_some_iff.mp hlayout
  obtain ⟨cur, hemit, hlayout⟩ := Option.bind_eq_some_iff.mp hlayout
  obtain ⟨lines, hlines, hlayout⟩ := Option.bind_eq_some_iff.mp hlayout
  obtain ⟨sum, hsum, hlayout⟩ := Option.bind_eq_some_iff.mp hlayout
  have hkeeps : (⟨x, y, 0, x, maxX, y, [], []⟩ : InlineCursor).Keeps :=
    ⟨hx, hy, hx, le_rfl, fun _ hrun => nomatch hrun⟩
  obtain ⟨hcur, hstart⟩ := emitInlines_keeps run parent _ cur hsize hkeeps hemit
  obtain rfl := sub32_eq hlines
  obtain rfl := eq_of_add32 hsum
  obtain ⟨rfl, hrest⟩ := Prod.mk.inj (Option.some.inj hlayout)
  obtain ⟨-, rfl⟩ := Prod.mk.inj hrest
  intro r hr
  refine (hcur.runs r hr).mono ?_
  change cur.startY = y at hstart
  unfold I32 at hbottom
  unfold InlineCursor.floor
  omega

theorem closeRun_placed {style : ComputedStyle} (hsize : 1 ≤ style.fontSize) {run : List Tree}
    {place place' : ContentPlace}
    {box box' : LayoutBox} (hx : I32 place.x) (hy : I32 place.y) (hbox : box.RunsPlaced)
    (hclose : closeRun doc cascade style run place box = some (place', box')) : I32 place'.x ∧
      I32 place'.y ∧ box'.RunsPlaced := by
  unfold closeRun at hclose
  split at hclose
  · obtain ⟨rfl, rfl⟩ := Prod.mk.inj (Option.some.inj hclose)
    exact ⟨hx, hy, hbox⟩
  · obtain ⟨⟨runs, replaced, height⟩, hlayout, hclose⟩ := Option.bind_eq_some_iff.mp hclose
    obtain ⟨y, hsum, hclose⟩ := Option.bind_eq_some_iff.mp hclose
    obtain ⟨rfl, rfl⟩ := Prod.mk.inj (Option.some.inj hclose)
    obtain ⟨hfits, heq⟩ := i32_of_add32 hsum
    exact ⟨hx, hfits, hbox.more (layoutInlineRun_placed hsize hx hy hlayout hfits heq) rfl rfl⟩

/-- The content of a block begins at numbers of 32 bits. -/
theorem openBlock_placed {style : ComputedStyle} {x y avail : Int} {box : LayoutBox} {place : ContentPlace}
    (hopen : openBlock style x y avail = some (box, place)) : I32 place.x ∧ I32 place.y ∧
      box.RunsPlaced := by
  obtain ⟨borderX, _, hopen⟩ := Option.bind_eq_some_iff.mp hopen
  obtain ⟨borderY, _, hopen⟩ := Option.bind_eq_some_iff.mp hopen
  obtain ⟨width, _, hopen⟩ := Option.bind_eq_some_iff.mp hopen
  obtain ⟨left, _, hopen⟩ := Option.bind_eq_some_iff.mp hopen
  obtain ⟨right, _, hopen⟩ := Option.bind_eq_some_iff.mp hopen
  obtain ⟨contentX, hx, hopen⟩ := Option.bind_eq_some_iff.mp hopen
  obtain ⟨padding, _, hopen⟩ := Option.bind_eq_some_iff.mp hopen
  obtain ⟨contentY, hy, hopen⟩ := Option.bind_eq_some_iff.mp hopen
  obtain ⟨rfl, rfl⟩ := Prod.mk.inj (Option.some.inj hopen)
  exact ⟨(i32_of_add32 hx).1, (i32_of_add32 hy).1, fun _ hrun => nomatch hrun⟩

theorem childBottom_fits {style : ComputedStyle} {t : Tree} {child : LayoutBox} {bottom : Int}
    (h : childBottom doc cascade style t child = some bottom) : I32 bottom := by
  obtain ⟨_, _, h⟩ := Option.bind_eq_some_iff.mp h
  exact (i32_of_add32 h).1

mutual

theorem layoutBlock_placed : (t : Tree) → ∀ (parent : ComputedStyle) (x y avail : Int)
    (box : LayoutBox), 1 ≤ parent.fontSize →
    layoutBlock doc cascade t parent x y avail = some box → box.RunsPlaced
  | .node id children, parent, x, y, avail, box, hsize, hlayout => by
    have hstyle := compute_fontSize cascade doc id hsize
    have hempty : some (emptyBox x y 0 0 none) = some box → box.RunsPlaced := by
      intro heq
      obtain rfl := Option.some.inj heq
      exact fun _ hrun => nomatch hrun
    rw [layoutBlock] at hlayout
    dsimp only at hlayout
    generalize cascade.compute doc id parent = style at hstyle hlayout
    split at hlayout
    · exact hempty hlayout
    · split at hlayout
      · exact hempty hlayout
      · obtain ⟨⟨start, place⟩, hopen, hlayout⟩ := Option.bind_eq_some_iff.mp hlayout
        obtain ⟨⟨place', filled⟩, hchildren, hclose⟩ := Option.bind_eq_some_iff.mp hlayout
        obtain ⟨hx, hy, hstart⟩ := openBlock_placed hopen
        have hfilled := layoutBlockChildren_placed children style [] place start place' filled
          hstyle hx hy hstart hchildren
        obtain ⟨_, _, hclose⟩ := Option.bind_eq_some_iff.mp hclose
        obtain ⟨_, _, hclose⟩ := Option.bind_eq_some_iff.mp hclose
        obtain ⟨_, _, hclose⟩ := Option.bind_eq_some_iff.mp hclose
        obtain rfl := Option.some.inj hclose
        exact runsPlaced_congr hfilled rfl rfl

theorem layoutBlockChildren_placed : (ts : List Tree) → ∀ (style : ComputedStyle) (run : List Tree)
    (place : ContentPlace)
    (box : LayoutBox) (place' : ContentPlace) (box' : LayoutBox), 1 ≤ style.fontSize → I32 place.x →
      I32 place.y → box.RunsPlaced →
      layoutBlockChildren doc cascade ts style run place box = some (place', box') → box'.RunsPlaced
  | [], style, run, place, box, place', box', hsize, hx, hy, hbox, hlayout => by
    rw [layoutBlockChildren] at hlayout
    exact (closeRun_placed hsize hx hy hbox hlayout).2.2
  | t :: ts, style, run, place, box, place', box', hsize, hx, hy, hbox, hlayout => by
    rw [layoutBlockChildren] at hlayout
    split at hlayout
    · obtain ⟨⟨mid, filled⟩, hclose, hlayout⟩ := Option.bind_eq_some_iff.mp hlayout
      obtain ⟨child, hblock, hlayout⟩ := Option.bind_eq_some_iff.mp hlayout
      obtain ⟨bottom, hbottom, hlayout⟩ := Option.bind_eq_some_iff.mp hlayout
      obtain ⟨hmidx, _, hfilled⟩ := closeRun_placed hsize hx hy hbox hclose
      have hchild := layoutBlock_placed t style mid.x mid.y mid.w child hsize hblock
      have hnext : { filled with children := filled.children ++ [child] }.RunsPlaced :=
        hfilled.child hchild rfl rfl
      exact layoutBlockChildren_placed ts style []
        { mid with y := bottom } _ place' box' hsize hmidx (childBottom_fits hbottom) hnext
        hlayout
    · exact layoutBlockChildren_placed ts style _ place box place' box' hsize hx hy hbox hlayout

end

theorem layoutNodes_placed {viewportW viewportH : Int} {root : LayoutBox}
    (hlayout : layoutNodes doc cascade viewportW viewportH = some root) : root.RunsPlaced := by
  have hsize : 1 ≤ ComputedStyle.initial.fontSize := by decide
  have hall : ∀ (ts : List Tree) (state state' : Int × LayoutBox), state.2.RunsPlaced →
      ts.foldlM (layoutNode doc cascade .initial viewportW) state = some state' → state'.2.RunsPlaced := by
    intro ts
    induction ts with
    | nil =>
      intro state state' hstate hfold
      obtain rfl := Option.some.inj hfold
      exact hstate
    | cons t ts ih =>
      intro state state' hstate hfold
      rw [List.foldlM_cons] at hfold
      obtain ⟨mid, hnode, hfold⟩ := Option.bind_eq_some_iff.mp hfold
      refine ih mid state' ?_ hfold
      unfold layoutNode at hnode
      split at hnode
      · obtain ⟨child, hblock, hnode⟩ := Option.bind_eq_some_iff.mp hnode
        obtain ⟨_, _, hnode⟩ := Option.bind_eq_some_iff.mp hnode
        obtain rfl := Option.some.inj hnode
        exact hstate.child (layoutBlock_placed t _ _ _ _ child hsize hblock) rfl rfl
      · obtain rfl := Option.some.inj hnode
        exact hstate
  obtain ⟨⟨y, anon⟩, hfold, hroot⟩ := Option.bind_eq_some_iff.mp hlayout
  obtain rfl := Option.some.inj hroot
  have hempty : (emptyBox 0 0 viewportW 0 ComputedStyle.initial.background).RunsPlaced :=
    fun _ hrun => nomatch hrun
  exact runsPlaced_congr (hall _ (0, _) (y, anon) hempty hfold) rfl rfl

/-- Every run of a page that is laid out is in its place. -/
theorem layoutDocument_placed {viewportW viewportH : Int} {root : LayoutBox}
    (hlayout : layoutDocument doc viewportW viewportH = some root) : root.RunsPlaced := by
  have hsize : 1 ≤ ComputedStyle.initial.fontSize := by decide
  obtain ⟨box, hroot, hlayout⟩ := Option.bind_eq_some_iff.mp hlayout
  obtain rfl := Option.some.inj hlayout
  refine @runsPlaced_congr box _ ?_ rfl rfl
  unfold layoutRoot at hroot
  split at hroot
  · exact layoutBlock_placed _ _ 0 0 viewportW box hsize hroot
  · exact layoutNodes_placed hroot

end page

end Lerux.Web
