import Mathlib.Data.List.Infix
import Mathlib.Logic.Function.Basic
import Mathlib.Tactic

/-!
# The text page of the console

`screen.rs` keeps 25 rows of 80 cells, a cursor and the state of an escape sequence, and applies the
bytes of the shell one at a time. For each byte it reports the cells that may have changed, and the
handler repaints only those.

Whatever the bytes are, the cursor stays on the page and the device shows the cells. For a text of
printable bytes, carriage returns and newlines, the page is the end of the rows that the text fills:
`rowsOf` cuts the text at its newlines, lets what follows a carriage return overwrite the row it is
on, and wraps what is longer than a row.
-/

namespace Lerux.Console

def COLS : Nat := 80

def ROWS : Nat := 25

def CELLS : Nat := COLS * ROWS

def ATTR : UInt16 := 0x1f00

/-- `hello lerux`, painted on row 0. -/
def BANNER : List UInt8 := "hello lerux".toList.map Char.toUInt8

inductive Ansi where
  | ground
  | esc
  | bracket
  | param (n : UInt8)
deriving DecidableEq, Repr

/-- What a byte changed in the cells. -/
inductive Damage where
  | none
  | cells (start stop : Nat)
  | all
deriving DecidableEq, Repr

abbrev Page : Type := Fin CELLS → UInt16

structure Screen where
  cells : Page
  row : Nat
  col : Nat
  ansi : Ansi

def cell (byte : UInt8) : UInt16 := ATTR ||| byte.toUInt16

def blank : UInt16 := cell ' '.toUInt8

namespace Screen

def blankScreen : Screen where
  cells := fun _ => blank
  row := 0
  col := 0
  ansi := .ground

def withBanner : Screen :=
  { blankScreen with
    cells := fun index => (BANNER[index.val]?.map cell).getD blank
    row := 1 }

def home (screen : Screen) : Screen := { screen with row := 0, col := 0 }

def clear (screen : Screen) : Screen := home { screen with cells := fun _ => blank }

def scroll (screen : Screen) : Screen :=
  -- every row moves up by one
  let moved : Page := fun index => if h : index + COLS < CELLS then screen.cells ⟨index + COLS, h⟩
    else screen.cells index
  { screen with
    cells := fun index => if CELLS - COLS ≤ index then blank else moved index
    row := ROWS - 1
    col := 0 }

/-- Advance a line. Returns whether the page scrolled. -/
def newline (screen : Screen) : Screen × Bool :=
  let screen := { screen with col := 0 }
  if screen.row + 1 ≥ ROWS then (screen.scroll, true)
  else ({ screen with row := screen.row + 1 }, false)

/-- A store past the page is a fault. -/
def put (screen : Screen) (byte : UInt8) : Option (Screen × Damage) :=
  let (screen, scrolled) := if screen.col ≥ COLS then screen.newline else (screen, false)
  let index := screen.row * COLS + screen.col
  if h : index < CELLS then
    some ({ screen with cells := Function.update screen.cells ⟨index, h⟩ (cell byte), col := screen.col + 1 },
      if scrolled then .all else .cells index (index + 1))
  else none

def isAsciiDigit (byte : UInt8) : Bool := '0'.toUInt8 ≤ byte && byte ≤ '9'.toUInt8

def param (screen : Screen) (n byte : UInt8) : Screen × Damage :=
  if isAsciiDigit byte then ({ screen with ansi := .param (byte - '0'.toUInt8) }, .none)
  else
    let screen := { screen with ansi := .ground }
    if byte = 'H'.toUInt8 then (screen.home, .none)
    else if byte = 'J'.toUInt8 ∧ n = 2 then (screen.clear, .all)
    else (screen, .none)

def bracket (screen : Screen) (byte : UInt8) : Screen × Damage :=
  if isAsciiDigit byte then ({ screen with ansi := .param (byte - '0'.toUInt8) }, .none)
  else
    let screen := { screen with ansi := .ground }
    (if byte = 'H'.toUInt8 then screen.home else screen, .none)

def ground (screen : Screen) (byte : UInt8) : Option (Screen × Damage) :=
  if byte = 0x1b then some ({ screen with ansi := .esc }, .none)
  else if byte = '\r'.toUInt8 then some ({ screen with col := 0 }, .none)
  else if byte = '\n'.toUInt8 then
    let (screen, scrolled) := screen.newline
    some (screen, if scrolled then .all else .none)
  else if byte = 0x08 then
    some (if screen.col > 0 then { screen with col := screen.col - 1 } else screen, .none)
  else if 32 ≤ byte ∧ byte ≤ 126 then screen.put byte
  else some (screen, .none)

def applyByte (screen : Screen) (byte : UInt8) : Option (Screen × Damage) :=
  match screen.ansi with
  | .ground => screen.ground byte
  | .esc => some ({ screen with ansi := if byte = '['.toUInt8 then .bracket else .ground }, .none)
  | .bracket => some (screen.bracket byte)
  | .param n => some (screen.param n byte)

end Screen

/-- The handler repaints the damage on the device. -/
def present (screen : Screen) (device : Page) : Damage → Page
  | .none => device
  | .cells start stop => fun index => if start ≤ index ∧ index < stop then screen.cells index
    else device index
  | .all => screen.cells

/-- The handler takes one byte of the shell. -/
def paint (shown : Screen × Page) (byte : UInt8) : Option (Screen × Page) := do
  let (screen, damage) ← shown.1.applyByte byte
  pure (screen, present screen shown.2 damage)

/-- The bytes of the shell on the page with the banner. -/
def paintAll (bytes : List UInt8) : Option (Screen × Page) :=
  bytes.foldlM paint (Screen.withBanner, Screen.withBanner.cells)

/-! ### Every byte -/

def Damage.Covers (index : Fin CELLS) : Damage → Prop
  | .none => False
  | .cells start stop => start ≤ index.val ∧ index.val < stop
  | .all => True

/-- The cursor is on the page, or behind the last column of a row. -/
structure Screen.Inside (screen : Screen) : Prop where
  row : screen.row < ROWS
  col : screen.col ≤ COLS

/-- A step from `screen` that stays inside and reports what it changed. -/
def Screen.Reports (screen : Screen) (result : Option (Screen × Damage)) : Prop :=
  ∃ next damage, result = some (next, damage) ∧ next.Inside ∧
    ∀ index, next.cells index ≠ screen.cells index → damage.Covers index

namespace Screen

theorem inside_withBanner : withBanner.Inside := ⟨by decide, by decide⟩

theorem newline_last {screen : Screen} (h : ROWS ≤ screen.row + 1) :
    screen.newline = (scroll { screen with col := 0 }, true) := if_pos h

theorem newline_next {screen : Screen} (h : screen.row + 1 < ROWS) :
    screen.newline = ({ screen with row := screen.row + 1, col := 0 }, false) := if_neg (by simpa using h)

theorem Inside.newline (screen : Screen) : screen.newline.1.Inside := by
  by_cases hrow : screen.row + 1 < ROWS
  · rw [newline_next hrow]
    exact ⟨hrow, Nat.zero_le _⟩
  · rw [newline_last (Nat.le_of_not_lt hrow)]
    exact ⟨by simp [scroll, ROWS], Nat.zero_le _⟩

/-- Advancing a line leaves the cells alone unless the page scrolls. -/
theorem newline_cells {screen : Screen} (h : screen.newline.2 = false) : screen.newline.1.cells =
    screen.cells := by
  by_cases hrow : screen.row + 1 < ROWS
  · rw [newline_next hrow]
  · rw [newline_last (Nat.le_of_not_lt hrow)] at h
    cases h

theorem newline_col (screen : Screen) : screen.newline.1.col = 0 := by
  by_cases hrow : screen.row + 1 < ROWS
  · rw [newline_next hrow]
  · rw [newline_last (Nat.le_of_not_lt hrow)]
    rfl

/-- A step that leaves the cells alone has nothing to report. -/
theorem Reports.still {screen next : Screen} (h : next.Inside) (hcells : next.cells = screen.cells)
    (damage : Damage) :
    screen.Reports (some (next, damage)) :=
  ⟨next, damage, rfl, h, fun index hne => absurd (congrFun hcells index) hne⟩

/-- A step that only moves the cursor. -/
theorem Reports.moved {screen : Screen} {row col : Nat} (hrow : row < ROWS) (hcol : col ≤ COLS)
    (ansi : Ansi)
    (damage : Damage) : screen.Reports (some ({ screen with row, col, ansi }, damage)) :=
  .still ⟨hrow, hcol⟩ rfl damage

/-- A step that reports all cells. -/
theorem Reports.whole {screen next : Screen} (h : next.Inside) : screen.Reports (some (next, .all)) :=
  ⟨next, .all, rfl, h, fun _ _ => trivial⟩

/-- The store at the cursor of a page whose row has room. -/
theorem reports_store {screen before : Screen} (h : screen.Inside) (hroom : screen.col < COLS)
    (scrolled : Bool)
    (hcells : scrolled = false → screen.cells = before.cells) (byte : UInt8) :
    before.Reports
      (if hlt : screen.row * COLS + screen.col < CELLS then
        some ({ screen with cells := Function.update screen.cells ⟨screen.row * COLS + screen.col, hlt⟩ (cell byte),
                            col := screen.col + 1 },
          if scrolled then .all else .cells (screen.row * COLS + screen.col)
            (screen.row * COLS + screen.col + 1))
      else none) := by
  have hlt : screen.row * COLS + screen.col < CELLS := by
    have := h.row
    simp only [CELLS, COLS, ROWS] at *
    omega
  rw [dif_pos hlt]
  refine ⟨_, _, rfl, ⟨h.row, hroom⟩, fun index hne => ?_⟩
  cases scrolled with
  | true => trivial
  | false =>
    by_cases hindex : index = ⟨screen.row * COLS + screen.col, hlt⟩
    · rw [hindex]
      exact ⟨Nat.le_refl _, Nat.lt_succ_self _⟩
    · have hsame : Function.update screen.cells ⟨screen.row * COLS + screen.col, hlt⟩
        (cell byte) index = before.cells index := by
        rw [Function.update_of_ne hindex, hcells rfl]
      exact absurd hsame hne

theorem reports_put {screen : Screen} (h : screen.Inside) (byte : UInt8) :
    screen.Reports (screen.put byte) := by
  unfold put
  by_cases hfull : screen.col ≥ COLS
  · rw [if_pos hfull]
    have hroom : screen.newline.1.col < COLS := by rw [newline_col]; decide
    exact reports_store (Inside.newline screen) hroom screen.newline.2 newline_cells byte
  · rw [if_neg hfull]
    exact reports_store h (by omega) false (fun _ => rfl) byte

theorem inside_home (screen : Screen) : screen.home.Inside := ⟨by simp [home, ROWS], Nat.zero_le _⟩

theorem reports_ground {screen : Screen} (h : screen.Inside) (byte : UInt8) :
    screen.Reports (screen.ground byte) := by
  unfold ground
  by_cases hesc : byte = 0x1b
  · rw [if_pos hesc]
    exact .moved h.row h.col _ _
  rw [if_neg hesc]
  by_cases hcr : byte = '\r'.toUInt8
  · rw [if_pos hcr]
    exact .moved h.row (Nat.zero_le _) _ _
  rw [if_neg hcr]
  by_cases hnl : byte = '\n'.toUInt8
  · rw [if_pos hnl]
    cases hscrolled : screen.newline.2 with
    | true =>
      simp only [hscrolled]
      exact .whole (Inside.newline screen)
    | false => exact .still (Inside.newline screen) (newline_cells hscrolled) _
  rw [if_neg hnl]
  by_cases hbs : byte = 0x08
  · rw [if_pos hbs]
    by_cases hcol : screen.col > 0
    · rw [if_pos hcol]
      exact .moved h.row (Nat.le_trans (Nat.sub_le _ _) h.col) _ _
    · rw [if_neg hcol]
      exact .still h rfl _
  rw [if_neg hbs]
  by_cases hprint : 32 ≤ byte ∧ byte ≤ 126
  · rw [if_pos hprint]
    exact reports_put h byte
  · rw [if_neg hprint]
    exact .still h rfl _

/-- One byte: no store misses the page, the cursor stays, and what changed is reported. -/
theorem reports_applyByte {screen : Screen} (h : screen.Inside) (byte : UInt8) :
    screen.Reports (screen.applyByte byte) := by
  unfold applyByte
  match screen.ansi with
  | .ground => exact reports_ground h byte
  | .esc => exact .moved h.row h.col _ _
  | .bracket =>
    simp only [bracket]
    split_ifs
    · exact .moved h.row h.col _ _
    · exact .still (inside_home _) rfl _
    · exact .moved h.row h.col _ _
  | .param n =>
    simp only [param]
    split_ifs
    · exact .moved h.row h.col _ _
    · exact .still (inside_home _) rfl _
    · exact .whole (inside_home _)
    · exact .moved h.row h.col _ _

end Screen

/-! ### A run -/

/-- Painting a byte keeps the device equal to the cells. -/
theorem paint_shown {screen next : Screen} {byte : UInt8} {damage : Damage} (h : screen.Inside)
    (happly : screen.applyByte byte = some (next, damage)) :
    paint (screen, screen.cells) byte = some (next, next.cells) ∧ next.Inside := by
  obtain ⟨other, _, hother, hinside, hcovers⟩ := Screen.reports_applyByte h byte
  obtain ⟨rfl, rfl⟩ : next = other ∧ damage = _ := by simpa [happly] using hother
  refine ⟨?_, hinside⟩
  have hpresent : present next screen.cells damage = next.cells := by
    funext index
    cases damage with
    | none => exact (not_not.mp (hcovers index)).symm
    | cells start stop =>
      by_cases hin : start ≤ index.val ∧ index.val < stop
      · exact if_pos hin
      · have hsame : next.cells index = screen.cells index := not_not.mp fun hne => hin (hcovers index hne)
        rw [hsame]
        exact if_neg hin
    | all => rfl
  change (screen.applyByte byte >>= fun r => pure (r.1, present r.1 screen.cells r.2)) = _
  rw [happly]
  exact congrArg (fun page => some (next, page)) hpresent

theorem paint_run {screen : Screen} (h : screen.Inside) (bytes : List UInt8) :
    ∃ last, bytes.foldlM paint (screen, screen.cells) = some (last, last.cells) ∧ last.Inside := by
  induction bytes generalizing screen with
  | nil => exact ⟨screen, rfl, h⟩
  | cons byte bytes ih =>
    obtain ⟨next, damage, happly, _, _⟩ := Screen.reports_applyByte h byte
    obtain ⟨hpaint, hnext⟩ := paint_shown h happly
    rw [List.foldlM_cons, hpaint]
    exact ih hnext

/-! ### A text -/

/-- The bytes of a text: printable ones, carriage returns and newlines. -/
def IsText (byte : UInt8) : Prop := (32 ≤ byte ∧ byte ≤ 126) ∨ byte = '\r'.toUInt8 ∨ byte = '\n'.toUInt8

/-- A line in rows of 80 columns. A row that is just full has no row behind it yet. -/
def wrap (line : List UInt8) : List (List UInt8) :=
  if line.length ≤ COLS then [line] else line.take COLS :: wrap (line.drop COLS)
termination_by line.length
decreasing_by
  simp only [COLS, List.length_drop] at *
  omega

/-- What follows a carriage return is written over the row that the text is on. -/
def overwrite (rows : List (List UInt8)) (piece : List UInt8) : List (List UInt8) :=
  rows.dropLast ++ wrap (piece ++ (rows.getLastD []).drop piece.length)

/-- The rows of a line: its pieces between the carriage returns, one written over the other. -/
def rowsOfLine (line : List UInt8) : List (List UInt8) := (line.splitOn '\r'.toUInt8).foldl overwrite [[]]

/-- The rows of a text: those of its lines, one below the other. -/
def rowsOf (text : List UInt8) : List (List UInt8) := (text.splitOn '\n'.toUInt8).flatMap rowsOfLine

/-- The cell of a row in one column, a blank behind its end. -/
def cellAt (row : List UInt8) (column : Nat) : UInt16 := (row[column]?.map cell).getD blank

/-- The last 25 rows, each filled up with blanks. -/
def pageOf (rows : List (List UInt8)) : Page := fun index =>
  cellAt ((rows.drop (rows.length - ROWS))[index.val / COLS]?.getD []) (index.val % COLS)

/-! ### The sheet -/

/-- A page with no last row. -/
structure Sheet where
  rows : List (List UInt8)
  line : List UInt8
  col : Nat

namespace Sheet

def all (sheet : Sheet) : List (List UInt8) := sheet.rows ++ [sheet.line]

def feed (sheet : Sheet) : Sheet := { rows := sheet.all, line := [], col := 0 }

def back (sheet : Sheet) : Sheet := { sheet with col := 0 }

def store (sheet : Sheet) (byte : UInt8) : Sheet :=
  { sheet with line := sheet.line.take sheet.col ++ byte :: sheet.line.drop (sheet.col + 1), col := sheet.col + 1 }

/-- One byte of a text. The row behind a full one is begun by the byte that needs it. -/
def type (sheet : Sheet) (byte : UInt8) : Sheet :=
  if byte = '\n'.toUInt8 then sheet.feed
  else if byte = '\r'.toUInt8 then sheet.back
  else (if sheet.col ≥ COLS then sheet.feed else sheet).store byte

/-- A piece written over the row `last`, below the rows `above`. -/
def written (above : List (List UInt8)) (last piece : List UInt8) : Sheet :=
  if piece.length ≤ COLS then { rows := above, line := piece ++ last.drop piece.length, col := piece.length }
  else written (above ++ [piece.take COLS]) [] (piece.drop COLS)
termination_by piece.length
decreasing_by
  simp only [COLS, List.length_drop] at *
  omega

theorem written_short {last piece : List UInt8} (h : piece.length ≤ COLS) (above : List (List UInt8)) :
    written above last piece = { rows := above, line := piece ++ last.drop piece.length, col := piece.length } := by
  rw [written, if_pos h]

theorem written_long {last piece : List UInt8} (h : ¬ piece.length ≤ COLS) (above : List (List UInt8)) :
    written above last piece = written (above ++ [piece.take COLS]) [] (piece.drop COLS) := by
  rw [written, if_neg h]

/-- The rows of a written piece. -/
theorem written_all {last : List UInt8} (hlast : last.length ≤ COLS) (above : List (List UInt8))
    (piece : List UInt8) :
    (written above last piece).all = above ++ wrap (piece ++ last.drop piece.length) := by
  induction above, last, piece using written.induct with
  | case1 above last piece hshort =>
    have hfit : (piece ++ last.drop piece.length).length ≤ COLS := by
      rw [List.length_append, List.length_drop]
      omega
    rw [written_short hshort, wrap, if_pos hfit]
    rfl
  | case2 above last piece hlong ih =>
    have hnil : last.drop piece.length = [] := List.drop_eq_nil_of_le (by omega)
    rw [written_long hlong, ih (Nat.zero_le _), hnil, List.append_nil, List.drop_nil,
      List.append_nil, wrap.eq_def piece,
      if_neg hlong, List.append_assoc, List.singleton_append]

theorem type_store {sheet : Sheet} {byte : UInt8} (hcr : byte ≠ '\r'.toUInt8) (hnl : byte ≠ '\n'.toUInt8) :
    sheet.type byte = (if sheet.col ≥ COLS then sheet.feed else sheet).store byte := by
  rw [type, if_neg hnl, if_neg hcr]

/-- One more byte of a piece. -/
theorem written_type {last : List UInt8} (hlast : last.length ≤ COLS) (above : List (List UInt8))
    (piece : List UInt8)
    {byte : UInt8} (hcr : byte ≠ '\r'.toUInt8) (hnl : byte ≠ '\n'.toUInt8) :
    (written above last piece).type byte = written above last (piece ++ [byte]) := by
  induction above, last, piece using written.induct with
  | case1 above last piece hshort =>
    rw [written_short hshort, type_store hcr hnl]
    by_cases hfull : piece.length = COLS
    · -- the row is full: the byte begins the next one
      have hnil : last.drop piece.length = [] := List.drop_eq_nil_of_le (by omega)
      have hlong : ¬ (piece ++ [byte]).length ≤ COLS := by
        rw [List.length_append, List.length_singleton]
        omega
      rw [if_pos (Nat.le_of_eq hfull.symm), written_long hlong, ← hfull, List.take_left, List.drop_left,
        written_short (Nat.le_of_ble_eq_true rfl), hnil, List.append_nil]
      rfl
    · have hroom : piece.length < COLS := by omega
      have hmore : (piece ++ [byte]).length ≤ COLS := by
        rw [List.length_append, List.length_singleton]
        exact hroom
      rw [if_neg (by simpa using hroom), written_short hmore]
      simp [store, List.drop_append]
  | case2 above last piece hlong ih =>
    have hmore : ¬ (piece ++ [byte]).length ≤ COLS := by
      rw [List.length_append]
      omega
    rw [written_long hlong, ih (Nat.zero_le _), written_long hmore,
      List.take_append_of_le_length (by omega),
      List.drop_append_of_le_length (by omega)]

theorem store_self {sheet : Sheet} (h : sheet.col ≤ sheet.line.length) (byte : UInt8) :
    (sheet.store byte).line[sheet.col]? = some byte := by
  have hlen : (sheet.line.take sheet.col).length = sheet.col := List.length_take_of_le h
  rw [store, List.getElem?_append_right (Nat.le_of_eq hlen), hlen, Nat.sub_self]
  rfl

theorem store_other {sheet : Sheet} (h : sheet.col ≤ sheet.line.length) (byte : UInt8) {column : Nat}
    (hne : column ≠ sheet.col) : (sheet.store byte).line[column]? = sheet.line[column]? := by
  have hlen : (sheet.line.take sheet.col).length = sheet.col := List.length_take_of_le h
  rw [store, List.getElem?_append, hlen]
  split
  next hlt => rw [List.getElem?_take_of_lt hlt]
  next hge =>
    obtain ⟨k, hk⟩ : ∃ k, column - sheet.col = k + 1 := ⟨column - sheet.col - 1, by omega⟩
    rw [hk, List.getElem?_cons_succ, List.getElem?_drop, show sheet.col + 1 + k = column by omega]

/-! ### The rows of a text -/

def run (sheet : Sheet) (text : List UInt8) : Sheet := text.foldl type sheet

theorem run_append (sheet : Sheet) (text more : List UInt8) : sheet.run (text ++ more) =
    (sheet.run text).run more :=
  List.foldl_append

/-- A sheet at the start of its last row. -/
def fresh (rows : List (List UInt8)) (last : List UInt8) : Sheet := { rows, line := last, col := 0 }

theorem written_nil (above : List (List UInt8)) (last : List UInt8) : written above last [] =
    fresh above last :=
  written_short (Nat.zero_le _) above

/-- A piece without carriage returns and newlines. -/
theorem run_piece {last : List UInt8} (hlast : last.length ≤ COLS) (above : List (List UInt8))
    {piece : List UInt8}
    (hcr : '\r'.toUInt8 ∉ piece) (hnl : '\n'.toUInt8 ∉ piece) :
    (fresh above last).run piece = written above last piece := by
  induction piece using List.reverseRecOn with
  | nil => exact (written_nil above last).symm
  | append_singleton piece byte ih =>
    rw [List.mem_append, not_or, List.mem_singleton] at hcr hnl
    rw [run_append, ih hcr.1 hnl.1]
    exact written_type hlast above piece (Ne.symm hcr.2) (Ne.symm hnl.2)

theorem written_fits {last : List UInt8} (hlast : last.length ≤ COLS) (above : List (List UInt8))
    (piece : List UInt8) :
    (written above last piece).line.length ≤ COLS := by
  induction above, last, piece using written.induct with
  | case1 above last piece hshort =>
    rw [written_short hshort, List.length_append, List.length_drop]
    omega
  | case2 above last piece hlong ih =>
    rw [written_long hlong]
    exact ih (Nat.zero_le _)

theorem overwrite_ne_nil (rows : List (List UInt8)) (piece : List UInt8) : overwrite rows piece ≠ [] := by
  unfold overwrite
  rw [wrap]
  split <;> simp

/-- At the start of a row that fits. -/
structure Fresh (sheet : Sheet) : Prop where
  col : sheet.col = 0
  fits : sheet.line.length ≤ COLS

theorem Fresh.piece {sheet : Sheet} (h : sheet.Fresh) {piece : List UInt8} (hcr : '\r'.toUInt8 ∉ piece)
    (hnl : '\n'.toUInt8 ∉ piece) : sheet.run piece = written sheet.rows sheet.line piece := by
  have hfresh : sheet = fresh sheet.rows sheet.line := by rw [fresh, ← h.col]
  rw [hfresh]
  exact run_piece h.fits sheet.rows hcr hnl

/-- A piece overwrites the last row of the sheet. -/
theorem Fresh.overwrite {sheet : Sheet} (h : sheet.Fresh) {above rows : List (List UInt8)}
    (hall : sheet.all = above ++ rows)
    (hne : rows ≠ []) {piece : List UInt8} (hcr : '\r'.toUInt8 ∉ piece) (hnl : '\n'.toUInt8 ∉ piece) :
    (sheet.run piece).all = above ++ Console.overwrite rows piece := by
  obtain ⟨inner, row, rfl⟩ : ∃ inner row, rows = inner ++ [row] :=
    ⟨_, _, (List.dropLast_append_getLast hne).symm⟩
  rw [all, ← List.append_assoc] at hall
  obtain ⟨hrows, hline⟩ := List.append_inj' hall rfl
  rw [h.piece hcr hnl, written_all h.fits, hrows, List.singleton_inj.mp hline, Console.overwrite]
  simp

/-- A line without newlines, written from the start of a row on. -/
theorem Fresh.line {line : List UInt8} (hnl : '\n'.toUInt8 ∉ line) {sheet : Sheet} (h : sheet.Fresh)
    {above rows : List (List UInt8)} (hall : sheet.all = above ++ rows) (hne : rows ≠ []) :
    (sheet.run line).all = above ++ (line.splitOn '\r'.toUInt8).foldl Console.overwrite rows := by
  induction hn : line.length using Nat.strong_induction_on generalizing line sheet rows with
  | _ n ih =>
    by_cases hmem : '\r'.toUInt8 ∈ line
    · obtain ⟨piece, rest, rfl, hcr⟩ := List.eq_append_cons_of_mem hmem
      have hpiece : '\n'.toUInt8 ∉ piece := fun hin => hnl (List.mem_append_left _ hin)
      have hrest : '\n'.toUInt8 ∉ rest := fun hin =>
        hnl (List.mem_append_right _ (List.mem_cons_of_mem _ hin))
      have hreturn : sheet.run (piece ++ '\r'.toUInt8 :: rest) = (sheet.run piece).back.run rest :=
        run_append sheet piece _
      have hfits : (sheet.run piece).line.length ≤ COLS := by
        rw [h.piece hcr hpiece]
        exact written_fits h.fits _ _
      have hlast : (sheet.run piece).back.all = above ++ Console.overwrite rows piece :=
        h.overwrite hall hne hcr hpiece
      have hlen : rest.length < n := by
        rw [← hn, List.length_append, List.length_cons]
        omega
      have hback : (sheet.run piece).back.Fresh := ⟨rfl, hfits⟩
      rw [hreturn, ih rest.length hlen hrest hback hlast (overwrite_ne_nil rows piece) rfl,
        List.splitOn_append_cons_self_of_not_mem hcr, List.foldl_cons]
    · rw [h.overwrite hall hne hmem hnl, List.splitOn_eq_singleton hmem]
      rfl

theorem rowsOf_newline {line : List UInt8} (hnl : '\n'.toUInt8 ∉ line) (rest : List UInt8) :
    rowsOf (line ++ '\n'.toUInt8 :: rest) = rowsOfLine line ++ rowsOf rest := by
  rw [rowsOf, List.splitOn_append_cons_self_of_not_mem hnl, List.flatMap_cons]
  rfl

/-- A text, written from the start of an empty row on. -/
theorem run_text (above : List (List UInt8)) (text : List UInt8) :
    ((fresh above []).run text).all = above ++ rowsOf text := by
  induction hn : text.length using Nat.strong_induction_on generalizing above text with
  | _ n ih =>
    have hfresh : (fresh above []).Fresh := ⟨rfl, Nat.zero_le _⟩
    by_cases hmem : '\n'.toUInt8 ∈ text
    · obtain ⟨line, rest, rfl, hnl⟩ := List.eq_append_cons_of_mem hmem
      have hfeed : (fresh above []).run (line ++ '\n'.toUInt8 :: rest) =
        (fresh ((fresh above []).run line).all []).run rest :=
        run_append (fresh above []) line _
      have hlen : rest.length < n := by
        rw [← hn, List.length_append, List.length_cons]
        omega
      rw [hfeed, ih rest.length hlen _ rest rfl, hfresh.line hnl rfl (List.cons_ne_nil _ _),
        rowsOf_newline hnl, List.append_assoc]
      rfl
    · rw [hfresh.line hmem rfl (List.cons_ne_nil _ _), rowsOf, List.splitOn_eq_singleton hmem,
        List.flatMap_singleton]
      rfl

end Sheet

/-! ### The page is the end of the sheet -/

theorem pageOf_apply (rows : List (List UInt8)) (index : Fin CELLS) :
    pageOf rows index = cellAt (rows[rows.length - ROWS + index.val / COLS]?.getD [])
      (index.val % COLS) := by
  rw [pageOf, List.getElem?_drop]

theorem cellAt_nil (column : Nat) : cellAt [] column = blank := rfl

/-- An empty row behind the last one shows nothing new. -/
theorem getD_snoc_nil (rows : List (List UInt8)) (index : Nat) : (rows ++ [[]])[index]?.getD [] =
    rows[index]?.getD [] := by
  rw [List.getElem?_append]
  split
  · rfl
  next h =>
    rw [List.getElem?_eq_none (Nat.le_of_not_lt h)]
    rcases Nat.eq_zero_or_pos (index - rows.length) with hz | hz
    · rw [hz]
      rfl
    · rw [List.getElem?_eq_none (Nat.succ_le_of_lt hz)]

/-- A row other than the last does not depend on it. -/
theorem getElem?_snoc_ne (rows : List (List UInt8)) (line other : List UInt8) {index : Nat}
    (h : index ≠ rows.length) :
    (rows ++ [line])[index]? = (rows ++ [other])[index]? := by
  rw [List.getElem?_append, List.getElem?_append]
  split
  · rfl
  next hge =>
    have hpos : 1 ≤ index - rows.length := by omega
    rw [List.getElem?_eq_none hpos, List.getElem?_eq_none hpos]

/-- The screen shows the end of the sheet. -/
structure Draws (screen : Screen) (sheet : Sheet) : Prop where
  ansi : screen.ansi = .ground
  row : screen.row = min sheet.rows.length (ROWS - 1)
  col : screen.col = sheet.col
  reached : sheet.col ≤ sheet.line.length
  fits : sheet.line.length ≤ COLS
  cells : screen.cells = pageOf sheet.all

namespace Draws

variable {screen : Screen} {sheet : Sheet}

theorem inside (h : Draws screen sheet) : screen.Inside := by
  refine ⟨?_, ?_⟩
  · rw [h.row]
    simp only [ROWS]
    omega
  · rw [h.col]
    exact Nat.le_trans h.reached h.fits

theorem banner : Draws Screen.withBanner (Sheet.fresh [BANNER] []) := by
  refine ⟨rfl, rfl, rfl, Nat.le_refl _, Nat.zero_le _, ?_⟩
  funext index
  have hlen : BANNER.length = 11 := rfl
  rw [Sheet.fresh, Sheet.all, pageOf_apply, getD_snoc_nil]
  change cellAt BANNER index.val = cellAt ([BANNER][0 + index.val / COLS]?.getD []) (index.val % COLS)
  by_cases hfirst : index.val < COLS
  · rw [Nat.div_eq_of_lt hfirst, Nat.mod_eq_of_lt hfirst]
    rfl
  · have hrow : 0 < index.val / COLS := Nat.div_pos (Nat.le_of_not_lt hfirst) (by decide)
    have hpast : BANNER.length ≤ index.val := by
      rw [hlen]
      simp only [COLS] at hfirst
      omega
    rw [List.getElem?_eq_none (Nat.le_trans hrow (Nat.le_add_left _ _)), Option.getD_none,
      cellAt_nil, cellAt, List.getElem?_eq_none hpast]
    rfl

/-- The cells of a sheet with one more row. -/
theorem feed_cells (h : Draws screen sheet) : screen.newline.1.cells = pageOf sheet.feed.all := by
  have hlen : sheet.all.length = sheet.rows.length + 1 := List.length_append
  have hrow := h.row
  have hall : sheet.feed.all = sheet.all ++ [[]] := rfl
  have hlen' : (sheet.all ++ [[]]).length = sheet.rows.length + 2 := by
    rw [List.length_append, hlen]
    rfl
  funext index
  have hindex := index.isLt
  rw [hall, pageOf_apply, getD_snoc_nil, hlen']
  by_cases hnext : screen.row + 1 < ROWS
  · rw [Screen.newline_next hnext]
    change screen.cells index = _
    rw [h.cells, pageOf_apply, hlen]
    simp only [ROWS] at hrow hnext ⊢
    rw [show sheet.rows.length + 1 - 25 = 0 by omega, show sheet.rows.length + 2 - 25 = 0 by omega]
  · rw [Screen.newline_last (Nat.le_of_not_lt hnext)]
    change (if CELLS - COLS ≤ index.val then blank
      else if hin : index.val + COLS < CELLS then screen.cells ⟨index.val + COLS, hin⟩
      else screen.cells index) = _
    simp only [ROWS] at hrow hnext ⊢
    by_cases hlast : CELLS - COLS ≤ index.val
    · -- the row that has come in
      rw [if_pos hlast, List.getElem?_eq_none, Option.getD_none, cellAt_nil]
      rw [hlen]
      simp only [CELLS, COLS, ROWS] at *
      omega
    · have hin : index.val + COLS < CELLS := by omega
      rw [if_neg hlast, dif_pos hin, h.cells, pageOf_apply, hlen]
      have hdiv : (index.val + COLS) / COLS = index.val / COLS + 1 := Nat.add_div_right _ (by decide)
      simp only [hdiv, Nat.add_mod_right, ROWS]
      rw [show sheet.rows.length + 1 - 25 + (index.val / COLS + 1) = sheet.rows.length + 2 - 25 +
        index.val / COLS by omega]

theorem feed (h : Draws screen sheet) : Draws screen.newline.1 sheet.feed := by
  have hcells := h.feed_cells
  have hrow := h.row
  have hlen : sheet.all.length = sheet.rows.length + 1 := List.length_append
  by_cases hnext : screen.row + 1 < ROWS
  · rw [Screen.newline_next hnext] at hcells ⊢
    refine ⟨h.ansi, ?_, rfl, Nat.le_refl _, Nat.zero_le _, hcells⟩
    change screen.row + 1 = min sheet.all.length (ROWS - 1)
    rw [hlen]
    simp only [ROWS] at *
    omega
  · rw [Screen.newline_last (Nat.le_of_not_lt hnext)] at hcells ⊢
    refine ⟨h.ansi, ?_, rfl, Nat.le_refl _, Nat.zero_le _, hcells⟩
    change ROWS - 1 = min sheet.all.length (ROWS - 1)
    rw [hlen]
    simp only [ROWS] at *
    omega

theorem store (h : Draws screen sheet) (hroom : sheet.col < COLS) (byte : UInt8)
    (hlt : screen.row * COLS + screen.col < CELLS) :
    Draws { screen with cells := Function.update screen.cells ⟨screen.row * COLS + screen.col, hlt⟩ (cell byte),
                        col := screen.col + 1 } (sheet.store byte) := by
  have hreached := h.reached
  have hfits := h.fits
  have hlen : (sheet.store byte).line.length = max sheet.line.length (sheet.col + 1) := by
    simp only [Sheet.store, List.length_append, List.length_take, List.length_cons, List.length_drop]
    omega
  refine ⟨h.ansi, h.row, congrArg (· + 1) h.col, ?_, ?_, ?_⟩
  · rw [hlen]
    exact Nat.le_max_right _ _
  · rw [hlen]
    exact Nat.max_le.mpr ⟨hfits, hroom⟩
  funext index
  have hindex := index.isLt
  have hrow := h.row
  have hsize : ∀ line : List UInt8, (sheet.rows ++ [line]).length = sheet.rows.length + 1 :=
    fun _ => List.length_append
  have hcell : screen.cells index =
      cellAt ((sheet.rows ++ [sheet.line])[sheet.rows.length + 1 - ROWS +
        index.val / COLS]?.getD []) (index.val % COLS) := by
    rw [h.cells, pageOf_apply, Sheet.all, hsize]
  change Function.update screen.cells _ _ index = pageOf (sheet.rows ++ [(sheet.store byte).line]) index
  rw [pageOf_apply, hsize]
  by_cases hlast : sheet.rows.length + 1 - ROWS + index.val / COLS = sheet.rows.length
  · rw [hlast, List.getElem?_concat_length] at hcell ⊢
    by_cases hcol : index.val % COLS = sheet.col
    · have hself : index = ⟨screen.row * COLS + screen.col, hlt⟩ := by
        apply Fin.ext
        change index.val = screen.row * COLS + screen.col
        rw [h.col, hrow]
        simp only [CELLS, COLS, ROWS] at *
        omega
      rw [← hself, Function.update_self, hcol, Option.getD_some, cellAt, Sheet.store_self hreached]
      rfl
    · have hne : index ≠ ⟨screen.row * COLS + screen.col, hlt⟩ := by
        intro heq
        have hval : index.val = screen.row * COLS + screen.col := congrArg Fin.val heq
        rw [h.col] at hval
        simp only [COLS] at *
        omega
      rw [Function.update_of_ne hne, hcell, Option.getD_some, Option.getD_some, cellAt, cellAt,
        Sheet.store_other hreached byte hcol]
  · have hne : index ≠ ⟨screen.row * COLS + screen.col, hlt⟩ := by
      intro heq
      have hval : index.val = screen.row * COLS + screen.col := congrArg Fin.val heq
      rw [h.col, hrow] at hval
      simp only [COLS, ROWS] at *
      omega
    rw [Function.update_of_ne hne, hcell, getElem?_snoc_ne sheet.rows sheet.line (sheet.store byte).line hlast]

/-- A printable byte goes to the cursor, or to the next row when this one is full. -/
theorem put (h : Draws screen sheet) (byte : UInt8) :
    ∃ next damage, screen.put byte = some (next, damage) ∧
      Draws next ((if sheet.col ≥ COLS then sheet.feed else sheet).store byte) := by
  have hstore : ∀ {screen : Screen} {sheet : Sheet}, Draws screen sheet → sheet.col < COLS →
      ∃ hlt : screen.row * COLS + screen.col < CELLS,
        Draws { screen with cells := Function.update screen.cells ⟨screen.row * COLS + screen.col, hlt⟩ (cell byte),
                            col := screen.col + 1 } (sheet.store byte) := by
    intro screen sheet h hroom
    have hrow := h.inside.row
    have hcol := h.col
    have hlt : screen.row * COLS + screen.col < CELLS := by
      simp only [CELLS, COLS, ROWS] at *
      omega
    exact ⟨hlt, h.store hroom byte hlt⟩
  unfold Screen.put
  by_cases hfull : sheet.col ≥ COLS
  · obtain ⟨hlt, hnext⟩ := hstore h.feed (show 0 < COLS by decide)
    rw [if_pos hfull, if_pos (h.col ▸ hfull)]
    exact ⟨_, _, dif_pos hlt, hnext⟩
  · obtain ⟨hlt, hnext⟩ := hstore h (Nat.lt_of_not_le hfull)
    rw [if_neg hfull, if_neg (h.col ▸ hfull)]
    exact ⟨_, _, dif_pos hlt, hnext⟩

/-- One byte of a text. -/
theorem step (h : Draws screen sheet) {byte : UInt8} (hbyte : IsText byte) :
    ∃ next damage, screen.applyByte byte = some (next, damage) ∧ Draws next (sheet.type byte) := by
  rw [Screen.applyByte, h.ansi]
  rcases hbyte with hprint | rfl | rfl
  · have hplain : byte ≠ '\r'.toUInt8 ∧ byte ≠ '\n'.toUInt8 ∧ byte ≠ 0x1b ∧ byte ≠ 0x08 := by
      refine ⟨?_, ?_, ?_, ?_⟩ <;> rintro rfl <;> exact absurd hprint.1 (by decide)
    obtain ⟨hcr, hnl, hesc, hbs⟩ := hplain
    rw [Sheet.type_store hcr hnl]
    simp only [Screen.ground]
    rw [if_neg hesc, if_neg hcr, if_neg hnl, if_neg hbs, if_pos hprint]
    exact h.put byte
  · refine ⟨_, _, rfl, h.ansi, h.row, rfl, Nat.zero_le _, h.fits, h.cells⟩
  · exact ⟨_, _, rfl, h.feed⟩

theorem run (h : Draws screen sheet) {text : List UInt8} (htext : ∀ byte ∈ text, IsText byte) :
    ∃ last, text.foldlM paint (screen, screen.cells) = some (last, last.cells) ∧
      Draws last (sheet.run text) := by
  induction text generalizing screen sheet with
  | nil => exact ⟨screen, rfl, h⟩
  | cons byte text ih =>
    obtain ⟨next, damage, happly, hnext⟩ := h.step (htext byte List.mem_cons_self)
    rw [List.foldlM_cons, (paint_shown h.inside happly).1]
    exact ih hnext fun other hin => htext other (List.mem_cons_of_mem _ hin)

end Draws

/-- Whatever the shell has written, the cursor is on the page, the device shows the cells, and the
next byte stores inside the page and reports what it changes. A text leaves the last 25 rows of the
banner and the text. -/
theorem screen_shows (bytes text : List UInt8) (htext : ∀ byte ∈ text, IsText byte) :
    (∃ screen page, paintAll bytes = some (screen, page) ∧ screen.row < ROWS ∧ screen.col ≤ COLS ∧
      page = screen.cells ∧
      ∀ byte, ∃ next damage, screen.applyByte byte = some (next, damage) ∧
        ∀ index, next.cells index ≠ screen.cells index → damage.Covers index) ∧
    ∃ screen, paintAll text = some (screen, screen.cells) ∧
      screen.cells = pageOf (BANNER :: rowsOf text) := by
  constructor
  · obtain ⟨screen, hrun, hinside⟩ := paint_run Screen.inside_withBanner bytes
    refine ⟨screen, screen.cells, hrun, hinside.row, hinside.col, rfl, fun byte => ?_⟩
    obtain ⟨next, damage, happly, _, hcovers⟩ := Screen.reports_applyByte hinside byte
    exact ⟨next, damage, happly, hcovers⟩
  · obtain ⟨screen, hrun, hdraws⟩ := Draws.banner.run htext
    refine ⟨screen, hrun, ?_⟩
    rw [hdraws.cells, Sheet.run_text]
    rfl

/-- `hi`, a carriage return and `o`, after a clear of the page. -/
theorem screen_shows_hi :
    (∃ screen page, paintAll [0x1b, 0x5b, 0x32, 0x4a] = some (screen, page) ∧ screen.row < ROWS ∧
      screen.col ≤ COLS ∧
      page = screen.cells ∧ ∀ byte, ∃ next damage, screen.applyByte byte = some (next, damage) ∧
        ∀ index, next.cells index ≠ screen.cells index → damage.Covers index) ∧
    ∃ screen, paintAll [0x68, 0x69, 0x0d, 0x6f] = some (screen, screen.cells) ∧
      screen.cells = pageOf (BANNER :: rowsOf [0x68, 0x69, 0x0d, 0x6f]) :=
  screen_shows [0x1b, 0x5b, 0x32, 0x4a] [0x68, 0x69, 0x0d, 0x6f] (by unfold IsText; decide +kernel)

end Lerux.Console
