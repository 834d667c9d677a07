import Lerux.Desk.Chrome

/-!
# Editing the address line

A line as a person edits it: characters before the cursor and behind it (`TextLine`). The edits of
`LineEdit` work on single bytes. They are those of the text line where the character that is deleted
or passed is one byte (`shows_editKey`), and so long as no other is, the line is the bytes of
characters (`line_faithful`). Other characters come into the line with a text that is rejected.
-/

namespace Lerux.Desk

/-! ### Bytes of characters -/

section bytes

variable {c : Char} {a b t : List Char}

@[simp] theorem asBytes_nil : asBytes [] = [] := rfl

@[simp] theorem asBytes_append : asBytes (a ++ b) = asBytes a ++ asBytes b := List.flatMap_append

theorem asBytes_cons : asBytes (c :: t) = String.utf8EncodeChar c ++ asBytes t := List.flatMap_cons

@[simp] theorem length_asBytes : (asBytes t).length = byteLen t := by
  rw [asBytes, List.length_flatMap, byteLen, funext String.length_utf8EncodeChar]

theorem fromUtf8_asBytes (t : List Char) : fromUtf8 (asBytes t) = some t := by
  have harray : ByteArray.mk (asBytes t).toArray = t.utf8Encode := by
    apply ByteArray.ext
    rw [List.utf8Encode, List.data_toByteArray]
    rfl
  rw [fromUtf8, harray, List.utf8Decode?_utf8Encode]
  rfl

/-- A byte of a character, at its place in a text. -/
theorem getElem?_asBytes {i : Nat} (hi : i < c.utf8Size) : (asBytes (a ++ c :: b))[byteLen a + i]? =
    (String.utf8EncodeChar c)[i]? := by
  rw [asBytes_append, asBytes_cons, ← length_asBytes,
    List.getElem?_append_right (Nat.le_add_right _ _), Nat.add_sub_cancel_left,
    List.getElem?_append_left (by rwa [String.length_utf8EncodeChar])]

/-- A character of a text is one byte if and only if a byte of it is below 128. -/
theorem utf8Size_eq_one_iff {i : Nat} (hi : i < c.utf8Size) :
    c.utf8Size = 1 ↔ ∀ x, (asBytes (a ++ c :: b))[byteLen a + i]? = some x → x < 128 := by
  have hlt : i < (String.utf8EncodeChar c).length := by rwa [String.length_utf8EncodeChar]
  rw [getElem?_asBytes hi, List.getElem?_eq_getElem hlt, utf8Size_eq_one_iff_of_mem (List.getElem_mem hlt)]
  exact ⟨fun h x hx => Option.some.inj hx ▸ h, fun h => h _ rfl⟩

end bytes

/-! ### The line as characters -/

structure TextLine where
  before : List Char
  behind : List Char
  selection : Selection

namespace TextLine

def chars (line : TextLine) : List Char := line.before ++ line.behind

def insert (line : TextLine) (c : Char) : TextLine :=
  match line.selection with
  | .all => ⟨[c], [], .caret⟩
  | .caret => if lineCap ≤ byteLen line.chars then line else { line with before := line.before ++ [c] }

def backspace (line : TextLine) : TextLine :=
  match line.selection with
  | .all => ⟨[], [], .caret⟩
  | .caret => { line with before := line.before.dropLast }

def left (line : TextLine) : TextLine :=
  match line.selection with
  | .all => ⟨[], line.chars, .caret⟩
  | .caret => { line with before := line.before.dropLast, behind := line.before.getLast?.toList ++
    line.behind }

def right (line : TextLine) : TextLine :=
  match line.selection with
  | .all => ⟨line.chars, [], .caret⟩
  | .caret => { line with before := line.before ++ line.behind.take 1, behind := line.behind.drop 1 }

/-- The edit that a key is for. -/
def editKey (line : TextLine) : Key → TextLine
  | .backspace => line.backspace
  | .left => line.left
  | .right => line.right
  | .char ch => if 0x20 ≤ ch ∧ ch ≤ 0x7E then line.insert (Char.ofNat ch.toNat) else line
  | _ => line

end TextLine

/-- The bytes are those of the characters, and the cursor is behind the bytes of those before it. -/
def TextLine.edit (line : TextLine) : LineEdit := ⟨asBytes line.chars, byteLen line.before, line.selection⟩

structure Shows (edit : LineEdit) (line : TextLine) : Prop where
  eq : edit = line.edit
  fits : byteLen line.chars ≤ lineCap

/-- What a key deletes or passes is one byte: it is below 128, or there is none. -/
def SingleByte (edit : LineEdit) (key : Key) : Prop :=
  edit.selection = .caret → ((key = .backspace ∨ key = .left) → edit.cursor ≠ 0 → ∀ x,
    edit.bytes[edit.cursor - 1]? = some x → x < 128) ∧
    (key = .right → ∀ x, edit.bytes[edit.cursor]? = some x → x < 128)

section shows

variable {edit : LineEdit} {line : TextLine}

theorem Shows.text (h : Shows edit line) : edit.text = line.chars := by
  rw [h.eq, LineEdit.text, TextLine.edit, fromUtf8_asBytes, Option.getD_some]

theorem shows_empty : Shows .empty ⟨[], [], .caret⟩ := ⟨rfl, Nat.zero_le _⟩

theorem shows_setText (h : Shows edit line) (text : List Char) :
    Shows (edit.setText text) (if lineCap < byteLen text then line else ⟨text, [], .caret⟩) := by
  rw [LineEdit.setText]
  split
  · exact h
  · next hfits =>
    refine ⟨?_, by simpa [TextLine.chars] using hfits⟩
    rw [TextLine.edit, TextLine.chars, List.append_nil, length_asBytes]

theorem chars_all (text : List Char) (selection : Selection) :
    TextLine.chars ⟨text, [], selection⟩ = text := List.append_nil text

/-- An address is shown whole. -/
theorem shows_fromUrl (url : HttpsUrl) (selection : Selection) :
    Shows (.fromUrl url selection) (match selection with
      | .all => ⟨[], url.text, .all⟩
      | .caret => ⟨url.text, [], .caret⟩) := by
  have hall : (asBytes url.text).take lineCap = asBytes url.text :=
    List.take_of_length_le (by simpa using url.fits)
  cases selection with
  | all =>
    refine ⟨?_, url.fits⟩
    show (⟨(asBytes url.text).take lineCap, 0, .all⟩ : LineEdit) = _
    rw [hall]
    rfl
  | caret =>
    refine ⟨?_, (chars_all url.text .caret).symm ▸ url.fits⟩
    show (⟨(asBytes url.text).take lineCap, ((asBytes url.text).take lineCap).length,
      .caret⟩ : LineEdit) = _
    rw [hall, length_asBytes, TextLine.edit, chars_all]

theorem shows_selectAll (h : Shows edit line) : Shows { edit with selection := .all, cursor := 0 }
    ⟨[], line.chars, .all⟩ := by
  rw [h.eq]
  exact ⟨rfl, h.fits⟩

/-- The byte before the cursor is below 128 if and only if the character there is one byte. -/
theorem singleByte_before {init behind : List Char} {c : Char} (key : Key)
    (hkey : key = .backspace ∨ key = .left) :
    SingleByte ⟨asBytes (init ++ [c] ++ behind), byteLen (init ++ [c]), .caret⟩ key ↔ c.utf8Size = 1 := by
  have hpos := c.utf8Size_pos
  have hcursor : byteLen (init ++ [c]) - 1 = byteLen init + (c.utf8Size - 1) := by
    rw [byteLen_append, byteLen_cons, byteLen_nil]
    omega
  have hne : byteLen (init ++ [c]) ≠ 0 := by
    rw [byteLen_append, byteLen_cons, byteLen_nil]
    omega
  rw [@utf8Size_eq_one_iff c init behind (c.utf8Size - 1) (by omega), ← hcursor,
    ← List.append_cons init c behind]
  have hright : key ≠ .right := by
    rintro rfl
    cases hkey with
    | inl h => cases h
    | inr h => cases h
  exact ⟨fun h => (h rfl).1 hkey hne, fun h _ => ⟨fun _ _ => h, fun h' => absurd h' hright⟩⟩

theorem singleByte_behind {before rest : List Char} {c : Char} :
    SingleByte ⟨asBytes (before ++ c :: rest), byteLen before, .caret⟩ .right ↔ c.utf8Size = 1 := by
  rw [utf8Size_eq_one_iff (a := before) (b := rest) c.utf8Size_pos]
  refine ⟨fun h => (h rfl).2 rfl, fun h _ => ⟨fun h' => ?_, fun _ => h⟩⟩
  cases h' with
  | inl h => cases h
  | inr h => cases h

theorem edit_backspace (line : TextLine) : line.edit.backspace = line.backspace.edit ↔
    SingleByte line.edit .backspace := by
  obtain ⟨before, behind, selection⟩ := line
  cases selection with
  | all => exact iff_of_true rfl fun hcaret => Selection.noConfusion hcaret
  | caret =>
    obtain rfl | ⟨init, c, rfl⟩ := before.eq_nil_or_concat'
    · exact iff_of_true rfl fun _ => ⟨fun _ hne => absurd rfl hne, fun hkey => Key.noConfusion hkey⟩
    · have hpos := c.utf8Size_pos
      have hlen : byteLen (init ++ [c]) = byteLen init + c.utf8Size := by simp
      have hedit : LineEdit.backspace (TextLine.edit ⟨init ++ [c], behind, .caret⟩) =
          ⟨(asBytes (init ++ [c] ++ behind)).take (byteLen (init ++ [c]) - 1) ++
            (asBytes (init ++ [c] ++ behind)).drop (byteLen (init ++ [c])),
              byteLen (init ++ [c]) - 1, .caret⟩ :=
        if_neg (by
          show byteLen (init ++ [c]) ≠ 0
          omega)
      have hline : TextLine.backspace ⟨init ++ [c], behind, .caret⟩ = ⟨init, behind, .caret⟩ := by
        rw [TextLine.backspace]
        simp
      refine Iff.trans ?_ (singleByte_before .backspace (.inl rfl)).symm
      rw [hedit, hline]
      constructor
      · intro h
        have hcursor : byteLen (init ++ [c]) - 1 = byteLen init := congrArg LineEdit.cursor h
        omega
      · intro hone
        have hdrop : (asBytes (init ++ [c] ++ behind)).drop (byteLen (init ++ [c])) = asBytes behind := by
          rw [asBytes_append, ← length_asBytes, List.drop_left]
        have htake : (asBytes (init ++ [c] ++ behind)).take (byteLen (init ++ [c]) - 1) = asBytes init := by
          rw [hlen, hone, Nat.add_sub_cancel, List.append_assoc, asBytes_append, ← length_asBytes,
            List.take_left]
        rw [hdrop, htake, hlen, hone, Nat.add_sub_cancel, TextLine.edit, TextLine.chars, asBytes_append]

theorem edit_left (line : TextLine) : line.edit.left = line.left.edit ↔ SingleByte line.edit .left := by
  obtain ⟨before, behind, selection⟩ := line
  cases selection with
  | all => exact iff_of_true rfl fun hcaret => Selection.noConfusion hcaret
  | caret =>
    obtain rfl | ⟨init, c, rfl⟩ := before.eq_nil_or_concat'
    · exact iff_of_true rfl fun _ => ⟨fun _ hne => absurd rfl hne, fun hkey => Key.noConfusion hkey⟩
    · have hpos := c.utf8Size_pos
      have hlen : byteLen (init ++ [c]) = byteLen init + c.utf8Size := by simp
      have hline : TextLine.left ⟨init ++ [c], behind, .caret⟩ = ⟨init, c :: behind, .caret⟩ := by
        rw [TextLine.left]
        simp
      refine Iff.trans ?_ (singleByte_before .left (.inr rfl)).symm
      rw [hline]
      constructor
      · intro h
        have hcursor : byteLen (init ++ [c]) - 1 = byteLen init := congrArg LineEdit.cursor h
        omega
      · intro hone
        show (⟨asBytes (init ++ [c] ++ behind), byteLen (init ++ [c]) - 1, .caret⟩ : LineEdit) = _
        rw [hlen, hone, Nat.add_sub_cancel, ← List.append_cons]
        rfl

theorem edit_right (line : TextLine) : line.edit.right = line.right.edit ↔ SingleByte line.edit .right := by
  obtain ⟨before, behind, selection⟩ := line
  cases selection with
  | all =>
    refine iff_of_true ?_ fun hcaret => Selection.noConfusion hcaret
    show (⟨asBytes (before ++ behind), (asBytes (before ++ behind)).length, .caret⟩ : LineEdit) =
      TextLine.edit ⟨before ++ behind, [], .caret⟩
    rw [length_asBytes, TextLine.edit, chars_all]
  | caret =>
    cases behind with
    | nil =>
      have hend : ¬byteLen before < (asBytes (before ++ [])).length := by simp
      have hnone : (asBytes (before ++ []))[byteLen before]? = none :=
        List.getElem?_eq_none (Nat.le_of_not_lt hend)
      refine iff_of_true ?_ fun _ => ⟨fun hkey => ?_, fun _ x hx => by cases hnone.symm.trans hx⟩
      · have hright : LineEdit.right (TextLine.edit ⟨before, [], .caret⟩) =
          TextLine.edit ⟨before, [], .caret⟩ := if_neg hend
        rw [hright]
        simp [TextLine.right]
      · cases hkey with
        | inl h => cases h
        | inr h => cases h
    | cons c rest =>
      have hpos := c.utf8Size_pos
      have hlt : byteLen before < (asBytes (before ++ c :: rest)).length := by
        rw [length_asBytes, byteLen_append, byteLen_cons]
        omega
      have hedit : LineEdit.right (TextLine.edit ⟨before, c :: rest, .caret⟩) =
        ⟨asBytes (before ++ c :: rest), byteLen before + 1, .caret⟩ :=
        if_pos hlt
      have hline : TextLine.right ⟨before, c :: rest, .caret⟩ = ⟨before ++ [c], rest, .caret⟩ := rfl
      have hlen : byteLen (before ++ [c]) = byteLen before + c.utf8Size := by simp
      refine Iff.trans ?_ (singleByte_behind).symm
      rw [hedit, hline]
      constructor
      · intro h
        have hcursor : byteLen before + 1 = byteLen (before ++ [c]) := congrArg LineEdit.cursor h
        omega
      · intro hone
        rw [TextLine.edit, TextLine.chars, hlen, hone, ← List.append_cons]

theorem utf8EncodeChar_ofNat {ch : UInt8} (hch : 0x20 ≤ ch ∧ ch ≤ 0x7E) :
    String.utf8EncodeChar (Char.ofNat ch.toNat) = [ch] := by
  have hlt : ch.toNat < 127 := Nat.lt_of_le_of_lt (UInt8.le_iff_toNat_le.mp hch.2) (by decide)
  have hall : ∀ n < 127, String.utf8EncodeChar (Char.ofNat n) = [.ofNat n] := by decide +kernel
  rw [hall ch.toNat hlt, UInt8.ofNat_toNat]

/-- A printable key puts its character before the cursor, where there is room for a byte. -/
theorem edit_insert (line : TextLine) {ch : UInt8} (hch : 0x20 ≤ ch ∧ ch ≤ 0x7E) :
    line.edit.insert ch = (line.insert (Char.ofNat ch.toNat)).edit := by
  obtain ⟨before, behind, selection⟩ := line
  have hone : asBytes [Char.ofNat ch.toNat] = [ch] := by
    rw [asBytes_cons, utf8EncodeChar_ofNat hch, asBytes_nil, List.append_nil]
  have hlen : byteLen [Char.ofNat ch.toNat] = 1 := by rw [← length_asBytes, hone, List.length_singleton]
  cases selection with
  | all =>
    show (⟨[ch], 1, .caret⟩ : LineEdit) = TextLine.edit ⟨[Char.ofNat ch.toNat], [], .caret⟩
    rw [TextLine.edit, chars_all, hone, hlen]
  | caret =>
    by_cases hfull : lineCap ≤ byteLen (before ++ behind)
    · have hline : TextLine.insert ⟨before, behind, .caret⟩ (Char.ofNat ch.toNat) =
        ⟨before, behind, .caret⟩ := if_pos hfull
      rw [hline]
      exact if_pos (by
        show lineCap ≤ (asBytes (before ++ behind)).length
        rwa [length_asBytes])
    · have hline : TextLine.insert ⟨before, behind, .caret⟩ (Char.ofNat ch.toNat) =
        ⟨before ++ [Char.ofNat ch.toNat], behind, .caret⟩ :=
        if_neg hfull
      have hmin : min (byteLen before) (asBytes (before ++ behind)).length = byteLen before := by simp
      have hinsert : LineEdit.insert (TextLine.edit ⟨before, behind, .caret⟩) ch =
          ⟨(asBytes (before ++ behind)).take (byteLen before) ++ ch ::
            (asBytes (before ++ behind)).drop (byteLen before),
            byteLen before + 1, .caret⟩ := by
        have hroom : ¬lineCap ≤ (asBytes (before ++ behind)).length := by rwa [length_asBytes]
        refine (if_neg hroom).trans ?_
        show (⟨(asBytes (before ++ behind)).take
          (min (byteLen before) (asBytes (before ++ behind)).length) ++
          ch :: (asBytes (before ++ behind)).drop
            (min (byteLen before) (asBytes (before ++ behind)).length),
          min (byteLen before) (asBytes (before ++ behind)).length + 1, .caret⟩ : LineEdit) = _
        rw [hmin]
      rw [hline, hinsert, TextLine.edit, TextLine.chars, byteLen_append, hlen]
      simp only [asBytes_append, asBytes_cons, utf8EncodeChar_ofNat hch, ← length_asBytes,
        List.take_left, List.drop_left, List.append_assoc,
        List.singleton_append]

theorem byteLen_dropLast_le (t : List Char) : byteLen t.dropLast ≤ byteLen t := by
  obtain rfl | ⟨init, c, rfl⟩ := t.eq_nil_or_concat'
  · exact Nat.le_refl _
  · simp

theorem fits_editKey (hfits : byteLen line.chars ≤ lineCap) (key : Key) :
    byteLen (line.editKey key).chars ≤ lineCap := by
  obtain ⟨before, behind, selection⟩ := line
  cases key with
  | backspace =>
    cases selection with
    | all => exact Nat.zero_le _
    | caret =>
      have hle := byteLen_dropLast_le before
      simp only [TextLine.chars, byteLen_append, TextLine.editKey, TextLine.backspace] at hfits ⊢
      omega
  | left =>
    cases selection with
    | all => exact hfits
    | caret =>
      obtain rfl | ⟨init, c, rfl⟩ := before.eq_nil_or_concat'
      · exact hfits
      · simpa [TextLine.chars, TextLine.editKey, TextLine.left] using hfits
  | right =>
    cases selection with
    | all => exact (chars_all _ _).symm ▸ hfits
    | caret =>
      cases behind with
      | nil => simpa [TextLine.chars, TextLine.editKey, TextLine.right] using hfits
      | cons c rest => simpa [TextLine.chars, TextLine.editKey, TextLine.right] using hfits
  | char ch =>
    rw [TextLine.editKey]
    split
    · next hch =>
      have hlen : byteLen [Char.ofNat ch.toNat] = 1 := by
        rw [← length_asBytes, asBytes_cons, utf8EncodeChar_ofNat hch]
        rfl
      cases selection with
      | all =>
        show byteLen ([Char.ofNat ch.toNat] ++ []) ≤ lineCap
        rw [List.append_nil, hlen]
        decide
      | caret =>
        by_cases hfull : lineCap ≤ byteLen (before ++ behind)
        · have hline : TextLine.insert ⟨before, behind, .caret⟩ (Char.ofNat ch.toNat) =
            ⟨before, behind, .caret⟩ := if_pos hfull
          rw [hline]
          exact hfits
        · have hline : TextLine.insert ⟨before, behind, .caret⟩ (Char.ofNat ch.toNat) =
            ⟨before ++ [Char.ofNat ch.toNat], behind, .caret⟩ :=
            if_neg hfull
          rw [byteLen_append] at hfull
          rw [hline]
          show byteLen (before ++ [Char.ofNat ch.toNat] ++ behind) ≤ lineCap
          rw [byteLen_append, byteLen_append, hlen]
          omega
    · exact hfits
  | enter => exact hfits
  | escape => exact hfits
  | tab => exact hfits
  | up => exact hfits
  | down => exact hfits

/-- A key is the edit of the characters if and only if what it deletes or passes is one byte. -/
theorem shows_editKey (h : Shows edit line) (key : Key) :
    Shows (Chrome.editKey edit key) (line.editKey key) ↔ SingleByte edit key := by
  obtain ⟨rfl, hfits⟩ := h
  have hfits' := fits_editKey hfits key
  have hother : Chrome.editKey line.edit key = (line.editKey key).edit →
    (key ≠ .backspace ∧ key ≠ .left ∧ key ≠ .right) →
      (Shows (Chrome.editKey line.edit key) (line.editKey key) ↔ SingleByte line.edit key) := by
    rintro heq ⟨hbackspace, hleft, hright⟩
    refine iff_of_true ⟨heq, hfits'⟩ fun _ => ⟨fun hkey => ?_, fun hkey => absurd hkey hright⟩
    obtain rfl | rfl := hkey
    · exact absurd rfl hbackspace
    · exact absurd rfl hleft
  cases key with
  | backspace => exact ⟨fun h => (edit_backspace line).mp h.eq,
    fun h => ⟨(edit_backspace line).mpr h, hfits'⟩⟩
  | left => exact ⟨fun h => (edit_left line).mp h.eq, fun h => ⟨(edit_left line).mpr h, hfits'⟩⟩
  | right => exact ⟨fun h => (edit_right line).mp h.eq, fun h => ⟨(edit_right line).mpr h, hfits'⟩⟩
  | char ch =>
    refine hother ?_ ⟨Key.noConfusion, Key.noConfusion, Key.noConfusion⟩
    by_cases hch : 0x20 ≤ ch ∧ ch ≤ 0x7E
    · rw [Chrome.editKey, if_pos hch, TextLine.editKey, if_pos hch, edit_insert line hch]
    · rw [Chrome.editKey, if_neg hch, TextLine.editKey, if_neg hch]
  | enter => exact hother rfl ⟨Key.noConfusion, Key.noConfusion, Key.noConfusion⟩
  | escape => exact hother rfl ⟨Key.noConfusion, Key.noConfusion, Key.noConfusion⟩
  | tab => exact hother rfl ⟨Key.noConfusion, Key.noConfusion, Key.noConfusion⟩
  | up => exact hother rfl ⟨Key.noConfusion, Key.noConfusion, Key.noConfusion⟩
  | down => exact hother rfl ⟨Key.noConfusion, Key.noConfusion, Key.noConfusion⟩

end shows

/-! ### Runs of the chrome -/

/-- The chromes after a start with a text, or after a link that is rejected, and then keys and
paints, where `Met` is the condition on the keys of a line. -/
inductive Reached (Met : LineEdit → Key → Prop) : Chrome → Prop
  | boot (text : List Char) (policy : NamePolicy) : Reached Met (Chrome.bootLoad text policy).1
  | rejected (c : Chrome) (attempted : List Char) : Reached Met (c.rejectFromPage attempted).1
  | key {c c' : Chrome} {event : KeyEvent} {policy : NamePolicy} {links : List (List Char)}
      {effect : Effect} : Reached Met c →
      (∀ edit shown flight, c.inner = .line edit shown flight → event.ctrl = false → Met edit event.key) →
      c.onKey event policy links = some (c', effect) → Reached Met c'
  | accept {c : Chrome} (id : Nat) (outcome : PaintOutcome) : Reached Met c →
      Reached Met (c.accept id outcome).1

/-- The line of a chrome, if it has one, is the bytes of characters. -/
def Whole (c : Chrome) : Prop := ∀ edit shown flight, c.inner = .line edit shown flight → ∃ line,
    Shows edit line

/-- What is asked of the line of a chrome: it is the bytes of characters, which it reads as, and a
key that meets the condition is the edit of the characters. -/
def LineOk (Met : LineEdit → Key → Prop) (c : Chrome) : Prop :=
  ∀ edit shown flight, c.inner = .line edit shown flight → ∃ line, Shows edit line ∧
    edit.cursor ≤ edit.bytes.length ∧ edit.bytes.length ≤ lineCap ∧ edit.text = line.chars ∧
      edit.bytes = asBytes edit.text ∧
    ∀ key, (Met edit key ↔ Shows (Chrome.editKey edit key) (line.editKey key)) ∧
      ∀ policy links, key ≠ .enter → key ≠ .escape →
        c.onKey ⟨key, false⟩ policy links =
          some ({ c with inner := .line (Chrome.editKey edit key) shown flight }, .none)

section runs

variable {c c' : Chrome} {edit : LineEdit} {shown : Shown} {flight : Flight} {focus : LinkFocus}
  {url : HttpsUrl} {id next : Nat}
  {event : KeyEvent} {policy : NamePolicy} {links : List (List Char)} {effect : Effect}

theorem whole_line (h : ∃ line, Shows edit line) : Whole ⟨.line edit shown flight, next⟩ := by
  rintro _ _ _ ⟨⟩
  exact h

theorem whole_loading : Whole ⟨.loading url id shown focus, next⟩ := by
  rintro _ _ _ ⟨⟩

theorem whole_reading : Whole ⟨.reading url focus, next⟩ := by
  rintro _ _ _ ⟨⟩

theorem exists_fromUrl (url : HttpsUrl) (selection : Selection) :
    ∃ line, Shows (.fromUrl url selection) line :=
  ⟨_, shows_fromUrl url selection⟩

theorem whole_rejectLine (h : Whole c) : Whole c.rejectLine.1 := by
  obtain ⟨inner, next⟩ := c
  cases inner with
  | line edit shown flight => exact whole_line (h edit shown flight rfl)
  | loading => exact h
  | reading => exact h

theorem whole_bootLoad (text : List Char) (policy : NamePolicy) :
    Whole (Chrome.bootLoad text policy).1 := by
  unfold Chrome.bootLoad
  cases classify text policy with
  | empty => exact whole_line ⟨_, shows_empty⟩
  | url url => exact whole_loading
  | rejected reason => exact whole_rejectLine (whole_line ⟨_, shows_setText shows_empty text⟩)

theorem whole_rejectFromPage (c : Chrome) (attempted : List Char) : Whole (c.rejectFromPage attempted).1 :=
  whole_line ⟨_, shows_setText shows_empty attempted⟩

theorem whole_afterEscape (h : ∃ line, Shows edit line) : Whole ⟨afterEscape shown edit, next⟩ := by
  cases shown with
  | page page => exact whole_reading
  | blank => exact whole_line h
  | failed reason => exact whole_line h

theorem whole_escape (h : Whole c) : Whole c.escape.1 := by
  obtain ⟨inner, next⟩ := c
  cases inner with
  | line edit shown flight =>
    cases flight with
    | idle => exact whole_afterEscape (h edit shown .idle rfl)
    | inFlight url id => exact whole_afterEscape (h edit shown (.inFlight url id) rfl)
  | loading target id shown focus => exact whole_afterEscape (exists_fromUrl target .caret)
  | reading => exact whole_reading

theorem whole_focusLine (h : Whole c) : Whole c.focusLine := by
  obtain ⟨inner, next⟩ := c
  cases inner with
  | line edit shown flight =>
    obtain ⟨line, hline⟩ := h edit shown flight rfl
    exact whole_line ⟨_, shows_selectAll hline⟩
  | loading target id shown focus => exact whole_line (exists_fromUrl target .all)
  | reading page focus => exact whole_line (exists_fromUrl page .all)

theorem whole_enter (h : Whole c) : Whole (c.enter policy).1 := by
  obtain ⟨inner, next⟩ := c
  cases inner with
  | line edit shown flight =>
    unfold Chrome.enter
    dsimp only
    cases classify edit.text policy with
    | empty => exact h
    | rejected reason => exact whole_rejectLine h
    | url url => exact whole_loading
  | loading => exact h
  | reading => exact h

theorem whole_onLineKey (h : Whole c)
    (hsingle : ∀ edit shown flight, c.inner = .line edit shown flight → event.ctrl = false →
      SingleByte edit event.key) :
    Whole (c.onLineKey event policy).1 := by
  unfold Chrome.onLineKey
  by_cases hctrl : event.ctrl = true
  · rw [if_pos hctrl]
    exact h
  · rw [if_neg hctrl]
    by_cases henter : event.key = .enter
    · rw [if_pos henter]
      exact whole_enter h
    · rw [if_neg henter]
      obtain ⟨inner, next⟩ := c
      cases inner with
      | line edit shown flight =>
        obtain ⟨line, hline⟩ := h edit shown flight rfl
        have hkey := hsingle edit shown flight rfl (by simpa using hctrl)
        exact whole_line ⟨_, (shows_editKey hline event.key).mpr hkey⟩
      | loading => exact h
      | reading => exact h

theorem whole_activate {base : HttpsUrl} {href : List Char} (h : Whole c)
    (hactivate : c.activateFocusedLink base href shown policy = some (c', effect)) : Whole c' := by
  unfold Chrome.activateFocusedLink at hactivate
  rw [Option.bind_eq_bind, Option.bind_eq_some_iff] at hactivate
  obtain ⟨intent, -, hactivate⟩ := hactivate
  cases intent with
  | script | already =>
    cases hactivate
    exact h
  | rejected =>
    cases hactivate
    exact whole_rejectFromPage c _
  | fetch url =>
    dsimp only at hactivate
    split at hactivate
    · cases hactivate
      exact whole_rejectFromPage c _
    · split at hactivate
      · cases hactivate
        exact h
      · cases hactivate
        exact whole_loading
  | fragment url =>
    dsimp only at hactivate
    split at hactivate
    · cases hactivate
      exact whole_rejectFromPage c _
    · cases hactivate
      exact whole_reading

theorem whole_onPageKey (h : Whole c) (hkey : c.onPageKey event policy links = some (c', effect)) :
    Whole c' := by
  obtain ⟨inner, next⟩ := c
  unfold Chrome.onPageKey at hkey
  cases inner with
  | line edit shown flight =>
    cases hkey
    exact h
  | loading target id shown focus =>
    dsimp only at hkey
    split at hkey
    · cases hkey
      exact h
    · cases hkey
      exact h
  | reading page focus =>
    dsimp only at hkey
    split at hkey
    · cases hkey
      exact whole_reading
    split at hkey
    · cases focus with
      | none =>
        cases hkey
        exact h
      | index i =>
        dsimp only at hkey
        cases hlink : links[i]? with
        | none =>
          rw [hlink] at hkey
          cases hkey
          exact h
        | some href =>
          rw [hlink] at hkey
          exact whole_activate h hkey
    · cases hkey
      exact h

theorem whole_onKey (h : Whole c)
    (hsingle : ∀ edit shown flight, c.inner = .line edit shown flight → event.ctrl = false →
      SingleByte edit event.key)
    (hkey : c.onKey event policy links = some (c', effect)) : Whole c' := by
  unfold Chrome.onKey at hkey
  split at hkey
  · cases hkey
    exact whole_focusLine h
  split at hkey
  · have heq := Option.some.inj hkey
    have hescape := whole_escape h
    rwa [heq] at hescape
  split at hkey
  · have heq := Option.some.inj hkey
    have hline : Whole (c.onLineKey event policy).1 := whole_onLineKey h hsingle
    rwa [heq] at hline
  · exact whole_onPageKey h hkey

theorem whole_land {edit : Option LineEdit} (h : ∀ e ∈ edit, ∃ line, Shows e line)
    (outcome : PaintOutcome) :
    Whole (c.land edit url outcome).1 := by
  cases outcome with
  | painted page =>
    cases edit with
    | none => exact whole_reading
    | some edit => exact whole_line (h edit rfl)
  | failed fail =>
    cases edit with
    | none => exact whole_line (exists_fromUrl url .all)
    | some edit =>
      obtain ⟨line, hline⟩ := h edit rfl
      exact whole_line ⟨_, shows_setText hline url.text⟩

theorem whole_accept (h : Whole c) (outcome : PaintOutcome) : Whole (c.accept id outcome).1 := by
  unfold Chrome.accept
  split
  · split
    · exact whole_land (fun e he => by cases he) outcome
    · exact h
  · next edit shown url inflight hinner =>
    split
    · refine whole_land (fun e he => ?_) outcome
      obtain rfl := Option.some.inj he
      exact h _ _ _ hinner
    · exact h
  · exact h

theorem Reached.whole (h : Reached SingleByte c) : Whole c := by
  induction h with
  | boot text policy => exact whole_bootLoad text policy
  | rejected c attempted => exact whole_rejectFromPage c attempted
  | key _ hsingle hkey ih => exact whole_onKey ih hsingle hkey
  | accept id outcome _ ih => exact whole_accept ih outcome

/-- In every run whose keys delete and pass single bytes, the line is right, and a key is right if
and only if it does so. -/
theorem line_faithful (h : Reached SingleByte c) : LineOk SingleByte c := by
  intro edit shown flight hc
  obtain ⟨line, hline⟩ := h.whole edit shown flight hc
  refine ⟨line, hline, ?_, ?_, hline.text, ?_,
    fun key => ⟨(shows_editKey hline key).symm, fun policy links henter hescape => ?_⟩⟩
  · rw [hline.eq, TextLine.edit, length_asBytes, TextLine.chars, byteLen_append]
    exact Nat.le_add_right _ _
  · rw [hline.eq, TextLine.edit, length_asBytes]
    exact hline.fits
  · rw [hline.text, hline.eq, TextLine.edit]
  · obtain ⟨inner, next⟩ := c
    obtain rfl : inner = .line edit shown flight := hc
    unfold Chrome.onKey
    rw [if_neg (fun hctrl => Bool.noConfusion hctrl.1), if_neg hescape]
    dsimp only
    unfold Chrome.onLineKey
    rw [if_neg Bool.noConfusion, if_neg henter]

/-- A letter typed behind the rejected text and taken back. -/
theorem line_faithful_typed : ∃ typed back : Chrome × Effect,
    (Chrome.bootLoad ['é'] .publicName).1.onKey ⟨.char 0x78, false⟩ .publicName [] = some typed ∧
      typed.1.onKey ⟨.backspace, false⟩ .publicName [] = some back ∧ LineOk SingleByte back.1 := by
  obtain ⟨typed, htyped⟩ := Option.isSome_iff_exists.mp (by decide +kernel :
    ((Chrome.bootLoad ['é'] .publicName).1.onKey ⟨.char 0x78, false⟩ .publicName []).isSome)
  have hinner : ((Chrome.bootLoad ['é'] .publicName).1.onKey ⟨.char 0x78, false⟩ .publicName []).map
      (·.1.inner) = some (.line ⟨[0xC3, 0xA9, 0x78], 3, .caret⟩ (.failed .notPublicHttps) .idle) := by
    decide +kernel
  rw [htyped, Option.map_some, Option.some_inj] at hinner
  have hline : Reached SingleByte typed.1 :=
    .key (.boot ['é'] .publicName) (fun _ _ _ _ _ => by simp [SingleByte]) htyped
  obtain ⟨_, -, -, -, -, -, hkeys⟩ := line_faithful hline _ _ _ hinner
  have hback := (hkeys .backspace).2 .publicName [] nofun nofun
  refine ⟨typed, _, htyped, hback, line_faithful (.key hline (fun edit _ _ hedit _ => ?_) hback)⟩
  -- the letter in front of the cursor is the one that was typed
  cases hinner.symm.trans hedit
  exact fun _ => ⟨fun _ _ x hx => Option.some_inj.mp hx ▸ (by decide), nofun⟩

/-- Backspace takes half of the letter that the rejected text has. -/
theorem line_splits : ¬∀ c, Reached (fun _ _ => True) c → LineOk (fun _ _ => True) c := by
  intro h
  have hinner : (Chrome.bootLoad ['é'] .publicName).1.inner = .line ⟨[0xC3, 0xA9], 2, .caret⟩
    (.failed .notPublicHttps) .idle := by
    decide +kernel
  obtain ⟨line, hline, -, -, -, -, hkeys⟩ := h _ (.boot ['é'] .publicName) _ _ _ hinner
  have hsingle := (shows_editKey hline .backspace).mp ((hkeys .backspace).1.mp trivial)
  exact absurd ((hsingle rfl).1 (.inl rfl) (by decide) 0xA9 rfl) (by decide)

end runs

end Lerux.Desk
