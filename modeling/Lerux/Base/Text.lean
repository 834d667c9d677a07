import Mathlib.Data.List.DropRight
import Mathlib.Tactic

/-!
# Text

A text is the list of its characters. Lengths are in bytes of UTF-8 (`byteLen`). The operations are
those of a byte string cut at ASCII delimiters: the first place of a text in another (`breakOn`),
the last place of a character (`rsplitOnce`), the first character of a set (`takeWhile` and
`dropWhile`), and a slice up to a byte (`sliceTo`), which there is none of inside a character.
-/

namespace Lerux

/-! ### Characters -/

namespace Along

/-- A property of the elements of a list is decided along the list, also where it could be along all
elements of the type. -/
scoped instance (priority := 2000) decidableForallMem {α : Type} (t : List α) (p : α → Prop)
  [DecidablePred p] :
    Decidable (∀ a ∈ t, p a) :=
  List.decidableBAll p t

scoped instance (priority := 2000) decidableForallMemOption {α : Type} (o : Option α) (p : α → Prop)
  [DecidablePred p] :
    Decidable (∀ a ∈ o, p a) :=
  decidable_of_iff (∀ a ∈ o.toList, p a) (by simp)

end Along

open scoped Along

/-- A character is one byte, below 128, or several from 128 on. -/
theorem utf8Size_eq_one_iff_of_mem {c : Char} {x : UInt8} (hx : x ∈ String.utf8EncodeChar c) :
    c.utf8Size = 1 ↔ x < 128 := by
  have hbyte : ∀ n, UInt8.ofNat n < 128 ↔ n % 256 < 128 := fun n => by
    rw [UInt8.lt_iff_toNat_lt, UInt8.toNat_ofNat']
    rfl
  rw [← String.length_utf8EncodeChar]
  revert hx
  fun_cases String.utf8EncodeChar with
  | case1 v h =>
    intro hx
    rw [List.mem_singleton.mp hx, hbyte]
    have hv : v ≤ 127 := h
    exact iff_of_true rfl (by omega)
  | case2 =>
    intro hx
    refine iff_of_false (by simp) ?_
    simp only [List.mem_cons, List.not_mem_nil, or_false] at hx
    obtain rfl | rfl := hx
    all_goals
      rw [hbyte]
      omega
  | case3 =>
    intro hx
    refine iff_of_false (by simp) ?_
    simp only [List.mem_cons, List.not_mem_nil, or_false] at hx
    obtain rfl | rfl | rfl := hx
    all_goals
      rw [hbyte]
      omega
  | case4 =>
    intro hx
    refine iff_of_false (by simp) ?_
    simp only [List.mem_cons, List.not_mem_nil, or_false] at hx
    obtain rfl | rfl | rfl | rfl := hx
    all_goals
      rw [hbyte]
      omega

theorem isUpper_iff (c : Char) : c.isUpper = true ↔ 65 ≤ c.toNat ∧ c.toNat ≤ 90 := by
  delta Char.isUpper
  simp [UInt32.le_iff_toNat_le]

theorem isLower_iff (c : Char) : c.isLower = true ↔ 97 ≤ c.toNat ∧ c.toNat ≤ 122 := by
  delta Char.isLower
  simp [UInt32.le_iff_toNat_le]

theorem isDigit_iff (c : Char) : c.isDigit = true ↔ 48 ≤ c.toNat ∧ c.toNat ≤ 57 := by
  simp [Char.isDigit, UInt32.le_iff_toNat_le]

theorem eq_of_toNat_eq {c d : Char} (h : c.toNat = d.toNat) : c = d := Char.ext (UInt32.toNat_inj.mp h)

theorem toNat_toLower (c : Char) : c.toLower.toNat = if c.isUpper then c.toNat + 32 else c.toNat := by
  have hval : c.isUpper = true ↔ c.val ≥ 'A'.val ∧ c.val ≤ 'Z'.val := by
    delta Char.isUpper
    simp
  unfold Char.toLower
  by_cases h : c.val ≥ 'A'.val ∧ c.val ≤ 'Z'.val
  · rw [dif_pos h, if_pos (hval.mpr h)]
    have hup := (isUpper_iff c).mp (hval.mpr h)
    have hstep : ('a'.val - 'A'.val).toNat = 32 := by decide
    simp only [Char.toNat] at hup ⊢
    rw [UInt32.toNat_add]
    omega
  · rw [dif_neg h, if_neg (by rw [hval]; exact h)]

/-- A character that is no letter is the lower case of itself alone. -/
theorem toLower_eq_iff {c d : Char} (h : d.isAlpha = false) : c.toLower = d ↔ c = d := by
  have hd : ¬(65 ≤ d.toNat ∧ d.toNat ≤ 90) ∧ ¬(97 ≤ d.toNat ∧ d.toNat ≤ 122) := by
    rw [← isUpper_iff, ← isLower_iff, Bool.not_eq_true, Bool.not_eq_true]
    delta Char.isAlpha at h
    simpa using h
  have hc := toNat_toLower c
  constructor
  · rintro rfl
    apply eq_of_toNat_eq
    split at hc
    · next hup =>
      have := (isUpper_iff c).mp hup
      omega
    · exact hc.symm
  · rintro rfl
    apply eq_of_toNat_eq
    rw [hc, if_neg]
    rw [isUpper_iff]
    exact hd.1

theorem toLower_toLower (c : Char) : c.toLower.toLower = c.toLower := by
  apply eq_of_toNat_eq
  rw [toNat_toLower c.toLower, if_neg]
  rw [isUpper_iff, toNat_toLower]
  intro h
  split at h
  · next hup =>
    have := (isUpper_iff c).mp hup
    omega
  · next hup => exact hup ((isUpper_iff c).mpr h)

theorem isAlphanum_iff (c : Char) : c.isAlphanum = true ↔
    (65 ≤ c.toNat ∧ c.toNat ≤ 90) ∨ (97 ≤ c.toNat ∧ c.toNat ≤ 122) ∨ (48 ≤ c.toNat ∧ c.toNat ≤ 57) := by
  rw [← isUpper_iff, ← isLower_iff, ← isDigit_iff]
  delta Char.isAlphanum Char.isAlpha
  simp [or_assoc]

theorem isAlphanum_toLower (c : Char) : c.toLower.isAlphanum = c.isAlphanum := by
  rw [Bool.eq_iff_iff, isAlphanum_iff, isAlphanum_iff, toNat_toLower]
  split
  · next hup =>
    have := (isUpper_iff c).mp hup
    omega
  · rfl

theorem isAlpha_iff (c : Char) : c.isAlpha = true ↔ (65 ≤ c.toNat ∧ c.toNat ≤ 90) ∨
    (97 ≤ c.toNat ∧ c.toNat ≤ 122) := by
  rw [← isUpper_iff, ← isLower_iff]
  delta Char.isAlpha
  simp

theorem isAlpha_toLower (c : Char) : c.toLower.isAlpha = c.isAlpha := by
  rw [Bool.eq_iff_iff, isAlpha_iff, isAlpha_iff, toNat_toLower]
  split
  · next hup =>
    have := (isUpper_iff c).mp hup
    omega
  · rfl

/-- An ASCII character is one byte. -/
theorem utf8Size_of_lt {c : Char} (h : c.toNat < 128) : c.utf8Size = 1 := by
  rw [Char.utf8Size_eq_one_iff, UInt32.le_iff_toNat_le]
  exact Nat.le_of_lt_succ h

theorem utf8Size_toLower (c : Char) : c.toLower.utf8Size = c.utf8Size := by
  have h := toNat_toLower c
  split at h
  · next hup =>
    have := (isUpper_iff c).mp hup
    rw [utf8Size_of_lt (by omega), utf8Size_of_lt (by omega)]
  · rw [eq_of_toNat_eq h]

/-! ### Lengths -/

/-- The length in bytes. -/
def byteLen (t : List Char) : Nat := (t.map Char.utf8Size).sum

section byteLen

variable (a b t : List Char)

@[simp] theorem byteLen_nil : byteLen [] = 0 := rfl

@[simp] theorem byteLen_cons (c : Char) : byteLen (c :: t) = c.utf8Size + byteLen t := by
  simp [byteLen]

@[simp] theorem byteLen_append : byteLen (a ++ b) = byteLen a + byteLen b := by
  simp [byteLen]

@[simp] theorem byteLen_lower : byteLen (t.map Char.toLower) = byteLen t := by
  induction t with
  | nil => rfl
  | cons c t ih => rw [List.map_cons, byteLen_cons, byteLen_cons, utf8Size_toLower, ih]

theorem length_le_byteLen : t.length ≤ byteLen t := by
  induction t with
  | nil => exact le_rfl
  | cons c t ih =>
    have := c.utf8Size_pos
    rw [byteLen_cons, List.length_cons]
    omega

theorem byteLen_of_ascii (h : ∀ c ∈ t, c.toNat < 128) : byteLen t = t.length := by
  induction t with
  | nil => rfl
  | cons c t ih =>
    rw [byteLen_cons, List.length_cons, utf8Size_of_lt (h c List.mem_cons_self),
      ih fun d hd => h d (List.mem_cons_of_mem c hd), Nat.add_comm]

end byteLen

theorem lower_lower (t : List Char) : (t.map Char.toLower).map Char.toLower = t.map Char.toLower := by
  rw [List.map_map]
  apply List.map_congr_left
  intro c _
  exact toLower_toLower c

theorem mem_lower {d : Char} (h : d.isAlpha = false) (t : List Char) : d ∈ t.map Char.toLower ↔ d ∈ t := by
  rw [List.mem_map]
  constructor
  · rintro ⟨c, hc, heq⟩
    rw [toLower_eq_iff h] at heq
    rwa [← heq]
  · intro hd
    exact ⟨d, hd, (toLower_eq_iff h).mpr rfl⟩

/-! ### Numbers -/

def decimal (n : Nat) : List Char := Nat.toDigits 10 n

theorem isDigit_of_mem_decimal {c : Char} {n : Nat} (h : c ∈ decimal n) : c.isDigit = true :=
  Nat.isDigit_of_mem_toDigits (by decide) (by decide) h

theorem decimal_ne_nil (n : Nat) : decimal n ≠ [] := Nat.toDigits_ne_nil

theorem not_mem_decimal {c : Char} {n : Nat} (h : c.isDigit = false) : c ∉ decimal n := by
  intro hc
  rw [isDigit_of_mem_decimal hc] at h
  cases h

/-! ### Cutting a text -/

/-- The first place of a text, with what stands before and behind it. -/
def breakOn (sep : List Char) : List Char → Option (List Char × List Char)
  | [] => none
  | c :: cs =>
    if sep.isPrefixOf (c :: cs) then some ([], (c :: cs).drop sep.length)
    else (breakOn sep cs).map fun p => (c :: p.1, p.2)

/-- The last place of a character, with what stands before and behind it. -/
def rsplitOnce (sep : Char) : List Char → Option (List Char × List Char)
  | [] => none
  | c :: cs =>
    match rsplitOnce sep cs with
    | some (before, behind) => some (c :: before, behind)
    | none => if c = sep then some ([], cs) else none

/-- The slice up to a byte. -/
def sliceTo : Nat → List Char → Option (List Char)
  | 0, _ => some []
  | _ + 1, [] => none
  | n + 1, c :: cs => if c.utf8Size ≤ n + 1 then (sliceTo (n + 1 - c.utf8Size) cs).map (c :: ·) else none

def trimMatches (p : Char → Bool) (t : List Char) : List Char := (t.dropWhile p).rdropWhile p

/-- The white space of Unicode. -/
def isWhitespace (c : Char) : Bool :=
  (9 ≤ c.toNat && c.toNat ≤ 13) || c.toNat = 0x20 || c.toNat = 0x85 || c.toNat = 0xa0 || c.toNat = 0x1680 ||
    (0x2000 ≤ c.toNat && c.toNat ≤ 0x200a) || c.toNat = 0x2028 || c.toNat = 0x2029 || c.toNat = 0x202f ||
    c.toNat = 0x205f || c.toNat = 0x3000

def trim (t : List Char) : List Char := trimMatches isWhitespace t

def trimEnd (t : List Char) : List Char := t.rdropWhile isWhitespace

/-- Equal but for the case of ASCII letters. -/
def eqIgnoreAsciiCase (a b : List Char) : Bool := a.map Char.toLower = b.map Char.toLower

section cutting

variable {sep : Char} {a b t : List Char} {p : Char → Bool}

theorem rsplitOnce_cons (sep c : Char) (cs : List Char) : rsplitOnce sep (c :: cs) =
    match rsplitOnce sep cs with
    | some (before, behind) => some (c :: before, behind)
    | none => if c = sep then some ([], cs) else none := rfl

theorem breakOn_cons (key : List Char) (c : Char) (cs : List Char) : breakOn key (c :: cs) =
    if key.isPrefixOf (c :: cs) then some ([], (c :: cs).drop key.length)
    else (breakOn key cs).map fun p => (c :: p.1, p.2) := rfl

theorem rsplitOnce_eq_none : rsplitOnce sep t = none ↔ sep ∉ t := by
  induction t with
  | nil => simp [rsplitOnce]
  | cons c t ih =>
    rw [rsplitOnce_cons]
    cases hrest : rsplitOnce sep t with
    | some pair =>
      have hmem : sep ∈ t := by
        by_contra hnot
        rw [← ih, hrest] at hnot
        cases hnot
      simp [hmem]
    | none =>
      have hnot := ih.mp hrest
      by_cases hc : c = sep
      · simp [hc]
      · simp [hc, hnot, Ne.symm hc]

theorem rsplitOnce_eq_some (h : rsplitOnce sep t = some (a, b)) : t = a ++ sep :: b ∧ sep ∉ b := by
  induction t generalizing a with
  | nil => cases h
  | cons c t ih =>
    rw [rsplitOnce] at h
    cases hrest : rsplitOnce sep t with
    | some pair =>
      rw [hrest] at h
      cases h
      obtain ⟨ht, hb⟩ := ih hrest
      exact ⟨congrArg (c :: ·) ht, hb⟩
    | none =>
      rw [hrest] at h
      dsimp only at h
      split at h
      · next hc =>
        cases h
        subst hc
        exact ⟨rfl, (rsplitOnce_eq_none).mp hrest⟩
      · cases h

theorem rsplitOnce_append (a : List Char) (h : sep ∉ b) : rsplitOnce sep (a ++ sep :: b) = some (a, b) := by
  induction a with
  | nil =>
    rw [List.nil_append, rsplitOnce_cons, (rsplitOnce_eq_none).mpr h]
    exact if_pos rfl
  | cons c a ih => rw [List.cons_append, rsplitOnce_cons, ih]

theorem breakOn_eq_some {sep t : List Char} {p : List Char × List Char} (h : breakOn sep t = some p) :
    t = p.1 ++ (sep ++ p.2) := by
  induction t generalizing p with
  | nil => cases h
  | cons c t ih =>
    rw [breakOn_cons] at h
    split at h
    · next hfront =>
      obtain ⟨t', ht'⟩ := List.isPrefixOf_iff_prefix.mp hfront
      cases h
      rw [← ht', List.drop_left]
      rfl
    · obtain ⟨q, hq, rfl⟩ := Option.map_eq_some_iff.mp h
      rw [ih hq]
      rfl

theorem breakOn_singleton_eq_none (h : sep ∉ t) : breakOn [sep] t = none := by
  induction t with
  | nil => rfl
  | cons c t ih =>
    rw [List.mem_cons, not_or] at h
    rw [breakOn_cons, if_neg, ih h.2]
    · rfl
    · simp [h.1]

theorem breakOn_singleton_append (b : List Char) (h : sep ∉ a) : breakOn [sep] (a ++ sep :: b) =
    some (a, b) := by
  induction a with
  | nil =>
    rw [List.nil_append, breakOn_cons, if_pos (by simp)]
    rfl
  | cons c a ih =>
    rw [List.mem_cons, not_or] at h
    rw [List.cons_append, breakOn_cons, if_neg, ih h.2]
    · rfl
    · simp [h.1]

/-- A text of characters of a set, followed by nothing or by one that is not in it. -/
theorem takeWhile_append_stop (ha : ∀ c ∈ a, p c = true) (ht : ∀ c ∈ t.head?, p c = false) :
    (a ++ t).takeWhile p = a ∧ (a ++ t).dropWhile p = t := by
  rw [List.takeWhile_append_of_pos ha, List.dropWhile_append_of_pos ha]
  cases t with
  | nil => simp
  | cons c t => simp [ht c rfl]

/-- A text of characters outside a set, followed by nothing or by one in it. -/
theorem takeWhile_append_tail (ha : ∀ c ∈ a, p c = false) (ht : ∀ c ∈ t.head?, p c = true) :
    (a ++ t).takeWhile (!p ·) = a ∧ (a ++ t).dropWhile (!p ·) = t :=
  takeWhile_append_stop (fun c hc => by rw [ha c hc]; rfl) fun c hc => by rw [ht c hc]; rfl

theorem mem_takeWhile_not {c : Char} (h : c ∈ t.takeWhile (!p ·)) : p c = false := by
  have := List.mem_takeWhile_imp h
  simpa using this

theorem head_dropWhile_not : ∀ c ∈ (t.dropWhile (!p ·)).head?, p c = true := by
  intro c hc
  have := List.head?_dropWhile_not (fun c => !p c) t
  rw [Option.mem_def.mp hc] at this
  simpa using this

theorem trimMatches_of_none (h : ∀ c ∈ t, p c = false) : trimMatches p t = t := by
  have hdrop : t.dropWhile p = t := by
    cases t with
    | nil => rfl
    | cons c t => exact List.dropWhile_cons_of_neg (by rw [h c List.mem_cons_self]; exact Bool.false_ne_true)
  rw [trimMatches, hdrop, List.rdropWhile_eq_self_iff]
  intro hne
  rw [h _ (List.getLast_mem hne)]
  exact Bool.false_ne_true

/-- A slice of ASCII characters. -/
theorem sliceTo_of_ascii {n : Nat} (h : ∀ c ∈ t, c.toNat < 128) (hn : n ≤ t.length) :
    sliceTo n t = some (t.take n) := by
  induction t generalizing n with
  | nil =>
    obtain rfl : n = 0 := Nat.le_zero.mp hn
    rfl
  | cons c t ih =>
    cases n with
    | zero => rfl
    | succ n =>
      have hsize := utf8Size_of_lt (h c List.mem_cons_self)
      rw [sliceTo, hsize, if_pos (by omega), Nat.add_sub_cancel,
        ih (fun d hd => h d (List.mem_cons_of_mem c hd)) (Nat.le_of_succ_le_succ hn)]
      rfl

end cutting

end Lerux
