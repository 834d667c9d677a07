import Lerux.Base.Text

/-!
# Slices of a text

A text is cut at bytes, and there is a slice only where a character begins (`sliceTo`, `sliceFrom`).
The places that a search finds are such places: `find` and `findStr` give the byte of the first
character, or of the first mark.

A function that slices ends with a result, which may be none, or it panics (`Slicing`).
-/

namespace Lerux

/-! ### Cuts -/

/-- The slice from a byte on. -/
def sliceFrom : Nat → List Char → Option (List Char)
  | 0, t => some t
  | _ + 1, [] => none
  | n + 1, c :: cs => if c.utf8Size ≤ n + 1 then sliceFrom (n + 1 - c.utf8Size) cs else none

def find (p : Char → Bool) : List Char → Option Nat
  | [] => none
  | c :: cs => if p c then some 0 else (find p cs).map (c.utf8Size + ·)

def findStr (sep : List Char) : List Char → Option Nat
  | [] => none
  | c :: cs => if sep.isPrefixOf (c :: cs) then some 0 else (findStr sep cs).map (c.utf8Size + ·)

/-- The last place of a character. -/
def rfind (sep : Char) (t : List Char) : Option Nat := (rsplitOnce sep t).map fun p => byteLen p.1

section cuts

variable {a b t sep : List Char} {p : Char → Bool} {n : Nat}

theorem sliceTo_append (a b : List Char) : sliceTo (byteLen a) (a ++ b) = some a := by
  induction a with
  | nil => cases b <;> rfl
  | cons c a ih =>
    obtain ⟨m, hm⟩ : ∃ m, c.utf8Size + byteLen a = m + 1 :=
      ⟨c.utf8Size + byteLen a - 1, by have := c.utf8Size_pos; omega⟩
    rw [byteLen_cons, hm, List.cons_append, sliceTo, if_pos (by omega), show m + 1 - c.utf8Size =
      byteLen a by omega, ih]
    rfl

theorem sliceFrom_append (a b : List Char) : sliceFrom (byteLen a) (a ++ b) = some b := by
  induction a with
  | nil => cases b <;> rfl
  | cons c a ih =>
    obtain ⟨m, hm⟩ : ∃ m, c.utf8Size + byteLen a = m + 1 :=
      ⟨c.utf8Size + byteLen a - 1, by have := c.utf8Size_pos; omega⟩
    rw [byteLen_cons, hm, List.cons_append, sliceFrom, if_pos (by omega), show m + 1 - c.utf8Size =
      byteLen a by omega, ih]

/-- There is a slice up to a byte if and only if a character ends there, or none has begun. -/
theorem sliceTo_eq_none : sliceTo n t = none ↔ ∀ a b, t = a ++ b → byteLen a ≠ n := by
  constructor
  · rintro h a b rfl rfl
    cases (sliceTo_append a b).symm.trans h
  · intro h
    induction t generalizing n with
    | nil =>
      cases n with
      | zero => exact absurd rfl (h [] [] rfl)
      | succ n => rfl
    | cons c t ih =>
      cases n with
      | zero => exact absurd rfl (h [] (c :: t) rfl)
      | succ n =>
        rw [sliceTo]
        split
        · next hle =>
          rw [ih fun a b heq hlen => h (c :: a) b (by rw [heq]; rfl) (by rw [byteLen_cons, hlen]; omega)]
          rfl
        · rfl

theorem find_eq (p : Char → Bool) (t : List Char) : (find p t).getD (byteLen t) =
    byteLen (t.takeWhile (!p ·)) := by
  induction t with
  | nil => rfl
  | cons c t ih =>
    rw [find, List.takeWhile_cons]
    cases hp : p c with
    | true => rfl
    | false =>
      rw [if_neg Bool.false_ne_true, Bool.not_false, if_pos rfl, byteLen_cons, byteLen_cons, ← ih]
      cases find p t <;> rfl

/-- What is found cuts a text before the first character that is looked for. -/
theorem sliceTo_find (p : Char → Bool) (t : List Char) : sliceTo ((find p t).getD (byteLen t)) t =
    some (t.takeWhile (!p ·)) := by
  have hcut := sliceTo_append (t.takeWhile (!p ·)) (t.dropWhile (!p ·))
  rwa [List.takeWhile_append_dropWhile, ← find_eq] at hcut

theorem sliceFrom_find (p : Char → Bool) (t : List Char) :
    sliceFrom ((find p t).getD (byteLen t)) t = some (t.dropWhile (!p ·)) := by
  have hcut := sliceFrom_append (t.takeWhile (!p ·)) (t.dropWhile (!p ·))
  rwa [List.takeWhile_append_dropWhile, ← find_eq] at hcut

theorem findStr_eq (sep t : List Char) : findStr sep t = (breakOn sep t).map fun p => byteLen p.1 := by
  induction t with
  | nil => rfl
  | cons c t ih =>
    rw [findStr, breakOn]
    split
    · rfl
    · rw [ih, Option.map_map, Option.map_map]
      exact congrArg (Option.map · _) (funext fun q => (byteLen_cons q.1 c).symm)

end cuts

/-! ### Results and panics -/

/-- A result, or none at all where the program panics. -/
abbrev Slicing (α : Type) : Type := OptionT Option α

namespace Slicing

variable {α β : Type}

/-- The result of what does not panic. -/
def ran (x : Option α) : Slicing α := OptionT.mk (some x)

/-- What panics unless there is a value. -/
def need (x : Option α) : Slicing α := OptionT.mk (x.map some)

/-- The result itself, of what does not panic. -/
def result (x : Slicing α) : Slicing (Option α) := OptionT.mk (x.run.map some)

def Panics (x : Slicing α) : Prop := x.run = none

theorem ran_bind {x : Option α} {f : α → Slicing β} {g : α → Option β}
    (h : ∀ a, x = some a → f a = ran (g a)) :
    ran x >>= f = ran (x.bind g) := by
  cases x with
  | none => rfl
  | some a => exact h a rfl

theorem ran_some_bind (a : α) (f : α → Slicing β) : ran (some a) >>= f = f a := rfl

theorem need_bind {x : Option α} {a : α} (h : x = some a) (f : α → Slicing β) : need x >>= f = f a := by
  subst h
  rfl

theorem result_ran (x : Option α) : result (ran x) = ran (some x) := rfl

theorem need_eq_ran {x : Option α} {a : α} (h : x = some a) : need x = ran (some a) := by
  subst h
  rfl

theorem need_panics (x : Option α) : (need x).Panics ↔ x = none := Option.map_eq_none_iff

end Slicing

end Lerux
