import Mathlib.Data.List.Infix
import Mathlib.Tactic

/-!
# Searching a list for a key

`position` is the first place where a key stands, and `following` is what comes after it there. A
key that does not hold a separator is found in the first of the separated parts that mentions it
(`following_cons`).
-/

namespace Lerux.Base

variable {α : Type} [DecidableEq α]

/-- The first place where a key stands. -/
def position (key : List α) : List α → Option Nat
  | [] => none
  | a :: t => if key.isPrefixOf (a :: t) then some 0 else (position key t).map (· + 1)

/-- What comes after the first key. -/
def following (key t : List α) : Option (List α) := (position key t).map fun n => t.drop (n + key.length)

section search

variable {key a b t : List α} {c : α} {n : Nat}

theorem position_cons (h : ¬key <+: c :: t) : position key (c :: t) = (position key t).map (· + 1) :=
  if_neg fun hp => h (List.isPrefixOf_iff_prefix.mp hp)

/-- Where nothing can begin a key there is none. -/
theorem position_skip (h : ∀ x ∈ a, ∀ u, ¬key <+: x :: u) : position key (a ++ t) =
    (position key t).map (a.length + ·) := by
  induction a with
  | nil => simp
  | cons x a ih =>
    rw [List.cons_append, position_cons (h x List.mem_cons_self _),
      ih fun y hy => h y (List.mem_cons_of_mem x hy), Option.map_map]
    exact congrArg (Option.map · _) (funext fun n =>
      by simp only [Function.comp_apply, List.length_cons]; omega)

theorem position_self (hk : key ≠ []) : position key (key ++ t) = some 0 := by
  obtain ⟨c, k, rfl⟩ := List.exists_cons_of_ne_nil hk
  exact if_pos (List.isPrefixOf_iff_prefix.mpr (List.prefix_append _ _))

/-- Which place the first one is. -/
theorem position_eq_some (hk : key ≠ []) :
    position key t = some n ↔ key <+: t.drop n ∧ ∀ m < n, ¬key <+: t.drop m := by
  induction t generalizing n with
  | nil => simp [position, hk]
  | cons c t ih =>
    rw [position]
    split
    · rename_i hp
      have hp := List.isPrefixOf_iff_prefix.mp hp
      constructor
      · intro h
        obtain rfl := Option.some.inj h
        exact ⟨hp, nofun⟩
      · rintro ⟨-, hfirst⟩
        by_contra hn
        exact hfirst 0 (Nat.pos_of_ne_zero fun h => hn (by rw [h])) hp
    · rename_i hp
      have hp : ¬key <+: c :: t := fun h => hp (List.isPrefixOf_iff_prefix.mpr h)
      constructor
      · intro h
        obtain ⟨m, hm, rfl⟩ := Option.map_eq_some_iff.mp h
        obtain ⟨hat, hfirst⟩ := ih.mp hm
        refine ⟨hat, fun i hi => ?_⟩
        cases i with
        | zero => exact hp
        | succ i => exact hfirst i (by omega)
      · rintro ⟨hat, hfirst⟩
        cases n with
        | zero => exact (hp hat).elim
        | succ n => rw [ih.mpr ⟨hat, fun i hi => hfirst (i + 1) (by omega)⟩]; rfl

theorem position_eq_none (hk : key ≠ []) : position key t = none ↔ ¬key <:+: t := by
  induction t with
  | nil => simp [position, hk]
  | cons c t ih =>
    rw [position, List.infix_cons_iff, ← List.isPrefixOf_iff_prefix]
    split
    · rename_i hp
      simp [hp]
    · rename_i hp
      simp [hp, ih]

omit [DecidableEq α] in
/-- A key without the separator is a prefix of what comes before it. -/
theorem prefix_append_cons (hc : c ∉ key) : key <+: a ++ c :: b ↔ key <+: a := by
  constructor
  · intro h
    rcases List.prefix_or_prefix_of_prefix h (List.prefix_append a (c :: b)) with h' | ⟨u, rfl⟩
    · exact h'
    · rw [List.prefix_append_right_inj] at h
      cases u with
      | nil => rw [List.append_nil]
      | cons x u =>
        obtain rfl := (List.cons_prefix_cons.mp h).1
        exact (hc (by simp)).elim
  · exact fun h => h.trans (List.prefix_append a (c :: b))

/-- The first part that mentions the key has it first. -/
theorem position_append_cons (hk : key ≠ []) (hc : c ∉ key) :
    position key (a ++ c :: b) = (position key a).or ((position key b).map (a.length + 1 + ·)) := by
  induction a with
  | nil =>
    have hp : ¬key <+: c :: b := by
      intro h
      obtain ⟨x, k, rfl⟩ := List.exists_cons_of_ne_nil hk
      exact hc ((List.cons_prefix_cons.mp h).1 ▸ List.mem_cons_self)
    rw [List.nil_append, position_cons hp]
    simp [position, Nat.add_comm]
  | cons x a ih =>
    rw [List.cons_append, position, position, ih]
    have hiff : key.isPrefixOf (x :: (a ++ c :: b)) = key.isPrefixOf (x :: a) := by
      rw [Bool.eq_iff_iff, List.isPrefixOf_iff_prefix, List.isPrefixOf_iff_prefix, ← List.cons_append]
      exact prefix_append_cons hc
    rw [hiff]
    split
    · rfl
    · cases position key a with
      | some n => rfl
      | none =>
        simp only [Option.none_or, Option.map_none, Option.map_map]
        exact congrArg (Option.map · _) (funext fun n =>
          by simp only [Function.comp_apply, List.length_cons]; omega)

/-! ### What comes after -/

theorem following_eq_none (hk : key ≠ []) : following key t = none ↔ ¬key <:+: t := by
  rw [following, Option.map_eq_none_iff, position_eq_none hk]

theorem following_eq_some (hk : key ≠ []) {u : List α} :
    following key t = some u ↔ ∃ s, t = s ++ key ++ u ∧ ∀ m < s.length, ¬key <+: t.drop m := by
  rw [following, Option.map_eq_some_iff]
  constructor
  · rintro ⟨n, hn, rfl⟩
    obtain ⟨⟨u, hu⟩, hfirst⟩ := (position_eq_some hk).mp hn
    have hle : n ≤ t.length := by
      by_contra hgt
      rw [List.drop_eq_nil_of_le (by omega)] at hu
      exact hk (List.append_eq_nil_iff.mp hu).1
    have hdrop : t.drop (n + key.length) = u := by rw [← List.drop_drop, ← hu, List.drop_left]
    refine ⟨t.take n, ?_, fun m hm => hfirst m (by rw [List.length_take] at hm; omega)⟩
    rw [hdrop, List.append_assoc, hu, List.take_append_drop]
  · rintro ⟨s, rfl, hfirst⟩
    refine ⟨s.length, (position_eq_some hk).mpr ⟨?_, hfirst⟩, ?_⟩
    · rw [List.append_assoc, List.drop_left]
      exact List.prefix_append key u
    · rw [← List.length_append, List.drop_left]

/-- A key without the separator is looked for in one part after the other. -/
theorem following_append_cons (hk : key ≠ []) (hc : c ∉ key) :
    following key (a ++ c :: b) = ((following key a).map (· ++ c :: b)).or (following key b) := by
  rw [following, following, position_append_cons hk hc]
  cases hn : position key a with
  | some n =>
    have hle : n + key.length ≤ a.length := by
      obtain ⟨hat, -⟩ := (position_eq_some hk).mp hn
      have := hat.length_le
      rw [List.length_drop] at this
      have := List.length_pos_iff.mpr hk
      omega
    simp [List.drop_append_of_le_length hle]
  | none =>
    simp only [Option.none_or, Option.map_none, Option.map_map, following]
    refine congrArg (Option.map · _) (funext fun n => ?_)
    rw [Function.comp_apply, show a.length + 1 + n + key.length =
      a.length + (n + key.length + 1) by omega, ← List.drop_drop,
      List.drop_left]
    rfl

end search

end Lerux.Base
