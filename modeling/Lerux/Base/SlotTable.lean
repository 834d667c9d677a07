import Mathlib.Logic.Function.Basic
import Mathlib.Tactic

/-!
# Tables with an end marker and tombstones

A table is a sequence of slots. A search walks it from the front: it skips tombstones, stops at the
first slot that was never used, and answers the first live slot with the key. A new entry goes to the
first slot that is not live.

`lookup_eq_some` and `firstFree_eq_some` say what the two walks answer in terms of the slots before the
answer. Inserting into the first free slot, and changing the key of the slot found, are then facts about
those slots alone.
-/

namespace Lerux

/-- One slot of a table. -/
inductive Slot (κ ν : Type)
  | vacant
  | deleted
  | live (key : κ) (value : ν)
  deriving DecidableEq

namespace SlotTable

variable {κ ν : Type}

/-- Neither vacant nor deleted. -/
def Slot.IsLive (s : Slot κ ν) : Prop := ∃ k v, s = .live k v

section walks

variable [DecidableEq κ]

/-- The search for `k` over `left` slots from `index` on. -/
def lookup (t : Nat → Slot κ ν) (k : κ) : Nat → Nat → Option (Nat × ν)
  | 0, _ => none
  | left + 1, index =>
    match t index with
    | .vacant => none
    | .deleted => lookup t k left (index + 1)
    | .live key value => if key = k then some (index, value) else lookup t k left (index + 1)

/-- The first slot that is not live, over `left` slots from `index` on. -/
def firstFree (t : Nat → Slot κ ν) : Nat → Nat → Option Nat
  | 0, _ => none
  | left + 1, index =>
    match t index with
    | .vacant | .deleted => some index
    | .live _ _ => firstFree t left (index + 1)

/-- A slot the search for `k` walks past. -/
def Passed (t : Nat → Slot κ ν) (k : κ) (j : Nat) : Prop := t j ≠ .vacant ∧ ∀ v, t j ≠ .live k v

theorem lookup_eq_some {t : Nat → Slot κ ν} {k : κ} {left index j : Nat} {v : ν} :
    lookup t k left index = some (j, v) ↔
      index ≤ j ∧ j < index + left ∧ t j = .live k v ∧ ∀ i, index ≤ i → i < j → Passed t k i := by
  induction left generalizing index with
  | zero =>
    simp only [lookup, reduceCtorEq, false_iff]
    rintro ⟨h1, h2, -⟩
    omega
  | succ left ih =>
    -- a slot that is walked past moves the search one on
    have hpast : Passed t k index → (lookup t k left (index + 1) = some (j, v) ↔
        index ≤ j ∧ j < index + (left + 1) ∧ t j = .live k v ∧ ∀ i, index ≤ i → i < j → Passed t k i) := by
      intro hp
      rw [ih]
      constructor
      · rintro ⟨h1, h2, h3, h4⟩
        refine ⟨by omega, by omega, h3, fun i hi hj => ?_⟩
        rcases Nat.eq_or_lt_of_le hi with rfl | hlt
        · exact hp
        · exact h4 i hlt hj
      · rintro ⟨h1, h2, h3, h4⟩
        have hne : index ≠ j := by
          rintro rfl
          exact hp.2 v h3
        exact ⟨by omega, by omega, h3, fun i hi hj => h4 i (by omega) hj⟩
    -- a slot the search stops at leaves only itself as an answer
    have hstop : ¬Passed t k index → (t index = .live k v ∧ index = j ↔
        index ≤ j ∧ j < index + (left + 1) ∧ t j = .live k v ∧ ∀ i, index ≤ i → i < j → Passed t k i) := by
      intro hp
      constructor
      · rintro ⟨h1, rfl⟩
        exact ⟨le_rfl, by omega, h1, fun i hi hj => by omega⟩
      · rintro ⟨h1, h2, h3, h4⟩
        rcases Nat.eq_or_lt_of_le h1 with rfl | hlt
        · exact ⟨h3, rfl⟩
        · exact absurd (h4 index le_rfl hlt) hp
    rw [lookup]
    cases ht : t index with
    | vacant =>
      have hnot : ¬Passed t k index := fun hp => hp.1 ht
      rw [← hstop hnot, ht]
      simp
    | deleted => exact hpast ⟨by simp [ht], fun v => by simp [ht]⟩
    | live key value =>
      by_cases hk : key = k
      · subst hk
        have hnot : ¬Passed t key index := fun hp => hp.2 value ht
        rw [← hstop hnot, ht]
        simp [and_comm]
      · simp only [if_neg hk]
        exact hpast ⟨by simp [ht], fun v => by simp [ht, hk]⟩

omit [DecidableEq κ] in
theorem firstFree_eq_some {t : Nat → Slot κ ν} {left index j : Nat} (h : firstFree t left index = some j) :
    index ≤ j ∧ j < index + left ∧ ¬Slot.IsLive (t j) ∧ ∀ i, index ≤ i → i < j → Slot.IsLive (t i) := by
  induction left generalizing index with
  | zero => simp [firstFree] at h
  | succ left ih =>
    rw [firstFree] at h
    cases ht : t index with
    | vacant | deleted =>
      rw [ht] at h
      obtain rfl : index = j := by simpa using h
      refine ⟨le_rfl, by omega, ?_, fun i hi hj => by omega⟩
      rw [ht]
      rintro ⟨k, v, hlive⟩
      cases hlive
    | live key value =>
      rw [ht] at h
      obtain ⟨h1, h2, h3, h4⟩ := ih h
      refine ⟨by omega, by omega, h3, fun i hi hj => ?_⟩
      rcases Nat.eq_or_lt_of_le hi with rfl | hlt
      · exact ⟨key, value, ht⟩
      · exact h4 i hlt hj

/-- Up to a slot that the search reaches, nothing is found exactly when everything is walked past. -/
theorem passed_of_lookup_eq_none {t : Nat → Slot κ ν} {k : κ} {left index : Nat}
    (h : lookup t k left index = none) {j : Nat} (hj : j ≤ index + left)
    (hlive : ∀ i, index ≤ i → i < j → t i ≠ .vacant) : ∀ i, index ≤ i → i < j → Passed t k i := by
  intro i
  induction i using Nat.strong_induction_on with
  | _ i ih =>
    intro hi hij
    refine ⟨hlive i hi hij, fun v hv => ?_⟩
    have hsome : lookup t k left index = some (i, v) :=
      (lookup_eq_some).mpr ⟨hi, by omega, hv, fun m hm hmi => ih m hmi hm (by omega)⟩
    rw [h] at hsome
    cases hsome

variable {t : Nat → Slot κ ν} {k k' : κ} {n j : Nat} {v : ν}

/-- A live slot written where everything before is walked past is found. -/
theorem lookup_update_self (hj : j < n) (hpast : ∀ i, i < j → Passed t k i) :
    lookup (Function.update t j (.live k v)) k n 0 = some (j, v) := by
  refine (lookup_eq_some).mpr ⟨by omega, by omega, Function.update_self _ _ _, fun i _ hi => ?_⟩
  have hne : i ≠ j := by omega
  rw [Passed, Function.update_of_ne hne]
  exact hpast i hi

/-- Writing a live slot with another key changes no other answer. -/
theorem lookup_update_of_ne {j' : Nat} {v' : ν} (h : lookup t k' n 0 = some (j', v')) (hj : j' ≠ j)
    (hk : k ≠ k') :
    lookup (Function.update t j (.live k v)) k' n 0 = some (j', v') := by
  obtain ⟨h1, h2, h3, h4⟩ := (lookup_eq_some).mp h
  refine (lookup_eq_some).mpr ⟨h1, h2, by rwa [Function.update_of_ne hj], fun i hi hij => ?_⟩
  by_cases hne : i = j
  · subst hne
    rw [Passed, Function.update_self]
    exact ⟨by simp, fun w => by simp [hk]⟩
  · rw [Passed, Function.update_of_ne hne]
    exact h4 i hi hij

/-- A new key goes to the first free slot. -/
theorem lookup_insert_self (hfree : firstFree t n 0 = some j) (hnone : lookup t k n 0 = none) :
    lookup (Function.update t j (.live k v)) k n 0 = some (j, v) := by
  obtain ⟨-, hj, -, hlive⟩ := firstFree_eq_some hfree
  refine lookup_update_self (by omega) fun i hi => ?_
  refine passed_of_lookup_eq_none hnone (j := j) (by omega) (fun m _ hm => ?_) i (by omega) hi
  obtain ⟨key, value, hm⟩ := hlive m (by omega) hm
  simp [hm]

theorem lookup_insert_of_ne {r : Nat × ν} (hfree : firstFree t n 0 = some j) (hk : k ≠ k')
    (h : lookup t k' n 0 = some r) : lookup (Function.update t j (.live k v)) k' n 0 = some r := by
  obtain ⟨j', v'⟩ := r
  obtain ⟨-, -, hnot, -⟩ := firstFree_eq_some hfree
  refine lookup_update_of_ne h ?_ hk
  rintro rfl
  exact hnot ⟨k', v', ((lookup_eq_some).mp h).2.2.1⟩

/-- The slot found under `old` takes the key `k`, which is `old` itself or was not there. -/
theorem lookup_rename_self {old : κ} (h : lookup t old n 0 = some (j, v))
    (hnew : old = k ∨ lookup t k n 0 = none) :
    lookup (Function.update t j (.live k v)) k n 0 = some (j, v) := by
  obtain ⟨-, hj, hat, hpast⟩ := (lookup_eq_some).mp h
  refine lookup_update_self (by omega) fun i hi => ?_
  rcases hnew with rfl | hnone
  · exact hpast i (by omega) hi
  · exact passed_of_lookup_eq_none hnone (j := j) (by omega) (fun m hm hmj => (hpast m hm hmj).1) i
      (by omega) hi

theorem lookup_rename_of_ne {old : κ} {r : Nat × ν} (h : lookup t old n 0 = some (j, v)) (hold : old ≠ k')
    (hk : k ≠ k') (h' : lookup t k' n 0 = some r) :
    lookup (Function.update t j (.live k v)) k' n 0 = some r := by
  obtain ⟨j', v'⟩ := r
  refine lookup_update_of_ne h' ?_ hk
  rintro rfl
  have hat := ((lookup_eq_some).mp h).2.2.1
  rw [((lookup_eq_some).mp h').2.2.1] at hat
  exact hold (Slot.live.inj hat).1.symm

/-- A slot that is not live is no answer. -/
theorem lookup_ne_of_not_live (hnot : ¬Slot.IsLive (t j)) : lookup t k n 0 ≠ some (j, v) := fun h =>
  hnot ⟨k, v, ((lookup_eq_some).mp h).2.2.1⟩

end walks

/-! ### Tables without holes -/

/-- Behind a vacant slot everything is vacant. -/
def Compact (t : Nat → Slot κ ν) : Prop := ∀ i j, i ≤ j → t i = .vacant → t j = .vacant

/-- No key is in two slots. -/
def Distinct (t : Nat → Slot κ ν) : Prop := ∀ i j k v w, t i = .live k v → t j = .live k w → i = j

section compact

variable {t : Nat → Slot κ ν} {k : κ} {v : ν} {n j : Nat} {x : Slot κ ν}

theorem Compact.ne_vacant (h : Compact t) (hj : t j ≠ .vacant) {i : Nat} (hi : i ≤ j) :
    t i ≠ .vacant := fun hv =>
  hj (h i j hi hv)

/-- Every live slot is found under its key. -/
theorem lookup_of_live [DecidableEq κ] (h : Compact t) (hd : Distinct t) (hj : j < n)
    (ht : t j = .live k v) :
    lookup t k n 0 = some (j, v) := by
  refine (lookup_eq_some).mpr ⟨by omega, by omega, ht, fun i _ hi => ⟨?_, fun w hw => ?_⟩⟩
  · exact h.ne_vacant (by simp [ht]) hi.le
  · have := hd i j k w v hw ht
    omega

/-- A key the search does not find is in no slot. -/
theorem not_live_of_lookup_eq_none [DecidableEq κ] (h : Compact t) (hnone : lookup t k n 0 = none)
    (hj : j < n) :
    t j ≠ .live k v := by
  intro ht
  have hused : t j ≠ .vacant := by simp [ht]
  have hpast := passed_of_lookup_eq_none hnone (j := j + 1) (by omega)
    (fun i _ hi => h.ne_vacant hused (Nat.le_of_lt_succ hi)) j (by omega) (by omega)
  exact hpast.2 v ht

theorem Compact.insert (h : Compact t) (hfree : firstFree t n 0 = some j) (hx : x ≠ .vacant) :
    Compact (Function.update t j x) := by
  obtain ⟨-, -, -, hlive⟩ := firstFree_eq_some hfree
  intro a b hab ha
  by_cases haj : a = j
  · rw [haj, Function.update_self] at ha
    exact absurd ha hx
  rw [Function.update_of_ne haj] at ha
  -- the slots before the free one are live, so the vacant one is behind it
  have hlt : j < a := by
    by_contra hle
    obtain ⟨key, value, hk⟩ := hlive a (by omega) (by omega)
    rw [ha] at hk
    cases hk
  rw [Function.update_of_ne (by omega)]
  exact h a b hab ha

theorem Compact.change (h : Compact t) (ht : t j ≠ .vacant) (hx : x ≠ .vacant) :
    Compact (Function.update t j x) := by
  intro a b hab ha
  by_cases haj : a = j
  · rw [haj, Function.update_self] at ha
    exact absurd ha hx
  rw [Function.update_of_ne haj] at ha
  have hbj : b ≠ j := by
    rintro rfl
    exact ht (h a b hab ha)
  rw [Function.update_of_ne hbj]
  exact h a b hab ha

/-- A slot behind which nothing is used may become vacant. -/
theorem Compact.vacate (h : Compact t) (hlater : ∀ i, j < i → t i = .vacant) :
    Compact (Function.update t j .vacant) := by
  intro a b hab ha
  by_cases hbj : b = j
  · rw [hbj, Function.update_self]
  rw [Function.update_of_ne hbj]
  by_cases haj : a = j
  · exact hlater b (by omega)
  · rw [Function.update_of_ne haj] at ha
    exact h a b hab ha

/-- A slot written under a key that no other slot has. -/
theorem Distinct.update (h : Distinct t) (hx : ∀ key value, x = .live key value → ∀ i w, i ≠ j →
    t i ≠ .live key w) :
    Distinct (Function.update t j x) := by
  intro a b key v w ha hb
  by_cases haj : a = j
  · by_cases hbj : b = j
    · rw [haj, hbj]
    · rw [haj, Function.update_self] at ha
      rw [Function.update_of_ne hbj] at hb
      exact absurd hb (hx key v ha b w hbj)
  · rw [Function.update_of_ne haj] at ha
    by_cases hbj : b = j
    · rw [hbj, Function.update_self] at hb
      exact absurd ha (hx key w hb a v haj)
    · rw [Function.update_of_ne hbj] at hb
      exact h a b key v w ha hb

end compact

end SlotTable

end Lerux
