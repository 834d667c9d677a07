import Mathlib.Algebra.BigOperators.Intervals
import Mathlib.Algebra.Order.BigOperators.Group.Finset

/-!
# The proleptic Gregorian calendar

Leap years, the lengths of years and months, and the number of a date: the days since the first of
January of the epoch year, counted year by year and month by month. A number is that of one date at
most (`Date.number_injective`).
-/

namespace Lerux.Calendar

open Finset

def Leap (year : Nat) : Prop := year % 4 = 0 ∧ (year % 100 ≠ 0 ∨ year % 400 = 0)

instance leapDecidable : DecidablePred Leap := fun _ => inferInstanceAs (Decidable (_ ∧ _))

def yearLength (year : Nat) : Nat := if Leap year then 366 else 365

def monthLength (year month : Nat) : Nat :=
  if month = 2 then if Leap year then 29 else 28
  else if month = 4 ∨ month = 6 ∨ month = 9 ∨ month = 11 then 30
  else 31

structure Date where
  year : Nat
  month : Nat
  day : Nat
  month_pos : 1 ≤ month
  month_le : month ≤ 12
  day_pos : 1 ≤ day
  day_le : day ≤ monthLength year month

/-- The days from the first of January of the epoch year to that of another year, which may be before. -/
def daysToYear (epoch year : Nat) : Int :=
  (∑ y ∈ Ico epoch year, yearLength y : Nat) - (∑ y ∈ Ico year epoch, yearLength y : Nat)

/-- The days of a year before a month. -/
def daysToMonth (year month : Nat) : Nat := ∑ m ∈ Ico 1 month, monthLength year m

def Date.number (epoch : Nat) (d : Date) : Int :=
  daysToYear epoch d.year + daysToMonth d.year d.month + (d.day - 1)

section days

variable {year year' month month' : Nat}

theorem daysToYear_succ (epoch year : Nat) : daysToYear epoch (year + 1) = daysToYear epoch year +
    yearLength year := by
  rw [daysToYear, daysToYear]
  by_cases h : epoch ≤ year
  · rw [sum_Ico_succ_top h, Ico_eq_empty_of_le h, Ico_eq_empty_of_le (h.trans (Nat.le_succ year))]
    push_cast
    omega
  · rw [not_le] at h
    rw [sum_eq_sum_Ico_succ_bot h, Ico_eq_empty_of_le h, Ico_eq_empty_of_le h.le]
    push_cast
    omega

theorem daysToYear_mono (epoch : Nat) (h : year ≤ year') : daysToYear epoch year ≤
    daysToYear epoch year' := by
  induction h with
  | refl => exact le_rfl
  | step _ ih =>
    rw [daysToYear_succ]
    exact ih.trans (le_add_of_nonneg_right (Int.natCast_nonneg _))

theorem daysToMonth_mono (year : Nat) (h : month ≤ month') : daysToMonth year month ≤
    daysToMonth year month' :=
  sum_le_sum_of_subset (Ico_subset_Ico_right h)

theorem daysToMonth_succ (hmonth : 1 ≤ month) : daysToMonth year (month + 1) =
    daysToMonth year month + monthLength year month :=
  sum_Ico_succ_top hmonth _

theorem daysToMonth_year (year : Nat) : daysToMonth year 13 = yearLength year := by
  simp only [daysToMonth, sum_Ico_eq_sum_range, sum_range_succ, sum_range_zero, monthLength, yearLength]
  by_cases hleap : Leap year
  · simp [hleap]
  · simp [hleap]

end days

namespace Date

variable {epoch : Nat} {d d' : Date}

theorem day_le_daysToMonth (d : Date) : daysToMonth d.year d.month + d.day ≤
    daysToMonth d.year (d.month + 1) := by
  rw [daysToMonth_succ d.month_pos]
  exact Nat.add_le_add_left d.day_le _

theorem daysToYear_le_number (epoch : Nat) (d : Date) : daysToYear epoch d.year ≤ d.number epoch := by
  have hday := d.day_pos
  rw [number]
  omega

theorem number_lt_daysToYear (epoch : Nat) (d : Date) : d.number epoch < daysToYear epoch (d.year + 1) := by
  have hday := d.day_le_daysToMonth
  have hmonth := daysToMonth_mono d.year (Nat.add_le_add_right d.month_le 1)
  rw [daysToMonth_year] at hmonth
  rw [number, daysToYear_succ]
  omega

theorem year_le_of_number_le (h : d.number epoch ≤ d'.number epoch) : d.year ≤ d'.year := by
  by_contra hlt
  have hstart := daysToYear_mono epoch (Nat.add_one_le_iff.mpr (not_le.mp hlt))
  have hyear := d.daysToYear_le_number epoch
  have hend := d'.number_lt_daysToYear epoch
  omega

theorem month_le_of_number_le (hyear : d.year = d'.year) (h : d.number epoch ≤ d'.number epoch) :
    d.month ≤ d'.month := by
  by_contra hlt
  have hstart := daysToMonth_mono d.year (Nat.add_one_le_iff.mpr (not_le.mp hlt))
  have hday := d.day_pos
  have hend := d'.day_le_daysToMonth
  rw [number, number, hyear] at h
  rw [hyear] at hstart
  omega

theorem number_injective (h : d.number epoch = d'.number epoch) : d = d' := by
  have hyear : d.year = d'.year := le_antisymm (year_le_of_number_le h.le) (year_le_of_number_le h.ge)
  have hmonth : d.month = d'.month :=
    le_antisymm (month_le_of_number_le hyear h.le) (month_le_of_number_le hyear.symm h.ge)
  have hday : d.day = d'.day := by
    have hpos := d.day_pos
    have hpos' := d'.day_pos
    rw [number, number, hyear, hmonth] at h
    omega
  obtain ⟨year, month, day, _, _, _, _⟩ := d
  obtain ⟨year', month', day', _, _, _, _⟩ := d'
  obtain rfl : year = year' := hyear
  obtain rfl : month = month' := hmonth
  obtain rfl : day = day' := hday
  rfl

end Date

/-- Before the first of January of a year there is a leap day for each fourth year, but for each
hundredth that is not a four hundredth. -/
theorem daysToYear_eq {epoch year : Nat} (h : epoch ≤ year) : daysToYear epoch year =
    (365 * (year - 1) + (year - 1) / 4 - (year - 1) / 100 + (year - 1) / 400 : Int) -
      (365 * (epoch - 1) + (epoch - 1) / 4 - (epoch - 1) / 100 + (epoch - 1) / 400) := by
  induction h with
  | refl => simp [daysToYear]
  | step h ih =>
    rw [daysToYear_succ, ih, yearLength]
    push_cast
    split
    · next hleap =>
      obtain ⟨hfour, hcentury⟩ := hleap
      omega
    · next hleap =>
      rw [Leap, not_and_or] at hleap
      omega

end Lerux.Calendar
