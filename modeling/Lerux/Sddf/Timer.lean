import Lerux.Base.Calendar
import Mathlib.Tactic.IntervalCases

/-!
# The clock of the timer client

`timer.rs`: counter ticks are made nanoseconds, and nanoseconds a date. `ticks_to_ns` multiplies the
whole seconds without a check and the ticks of the last second with saturation, which shows at
frequencies above 18 gigahertz (`ticksToNs_exact`).
-/

namespace Lerux.Timer

open Finset Calendar

def nsPerS : Nat := 1000000000

/-! ### Ticks -/

def u64Max : Nat := 2 ^ 64 - 1

/-- A product without saturation, none where it overflows. -/
def mul (a b : Nat) : Option Nat := if a * b ≤ u64Max then some (a * b) else none

def saturatingMul (a b : Nat) : Nat := min (a * b) u64Max

def saturatingAdd (a b : Nat) : Nat := min (a + b) u64Max

def ticksToNs (ticks freq : UInt64) : Option Nat :=
  if freq.toNat = 0 then some 0
  else do
    let whole ← mul (ticks.toNat / freq.toNat) nsPerS
    let rest := saturatingMul (ticks.toNat % freq.toNat) nsPerS / freq.toNat
    return saturatingAdd whole rest

/-- The whole seconds are a number of nanoseconds, and the ticks of the last second lose nothing by
saturation. -/
def InRange (ticks freq : UInt64) : Prop :=
  ticks.toNat / freq.toNat * nsPerS ≤ u64Max ∧
    (ticks.toNat % freq.toNat * nsPerS ≤ u64Max ∨
      ticks.toNat % freq.toNat * nsPerS / freq.toNat = u64Max / freq.toNat)

section ticks

variable {ticks ticks' freq : UInt64} {t f v v' : Nat}

theorem mul_div_split (t : Nat) (hf : 0 < f) : t * nsPerS / f = t / f * nsPerS + t % f * nsPerS / f := by
  have hsplit : t * nsPerS = f * (t / f * nsPerS) + t % f * nsPerS := by
    rw [← Nat.mul_assoc, ← Nat.add_mul, Nat.div_add_mod]
  rw [hsplit, Nat.mul_add_div hf]

/-- What the ticks of the last second are is less than a second. -/
theorem rest_lt (hf : 0 < f) : t % f * nsPerS / f < nsPerS := by
  rw [Nat.div_lt_iff_lt_mul hf, Nat.mul_comm nsPerS]
  exact Nat.mul_lt_mul_of_pos_right (Nat.mod_lt t hf) (by decide)

theorem saturatingMul_div_le (a : Nat) : saturatingMul a nsPerS / f ≤ a * nsPerS / f :=
  Nat.div_le_div_right (min_le_left _ _)

theorem ticksToNs_eq_some (hfreq : freq ≠ 0) : ticksToNs ticks freq = some v ↔
    ticks.toNat / freq.toNat * nsPerS ≤ u64Max ∧
      v = saturatingAdd (ticks.toNat / freq.toNat * nsPerS)
        (saturatingMul (ticks.toNat % freq.toNat) nsPerS / freq.toNat) := by
  have hne : freq.toNat ≠ 0 := fun h => hfreq (UInt64.toNat_inj.mp h)
  rw [ticksToNs, if_neg hne, mul]
  split
  · next hle =>
    constructor
    · intro h
      exact ⟨hle, (Option.some.inj h).symm⟩
    · rintro ⟨-, rfl⟩
      rfl
  · next hover =>
    constructor
    · intro h
      cases h
    · rintro ⟨hle, -⟩
      exact absurd hle hover

/-- A second that is cut off by saturation is one of so many ticks that the whole seconds are few. -/
theorem mul_div_lt_of_saturated (ht : t ≤ u64Max) (hf : 0 < f) (hrest : u64Max < t % f * nsPerS) :
    t * nsPerS / f < u64Max := by
  have hlt : t < f * nsPerS :=
    ht.trans_lt (hrest.trans (Nat.mul_lt_mul_of_pos_right (Nat.mod_lt t hf) (by decide)))
  have hsquare : t * nsPerS / f < nsPerS * nsPerS := by
    rw [Nat.div_lt_iff_lt_mul hf]
    calc t * nsPerS < f * nsPerS * nsPerS := Nat.mul_lt_mul_of_pos_right hlt (by decide)
      _ = nsPerS * nsPerS * f := by rw [Nat.mul_assoc, Nat.mul_comm]
  exact hsquare.trans (by decide)

theorem saturatingAdd_eq_iff (ht : t ≤ u64Max) (hf : 0 < f) :
    saturatingAdd (t / f * nsPerS) (saturatingMul (t % f) nsPerS / f) = min u64Max (t * nsPerS / f) ↔
      (t % f * nsPerS ≤ u64Max ∨ t % f * nsPerS / f = u64Max / f) := by
  rw [saturatingAdd, saturatingMul, mul_div_split t hf, min_comm u64Max]
  by_cases hrest : t % f * nsPerS ≤ u64Max
  · rw [min_eq_left hrest]
    exact ⟨fun _ => .inl hrest, fun _ => rfl⟩
  · have hlt := mul_div_lt_of_saturated ht hf (not_le.mp hrest)
    rw [mul_div_split t hf] at hlt
    have hle : u64Max / f ≤ t % f * nsPerS / f := Nat.div_le_div_right (not_le.mp hrest).le
    rw [min_eq_right (not_le.mp hrest).le, min_eq_left (by omega), min_eq_left hlt.le]
    constructor
    · intro heq
      exact .inr (by omega)
    · rintro (habs | heq)
      · exact absurd habs hrest
      · rw [heq]

theorem ticksToNs_mono (hle : ticks ≤ ticks') (h : ticksToNs ticks freq = some v)
    (h' : ticksToNs ticks' freq = some v') :
    v ≤ v' := by
  obtain rfl | hfreq := eq_or_ne freq 0
  · obtain rfl := Option.some.inj h
    exact Nat.zero_le _
  · rw [ticksToNs_eq_some hfreq] at h h'
    obtain ⟨-, rfl⟩ := h
    obtain ⟨-, rfl⟩ := h'
    have hf : 0 < freq.toNat := Nat.pos_of_ne_zero fun h => hfreq (UInt64.toNat_inj.mp h)
    have ht : ticks.toNat ≤ ticks'.toNat := hle
    refine min_le_min_right _ ?_
    obtain heq | hlt := (Nat.div_le_div_right ht : ticks.toNat / freq.toNat ≤
      ticks'.toNat / freq.toNat).eq_or_lt
    · rw [heq]
      refine Nat.add_le_add_left (Nat.div_le_div_right (min_le_min_right _ (Nat.mul_le_mul_right _ ?_))) _
      have hdiv := Nat.div_add_mod ticks.toNat freq.toNat
      have hdiv' := Nat.div_add_mod ticks'.toNat freq.toNat
      rw [heq] at hdiv
      omega
    · have hrest := (saturatingMul_div_le (ticks.toNat % freq.toNat)).trans_lt (rest_lt hf)
      calc ticks.toNat / freq.toNat * nsPerS + saturatingMul (ticks.toNat % freq.toNat) nsPerS / freq.toNat
          ≤ ticks.toNat / freq.toNat * nsPerS + nsPerS := Nat.add_le_add_left hrest.le _
        _ = (ticks.toNat / freq.toNat + 1) * nsPerS := (Nat.succ_mul _ _).symm
        _ ≤ ticks'.toNat / freq.toNat * nsPerS := Nat.mul_le_mul_right _ hlt
        _ ≤ _ := Nat.le_add_right _ _

end ticks

/-- The nanoseconds of a number of ticks are the rounded quotient, cut off at the largest number,
just where the ticks are in range; and more ticks are never fewer nanoseconds. -/
theorem ticksToNs_exact (ticks freq : UInt64) (hfreq : freq ≠ 0) :
    (ticksToNs ticks freq = some (min u64Max (ticks.toNat * nsPerS / freq.toNat)) ↔ InRange ticks freq) ∧
    ∀ ticks' v v', ticks ≤ ticks' → ticksToNs ticks freq = some v →
      ticksToNs ticks' freq = some v' → v ≤ v' := by
  have hf : 0 < freq.toNat := Nat.pos_of_ne_zero fun h => hfreq (UInt64.toNat_inj.mp h)
  have ht : ticks.toNat ≤ u64Max := Nat.le_pred_of_lt ticks.toNat_lt
  refine ⟨?_, fun ticks' v v' => ticksToNs_mono⟩
  rw [ticksToNs_eq_some hfreq, InRange, eq_comm, saturatingAdd_eq_iff ht hf]

theorem ticksToNs_exact_tenSeconds :
    ticksToNs 625000000 62500000 = some (min u64Max
      ((625000000 : UInt64).toNat * nsPerS / (62500000 : UInt64).toNat)) ↔
      InRange 625000000 62500000 :=
  (ticksToNs_exact 625000000 62500000 (by decide)).1

/-- A counter of one tick a second is out of range after five centuries. -/
theorem ticksToNs_overflows : (1 : UInt64) ≠ 0 ∧
    ticksToNs 18446744074 1 ≠ some (min u64Max
      ((18446744074 : UInt64).toNat * nsPerS / (1 : UInt64).toNat)) := by
  decide +kernel

/-! ### Dates -/

/-- The year of the era of 400 years, from the day of the era. Years begin with March here. -/
def yearOfEra (doe : Nat) : Nat := (doe - doe / 1460 + doe / 36524 - doe / 146096) / 365

def civilFromDays (days : Nat) : Option (UInt16 × UInt8 × UInt8) :=
  let z := days + 719468
  let era := z / 146097
  let doe := z - era * 146097
  let yoe := yearOfEra doe
  let y := yoe + era * 400
  let doy := doe - (365 * yoe + yoe / 4 - yoe / 100)
  let mp := (5 * doy + 2) / 153
  let day := doy - (153 * mp + 2) / 5 + 1
  let month := if mp < 10 then mp + 3 else mp - 9
  let year := if month ≤ 2 then y + 1 else y
  if month < 256 ∧ day < 256 then some (.ofNat year, .ofNat month, .ofNat day) else none

def dateFromNs (ns : UInt64) : Option (UInt16 × UInt8 × UInt8) := civilFromDays (ns.toNat / 86400 / nsPerS)

/-- The day of the era a year of the era begins with. -/
def eraStart (yoe : Nat) : Nat := 365 * yoe + yoe / 4 - yoe / 100 + yoe / 400

theorem yearOfEra_mono {doe doe' : Nat} (h : doe ≤ doe') (hlt : doe' < 146097) :
    yearOfEra doe ≤ yearOfEra doe' := by
  induction h with
  | refl => exact le_rfl
  | @step k h ih =>
    refine (ih (by omega)).trans (Nat.div_le_div_right ?_)
    omega

theorem yearOfEra_spec {doe : Nat} (h : doe < 146097) :
    yearOfEra doe < 400 ∧ eraStart (yearOfEra doe) ≤ doe ∧ doe < eraStart (yearOfEra doe + 1) := by
  have hfirst : ∀ yoe < 400, yearOfEra (eraStart yoe) = yoe := by decide +kernel
  have hlast : ∀ yoe < 400, yearOfEra (eraStart (yoe + 1) - 1) = yoe := by decide +kernel
  have hbound : ∀ yoe < 400, eraStart (yoe + 1) ≤ 146097 := by
    intro yoe hyoe
    unfold eraStart
    omega
  have hyear : yearOfEra doe < 400 := by
    have hle := yearOfEra_mono (Nat.le_sub_one_of_lt h) (by omega)
    exact lt_of_le_of_lt hle (by decide)
  refine ⟨hyear, ?_, ?_⟩
  · by_contra hbefore
    obtain ⟨k, hk⟩ : ∃ k, yearOfEra doe = k + 1 := by
      refine Nat.exists_eq_succ_of_ne_zero fun hzero => ?_
      rw [hzero] at hbefore
      exact hbefore (Nat.zero_le _)
    have hle : yearOfEra doe ≤ yearOfEra (eraStart (k + 1) - 1) :=
      yearOfEra_mono (by rw [hk] at hbefore; omega) (by have := hbound k (by omega); omega)
    rw [hlast k (by omega), hk] at hle
    omega
  · by_contra hbehind
    have hnext : yearOfEra doe + 1 < 400 := by
      by_contra hnot
      have hend : yearOfEra doe = 399 := by omega
      rw [hend] at hbehind
      exact hbehind h
    have hle := yearOfEra_mono (not_lt.mp hbehind) h
    rw [hfirst _ hnext] at hle
    omega

/-! The months from March on, whose lengths are those of `(153 * mp + 2) / 5`, and the last of them
February. -/

theorem monthLength_march {mp : Nat} (year : Nat) (h : mp < 10) :
    (153 * mp + 2) / 5 + monthLength year (mp + 3) = (153 * (mp + 1) + 2) / 5 := by
  interval_cases mp <;> rfl

theorem daysToMonth_march {mp : Nat} (year : Nat) (h : mp < 10) :
    daysToMonth year (mp + 3) = (153 * mp + 2) / 5 + 59 + if Leap year then 1 else 0 := by
  induction mp with
  | zero =>
    rw [daysToMonth_succ (by decide), daysToMonth_succ le_rfl, daysToMonth, Ico_self, sum_empty]
    by_cases hleap : Leap year
    · rw [if_pos hleap, monthLength, monthLength, if_pos rfl, if_pos hleap]
      rfl
    · rw [if_neg hleap, monthLength, monthLength, if_pos rfl, if_neg hleap]
      rfl
  | succ mp ih =>
    have hlength := monthLength_march year (Nat.lt_of_succ_lt h)
    have hmonth : 1 ≤ mp + 3 := by omega
    rw [Nat.add_right_comm mp 1 3, daysToMonth_succ hmonth, ih (Nat.lt_of_succ_lt h)]
    omega

theorem daysToMonth_january {mp : Nat} (year : Nat) (hlow : 10 ≤ mp) (h : mp < 12) :
    daysToMonth year (mp - 9) + 306 = (153 * mp + 2) / 5 := by
  obtain rfl | rfl : mp = 10 ∨ mp = 11 := by omega
  · rw [daysToMonth, Ico_self, sum_empty]
  · rw [daysToMonth_succ le_rfl, daysToMonth, Ico_self, sum_empty]
    rfl

section civil

variable {days era yoe doy mp : Nat}

/-- A day is that of a year of an era, counted from the first of March. -/
structure Split (days era yoe doy : Nat) : Prop where
  yoe_lt : yoe < 400
  days_eq : days + 719468 + yoe / 100 = era * 146097 + 365 * yoe + yoe / 4 + doy
  doy_lt : doy + (yoe + 1) / 100 + yoe / 4 < 365 + (yoe + 1) / 4 + yoe / 100 + (yoe + 1) / 400

theorem exists_split (days : Nat) : ∃ era yoe doy, Split days era yoe doy ∧
    era = (days + 719468) / 146097 ∧ yoe = yearOfEra (days + 719468 - era * 146097) ∧
    doy = days + 719468 - era * 146097 - (365 * yoe + yoe / 4 - yoe / 100) := by
  refine ⟨_, _, _, ?_, rfl, rfl, rfl⟩
  obtain ⟨hyoe, hstart, hend⟩ := @yearOfEra_spec (days + 719468 - (days + 719468) / 146097 * 146097)
    (by omega)
  unfold eraStart at hstart hend
  exact ⟨hyoe, by omega, by omega⟩

/-- The leap days of the era, before March of a year. -/
theorem leaps_march (era : Nat) (h : yoe < 400) :
    ((yoe + era * 400 : Nat) - 1 : Int) / 4 - ((yoe + era * 400 : Nat) - 1 : Int) / 100 +
      ((yoe + era * 400 : Nat) - 1 : Int) / 400 + (if Leap (yoe + era * 400) then 1 else 0) =
        97 * era + yoe / 4 - yoe / 100 := by
  by_cases hfour : yoe % 4 = 0
  · by_cases hcentury : yoe % 100 = 0
    · by_cases hera : yoe = 0
      · rw [if_pos ⟨by omega, by omega⟩]
        omega
      · rw [if_neg (by rw [Leap]; omega)]
        omega
    · rw [if_pos ⟨by omega, by omega⟩]
      omega
  · rw [if_neg (by rw [Leap]; omega)]
    omega

theorem Split.mp_lt (h : Split days era yoe doy) (hmp : mp = (5 * doy + 2) / 153) : mp < 12 := by
  obtain ⟨hyoe, -, hdoy⟩ := h
  omega

/-- From March to December. -/
theorem Split.march (h : Split days era yoe doy) (hmp : mp = (5 * doy + 2) / 153) (hlow : mp < 10) :
    ∃ date : Date, date.year = yoe + era * 400 ∧ date.month = mp + 3 ∧
      date.day = doy - (153 * mp + 2) / 5 + 1 ∧ date.number 1970 = days := by
  obtain ⟨hyoe, hdays, -⟩ := h
  have hlength := monthLength_march (yoe + era * 400) hlow
  refine ⟨⟨yoe + era * 400, mp + 3, doy - (153 * mp + 2) / 5 + 1,
    by omega, by omega, by omega, by omega⟩, rfl, rfl, rfl, ?_⟩
  have hyear : 1970 ≤ yoe + era * 400 := by omega
  have hle : (153 * mp + 2) / 5 ≤ doy := by omega
  have hleaps := leaps_march era hyoe
  rw [Date.number, daysToYear_eq hyear, daysToMonth_march _ hlow]
  push_cast at hleaps ⊢
  omega

/-- January and February, which are of the next year. -/
theorem Split.january (h : Split days era yoe doy) (hmp : mp = (5 * doy + 2) / 153) (hlow : 10 ≤ mp) :
    ∃ date : Date, date.year = yoe + era * 400 + 1 ∧ date.month = mp - 9 ∧
      date.day = doy - (153 * mp + 2) / 5 + 1 ∧ date.number 1970 = days := by
  have hhigh := h.mp_lt hmp
  obtain ⟨hyoe, hdays, hdoy⟩ := h
  have hlength : doy - (153 * mp + 2) / 5 + 1 ≤ monthLength (yoe + era * 400 + 1) (mp - 9) := by
    rw [monthLength]
    obtain rfl | rfl : mp = 10 ∨ mp = 11 := by omega
    · rw [if_neg (by decide), if_neg (by decide)]
      omega
    · rw [if_pos (by decide)]
      split
      · omega
      · next hleap =>
        rw [Leap, not_and_or] at hleap
        omega
  have hmonth := daysToMonth_january (yoe + era * 400 + 1) hlow hhigh
  refine ⟨⟨yoe + era * 400 + 1, mp - 9, doy - (153 * mp + 2) / 5 + 1,
    by omega, by omega, by omega, hlength⟩, rfl, rfl, rfl, ?_⟩
  have hyear : 1970 ≤ yoe + era * 400 + 1 := by omega
  rw [Date.number, daysToYear_eq hyear]
  push_cast
  omega

theorem day_lt (date : Date) : date.day < 256 := by
  have hle := date.day_le
  rw [monthLength] at hle
  split_ifs at hle <;> omega

theorem civilFromDays_spec (days : Nat) : ∃ date : Date, date.number 1970 = days ∧
    civilFromDays days = some (.ofNat date.year, .ofNat date.month, .ofNat date.day) := by
  obtain ⟨era, yoe, doy, hsplit, hera, hyoe, hdoy⟩ := exists_split days
  unfold civilFromDays
  dsimp only
  rw [← hera, ← hyoe, ← hdoy]
  obtain ⟨mp, hmp⟩ : ∃ mp, mp = (5 * doy + 2) / 153 := ⟨_, rfl⟩
  rw [← hmp]
  by_cases hlow : mp < 10
  · obtain ⟨date, hyear, hmonth, hday, hnumber⟩ := hsplit.march hmp hlow
    have hmonth_lt : date.month < 256 := date.month_le.trans_lt (by decide)
    rw [if_pos hlow, ← hmonth, ← hday, if_pos ⟨hmonth_lt, day_lt date⟩, if_neg (by omega), ← hyear]
    exact ⟨date, hnumber, rfl⟩
  · obtain ⟨date, hyear, hmonth, hday, hnumber⟩ := hsplit.january hmp (not_lt.mp hlow)
    have hmonth_lt : date.month < 256 := date.month_le.trans_lt (by decide)
    have hhigh := hsplit.mp_lt hmp
    rw [if_neg hlow, ← hmonth, ← hday, if_pos ⟨hmonth_lt, day_lt date⟩, if_pos (by omega), ← hyear]
    exact ⟨date, hnumber, rfl⟩

end civil

theorem year_lt_of_number_lt {date : Date} {days : Nat} (hnumber : date.number 1970 = days)
    (hdays : days < 23212000) :
    1970 ≤ date.year ∧ date.year < 65536 := by
  have hstart := date.daysToYear_le_number 1970
  have hend := date.number_lt_daysToYear 1970
  constructor
  · by_contra hbefore
    have hmono := daysToYear_mono 1970 (show date.year + 1 ≤ 1970 by omega)
    rw [daysToYear_eq le_rfl] at hmono
    omega
  · by_contra hbehind
    have hmono := daysToYear_mono 1970 (not_lt.mp hbehind)
    rw [daysToYear_eq (by decide)] at hmono
    omega

/-- The date of a number of nanoseconds is the one date of the calendar with the number of its day,
and nothing of it is cut off. -/
theorem dateFromNs_date (ns : UInt64) : ∃ date : Date,
    dateFromNs ns = some (.ofNat date.year, .ofNat date.month, .ofNat date.day) ∧
    (UInt16.ofNat date.year).toNat = date.year ∧ (UInt8.ofNat date.month).toNat = date.month ∧
    (UInt8.ofNat date.day).toNat = date.day ∧ date.number 1970 = (ns.toNat / (86400 * nsPerS) : Nat) ∧
    ∀ other : Date, other.number 1970 = (ns.toNat / (86400 * nsPerS) : Nat) → other = date := by
  obtain ⟨date, hnumber, hcivil⟩ := civilFromDays_spec (ns.toNat / 86400 / nsPerS)
  have hns := ns.toNat_lt
  have hdays : ns.toNat / 86400 / nsPerS < 23212000 := by
    unfold nsPerS
    omega
  have hyear := (year_lt_of_number_lt hnumber hdays).2
  rw [Nat.div_div_eq_div_mul] at hnumber
  refine ⟨date, hcivil, UInt16.toNat_ofNat_of_lt hyear, UInt8.toNat_ofNat_of_lt ?_,
    UInt8.toNat_ofNat_of_lt (day_lt date), hnumber, ?_⟩
  · exact date.month_le.trans_lt (by decide)
  · intro other hother
    exact Date.number_injective (hother.trans hnumber.symm)

end Lerux.Timer
