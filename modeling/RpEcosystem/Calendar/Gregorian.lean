import Mathlib.Algebra.Ring.Nat
import Mathlib.Tactic.Common

/-!
# The Gregorian calendar

Dates and day numbers, both over all integers and without an epoch: day 0 is the first of
January of year 1. Months count from 0 and days from 1.

* `Date.Valid`: the dates of the calendar;
* `Date.number`, `Date.ofNumber`: the day number of a date and the date of a day number;
* `Date.ofNumber_valid`, `Date.number_ofNumber`, `Date.ofNumber_number`: they are inverse to
  each other.
-/

namespace Calendar

/-! ## Years -/

/-- The days of the year `y` over 365. -/
def leap (y : Int) : Int := if y % 4 = 0 ∧ (y % 100 ≠ 0 ∨ y % 400 = 0) then 1 else 0

def daysBeforeYear (y : Int) : Int :=
  365 * (y - 1) + (y - 1) / 4 - (y - 1) / 100 + (y - 1) / 400

/-- The year of a day by the mean length of a year, right up to one. -/
def meanYear (n : Int) : Int := 400 * n / 146097 + 1

/-- The year of a day. -/
def yearOf (n : Int) : Int :=
  if n < daysBeforeYear (meanYear n) then meanYear n - 1
  else if daysBeforeYear (meanYear n + 1) ≤ n then meanYear n + 1
  else meanYear n

theorem leap_cases (y : Int) : leap y = 0 ∨ leap y = 1 := by
  unfold leap
  split
  · exact Or.inr rfl
  · exact Or.inl rfl

theorem daysBeforeYear_succ (y : Int) :
    daysBeforeYear (y + 1) = daysBeforeYear y + 365 + leap y := by
  unfold daysBeforeYear leap
  split <;> omega

theorem daysBeforeYear_lt {y z : Int} (h : daysBeforeYear y < daysBeforeYear z) : y < z := by
  unfold daysBeforeYear at h
  omega

theorem yearOf_spec (n : Int) :
    daysBeforeYear (yearOf n) ≤ n ∧ n < daysBeforeYear (yearOf n + 1) := by
  have hlo : daysBeforeYear (meanYear n - 1) ≤ n := by
    unfold daysBeforeYear meanYear
    omega
  have hhi : n < daysBeforeYear (meanYear n + 1 + 1) := by
    unfold daysBeforeYear meanYear
    omega
  unfold yearOf
  split_ifs with h1 h2
  · rw [Int.sub_add_cancel]
    exact ⟨hlo, h1⟩
  · exact ⟨h2, hhi⟩
  · exact ⟨by omega, by omega⟩

/-- A day lies in one year only. -/
theorem yearOf_eq {n y : Int} (hlo : daysBeforeYear y ≤ n) (hhi : n < daysBeforeYear (y + 1)) :
    yearOf n = y := by
  obtain ⟨hlo', hhi'⟩ := yearOf_spec n
  have h1 := daysBeforeYear_lt (Int.lt_of_le_of_lt hlo hhi')
  have h2 := daysBeforeYear_lt (Int.lt_of_le_of_lt hlo' hhi)
  omega

/-! ## Months -/

/-- The days before the month `m` of a year with `l` leap days. From March on, five months have
153 days. -/
def monthStart (l m : Int) : Int :=
  if m = 0 then 0 else if m = 1 then 31 else 59 + l + (153 * (m - 2) + 2) / 5

/-- The month of the day `d` of a year, from 0. -/
def monthOf (l d : Int) : Int :=
  if d < 31 then 0 else if d < 59 + l then 1 else (5 * (d - 59 - l) + 2) / 153 + 2

theorem monthStart_le {l m : Int} (hl : l = 0 ∨ l = 1) (hlo : 0 ≤ m) (hhi : m < 12) :
    0 ≤ monthStart l m ∧ monthStart l (m + 1) ≤ 365 + l := by
  unfold monthStart
  split_ifs <;> omega

theorem monthOf_spec {l d : Int} (hlo : 0 ≤ d) (hhi : d < 365 + l) :
    (0 ≤ monthOf l d ∧ monthOf l d < 12) ∧ monthStart l (monthOf l d) ≤ d ∧
      d < monthStart l (monthOf l d + 1) := by
  unfold monthOf monthStart
  split_ifs <;> omega

theorem monthOf_eq {l d m : Int} (hl : l = 0 ∨ l = 1) (hm : 0 ≤ m) (hlo : monthStart l m ≤ d)
    (hhi : d < monthStart l (m + 1)) : monthOf l d = m := by
  unfold monthStart at hlo hhi
  unfold monthOf
  split_ifs at hlo hhi ⊢ <;> omega

/-! ## Dates -/

structure Date where
  year : Int
  month : Int
  day : Int
  deriving DecidableEq

namespace Date

def monthLength (d : Date) : Int :=
  monthStart (leap d.year) (d.month + 1) - monthStart (leap d.year) d.month

def Valid (d : Date) : Prop := 0 ≤ d.month ∧ d.month < 12 ∧ 1 ≤ d.day ∧ d.day ≤ d.monthLength

instance (d : Date) : Decidable d.Valid := inferInstanceAs (Decidable (_ ∧ _))

def number (d : Date) : Int :=
  daysBeforeYear d.year + monthStart (leap d.year) d.month + d.day - 1

def ofNumber (n : Int) : Date :=
  let y := yearOf n
  let m := monthOf (leap y) (n - daysBeforeYear y)
  ⟨y, m, n - daysBeforeYear y - monthStart (leap y) m + 1⟩

/-- Where a day lies in its year and month. -/
theorem ofNumber_spec (n : Int) : (0 ≤ (ofNumber n).month ∧ (ofNumber n).month < 12) ∧
    monthStart (leap (ofNumber n).year) (ofNumber n).month ≤
        n - daysBeforeYear (ofNumber n).year ∧
      n - daysBeforeYear (ofNumber n).year <
        monthStart (leap (ofNumber n).year) ((ofNumber n).month + 1) := by
  obtain ⟨hlo, hhi⟩ := yearOf_spec n
  have hlen := daysBeforeYear_succ (yearOf n)
  exact monthOf_spec (by omega) (by omega)

theorem ofNumber_valid (n : Int) : (ofNumber n).Valid := by
  obtain ⟨⟨h0, h12⟩, hlo, hhi⟩ := ofNumber_spec n
  have hday : (ofNumber n).day = n - daysBeforeYear (ofNumber n).year -
    monthStart (leap (ofNumber n).year) (ofNumber n).month + 1 := rfl
  refine ⟨h0, h12, by omega, ?_⟩
  unfold monthLength
  omega

theorem number_ofNumber (n : Int) : (ofNumber n).number = n := by
  have hday : (ofNumber n).day = n - daysBeforeYear (ofNumber n).year -
    monthStart (leap (ofNumber n).year) (ofNumber n).month + 1 := rfl
  unfold number
  omega

theorem ofNumber_number {d : Date} (h : d.Valid) : ofNumber d.number = d := by
  obtain ⟨h0, h12, h1, hlen⟩ := h
  unfold monthLength at hlen
  have hl := leap_cases d.year
  have hyear := daysBeforeYear_succ d.year
  have hmonth := monthStart_le hl h0 h12
  have hy : yearOf d.number = d.year := by
    apply yearOf_eq
    · unfold number
      omega
    · unfold number
      omega
  have hm : monthOf (leap d.year) (d.number - daysBeforeYear d.year) = d.month := by
    apply monthOf_eq hl h0
    · unfold number
      omega
    · unfold number
      omega
  unfold ofNumber
  simp only [hy, hm]
  obtain ⟨y, m, k⟩ := d
  simp only [number, mk.injEq, true_and]
  omega

end Date

end Calendar
