/-
**The proleptic Gregorian calendar.**

Dates with a year 0, and the number of a day: days are counted through the years and through the
months of a year. `yearStart_succ` and `monthStart_succ` say that this is a count.

* `Date.ext_of_julianDay` — a day has one date.
-/

import Mathlib

namespace Proteus.Library

structure Date where
  year : Int
  month : Nat
  day : Nat
deriving DecidableEq

def Leap (year : Int) : Prop := 4 ∣ year ∧ (¬ 100 ∣ year ∨ 400 ∣ year)

instance (year : Int) : Decidable (Leap year) := inferInstanceAs (Decidable (_ ∧ _))

def monthLength (year : Int) : Nat → Nat
  | 2 => if Leap year then 29 else 28
  | 4 | 6 | 9 | 11 => 30
  | _ => 31

structure Date.Valid (date : Date) : Prop where
  month_pos : 1 ≤ date.month
  month_le : date.month ≤ 12
  day_pos : 1 ≤ date.day
  day_le : date.day ≤ monthLength date.year date.month

def yearStart (year : Int) : Int :=
  365 * (year - 1) + (year - 1) / 4 - (year - 1) / 100 + (year - 1) / 400

/-- The days of the year before a month. -/
def monthStart (year : Int) (month : Nat) : Nat := ∑ earlier ∈ Finset.Ico 1 month,
    monthLength year earlier

/-- The Julian day number: the first day of year 1 is day 1721426. -/
def Date.julianDay (date : Date) : Int :=
  1721425 + yearStart date.year + monthStart date.year date.month + date.day

/-- Counted from the first of January. -/
def Date.dayOfYear (date : Date) : Int := 1 + (date.julianDay - Date.julianDay ⟨date.year, 1, 1⟩)

variable {y : Int} {m : Nat}

theorem yearStart_succ : yearStart (y + 1) = yearStart y + if Leap y then 366 else 365 := by
  by_cases hl : Leap y
  · rw [if_pos hl]
    simp only [Leap] at hl
    simp only [yearStart]
    omega
  · rw [if_neg hl]
    simp only [Leap] at hl
    simp only [yearStart]
    omega

open Finset

theorem monthStart_succ (pos : 1 ≤ m) : monthStart y (m + 1) = monthStart y m + monthLength y m :=
  sum_Ico_succ_top pos _

theorem monthStart_year : (monthStart y 13 : Int) = if Leap y then 366 else 365 := by
  simp only [monthStart, sum_Ico_eq_sum_range, sum_range_succ, sum_range_zero, monthLength]
  split <;> rfl

theorem monthStart_march (le : m ≤ 10) :
    monthStart y (m + 3) = 59 + (if Leap y then 1 else 0) + (153 * m + 2) / 5 := by
  induction m with
  | zero =>
    simp only [monthStart, sum_Ico_eq_sum_range, sum_range_succ, sum_range_zero, monthLength]
    split <;> rfl
  | succ m ih =>
    have hl : m < 10 := le
    rw [Nat.add_right_comm, monthStart_succ (by omega), ih hl.le, add_assoc _ _ (monthLength _ _)]
    congr 1
    interval_cases m <;> rfl

theorem yearStart_mono : Monotone yearStart := by
  refine monotone_int_of_le_succ fun y => ?_
  rw [yearStart_succ]
  split <;> omega

theorem monthStart_mono : Monotone (monthStart y) := fun _ _ le =>
  sum_le_sum_of_subset (Finset.Ico_subset_Ico_right le)

/-- **One place on the line.** Where the starts of consecutive pieces do not decrease, the piece
that a place lies in is determined. -/
theorem eq_of_between {α : Type} [LinearOrder α] [Add α] [One α] [SuccAddOrder α] {st : α → Int}
    (hmo : Monotone st) {f s : α} {p : Int}
    (ha : st f < p) (hb : p ≤ st (f + 1))
    (hao : st s < p) (hbo : p ≤ st (s + 1)) : f = s := by
  rcases lt_trichotomy f s with hl | hs | hm
  · have := hmo (Order.add_one_le_of_lt hl)
    omega
  · exact hs
  · have := hmo (Order.add_one_le_of_lt hm)
    omega

namespace Date

variable {d o : Date} (valid : d.Valid)

include valid

theorem Valid.monthStart_lt :
    (monthStart d.year d.month : Int) < monthStart d.year d.month + d.day ∧
      (monthStart d.year d.month + d.day : Int) ≤ monthStart d.year (d.month + 1) := by
  rw [monthStart_succ valid.month_pos]
  have := valid.day_pos
  have := valid.day_le
  omega

theorem Valid.yearStart_lt : yearStart d.year < d.julianDay - 1721425 ∧
    d.julianDay - 1721425 ≤ yearStart (d.year + 1) := by
  have hi := valid.monthStart_lt
  have hl : monthStart d.year (d.month + 1) ≤ monthStart d.year 13 :=
    monthStart_mono (Nat.succ_le_succ valid.month_le)
  have hw : (monthStart d.year 13 : Int) = _ := monthStart_year
  rw [yearStart_succ, julianDay]
  omega

theorem Valid.dayOfYear_bounds :
    1 ≤ d.dayOfYear ∧ d.dayOfYear ≤ 366 ∧ (d.dayOfYear = 366 → Leap d.year) := by
  obtain ⟨ha, hb⟩ := valid.yearStart_lt
  have hj : Date.julianDay ⟨d.year, 1, 1⟩ = 1721425 + yearStart d.year + (0 : Nat) + (1 : Nat) :=
    rfl
  rw [yearStart_succ] at hb
  rw [dayOfYear, hj]
  refine ⟨by omega, ?_, fun hf => ?_⟩
  · split at hb <;> omega
  · by_contra hc
    rw [if_neg hc] at hb
    omega

/-- **A day has one date.** -/
theorem ext_of_julianDay (hvo : o.Valid) (hs : d.julianDay = o.julianDay) : d = o := by
  obtain ⟨y, m, day⟩ := d
  obtain ⟨y', m', day'⟩ := o
  have hiy := valid.yearStart_lt
  have hi := hvo.yearStart_lt
  rw [hs] at hiy
  obtain rfl : y = y' := eq_of_between yearStart_mono hiy.1 hiy.2 hi.1 hi.2
  have him := valid.monthStart_lt
  have hin := hvo.monthStart_lt
  have hp : (monthStart y m + day : Int) = monthStart y m' + day' := by
    simp only [julianDay] at hs
    omega
  simp only [hp] at him
  obtain rfl : m = m' := eq_of_between (Nat.mono_cast.comp monthStart_mono) him.1 him.2 hin.1 hin.2
  obtain rfl : day = day' := by omega
  rfl

end Date

end Proteus.Library
