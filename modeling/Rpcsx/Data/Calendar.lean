import Mathlib.Algebra.Order.BigOperators.Group.List
import Mathlib.Tactic.IntervalCases

namespace Rpcsx.Data

-- The proleptic Gregorian calendar, with days counted from the first day of year 1.
namespace Calendar

def isLeap (year : Nat) : Bool := year % 4 == 0 && (year % 100 != 0 || year % 400 == 0)

-- Days of the years 1, ..., `years`.
def daysInYears (years : Nat) : Nat := 365 * years + years / 4 - years / 100 + years / 400

def daysInYear (year : Nat) : Nat := if isLeap year then 366 else 365

theorem daysInYears_succ (years : Nat) :
    daysInYears (years + 1) = daysInYears years + daysInYear (years + 1) := by
  have h4 := Nat.succ_div (a := years) (b := 4)
  have h100 := Nat.succ_div (a := years) (b := 100)
  have h400 := Nat.succ_div (a := years) (b := 400)
  simp only [Nat.dvd_iff_mod_eq_zero] at h4 h100 h400
  by_cases hfour : (years + 1) % 4 = 0
  · rw [if_pos hfour] at h4
    by_cases hhundred : (years + 1) % 100 = 0
    · rw [if_pos hhundred] at h100
      by_cases hcycle : (years + 1) % 400 = 0
      · rw [if_pos hcycle] at h400
        have hlength : daysInYear (years + 1) = 366 := by
          simp [daysInYear, isLeap, hfour, hcycle]
        simp only [daysInYears, hlength]
        omega
      · rw [if_neg hcycle] at h400
        have hlength : daysInYear (years + 1) = 365 := by
          simp [daysInYear, isLeap, hhundred, hcycle]
        simp only [daysInYears, hlength]
        omega
    · rw [if_neg hhundred] at h100
      rw [if_neg (by omega)] at h400
      have hlength : daysInYear (years + 1) = 366 := by
        simp [daysInYear, isLeap, hfour, hhundred]
      simp only [daysInYears, hlength]
      omega
  · rw [if_neg hfour] at h4
    rw [if_neg (by omega)] at h100
    rw [if_neg (by omega)] at h400
    have hlength : daysInYear (years + 1) = 365 := by
      simp [daysInYear, isLeap, hfour]
    simp only [daysInYears, hlength]
    omega

theorem daysInYears_mono {a b : Nat} (h : a ≤ b) : daysInYears a ≤ daysInYears b := by
  induction h with
  | refl => exact le_rfl
  | step _ ih => exact ih.trans (by rw [daysInYears_succ]; exact Nat.le_add_right _ _)

theorem daysInYears_cycles (cycles years : Nat) :
    daysInYears (cycles * 400 + years) = cycles * 146097 + daysInYears years := by
  simp only [daysInYears]
  omega

theorem isLeap_cycles (cycles year : Nat) : isLeap (cycles * 400 + year) = isLeap year := by
  have h4 : (cycles * 400 + year) % 4 = year % 4 := by omega
  have h100 : (cycles * 400 + year) % 100 = year % 100 := by omega
  have h400 : (cycles * 400 + year) % 400 = year % 400 := by omega
  simp only [isLeap, h4, h100, h400]

-- The year a day of the 400-year cycle is in: the terms take out the leap days before the
-- division by 365.
def yearOfDay (day : Nat) : Nat := (day - day / 1460 + day / 36524 - day / 146096) / 365

theorem yearOfDay_mono {a b : Nat} (h : a ≤ b) : yearOfDay a ≤ yearOfDay b := by
  have hsucc : ∀ day, yearOfDay day ≤ yearOfDay (day + 1) := by
    intro day
    refine Nat.div_le_div_right ?_
    omega
  exact monotone_nat_of_le_succ hsucc h

-- On the first and on the last day of a year.
theorem yearOfDay_ends : ∀ year < 400, yearOfDay (daysInYears year) = year ∧
    yearOfDay (daysInYears (year + 1) - 1) = year := by
  decide +kernel

theorem yearOfDay_spec {day : Nat} (h : day < 146097) :
    yearOfDay day < 400 ∧ daysInYears (yearOfDay day) ≤ day ∧
      day < daysInYears (yearOfDay day + 1) := by
  have hyear : yearOfDay day < 400 := by
    have hlast := yearOfDay_mono (Nat.le_of_lt_succ h)
    rw [show yearOfDay 146096 = 399 from rfl] at hlast
    omega
  refine ⟨hyear, ?_, ?_⟩
  · by_contra hbefore
    cases hk : yearOfDay day with
    | zero =>
        rw [hk] at hbefore
        exact hbefore (Nat.zero_le _)
    | succ year =>
        have hmono : yearOfDay day ≤ yearOfDay (daysInYears (year + 1) - 1) :=
          yearOfDay_mono (by rw [hk] at hbefore; omega)
        rw [(yearOfDay_ends year (by omega)).2] at hmono
        omega
  · by_contra hafter
    cases Nat.lt_or_ge (yearOfDay day + 1) 400 with
    | inl hnext =>
        have hmono := yearOfDay_mono (Nat.le_of_not_lt hafter)
        rw [(yearOfDay_ends _ hnext).1] at hmono
        omega
    | inr hlast =>
        have hcycle : yearOfDay day + 1 = 400 := by omega
        rw [hcycle] at hafter
        exact hafter h

def monthLengths (leap : Bool) : List Nat :=
  [31, if leap then 29 else 28, 31, 30, 31, 30, 31, 31, 30, 31, 30, 31]

-- Months are counted from 1.
def monthLength (leap : Bool) (month : Nat) : Nat := (monthLengths leap).getD (month - 1) 0

-- Days of the year before the first of the month.
def monthStart (leap : Bool) (month : Nat) : Nat := ((monthLengths leap).take (month - 1)).sum

theorem monthStart_succ (leap : Bool) {month : Nat} (h1 : 1 ≤ month) (h12 : month ≤ 12) :
    monthStart leap (month + 1) = monthStart leap month + monthLength leap month := by
  have hmonths : ∀ leap, ∀ index < 12, monthStart leap (index + 1 + 1) =
      monthStart leap (index + 1) + monthLength leap (index + 1) := by decide
  have hmonth := hmonths leap (month - 1) (by omega)
  rwa [Nat.sub_add_cancel h1] at hmonth

theorem monthStart_mono (leap : Bool) {a b : Nat} (h : a ≤ b) :
    monthStart leap a ≤ monthStart leap b :=
  (List.take_sublist_take_left (Nat.sub_le_sub_right h 1)).sum_le_sum fun _ _ => Nat.zero_le _

theorem monthStart_year (year : Nat) : monthStart (isLeap year) 13 = daysInYear year := by
  simp only [daysInYear]
  cases isLeap year <;> rfl

@[ext]
structure Date where
  year : Nat
  month : Nat
  day : Nat
deriving DecidableEq

namespace Date

structure Valid (date : Date) : Prop where
  year : 1 ≤ date.year
  month : 1 ≤ date.month ∧ date.month ≤ 12
  day : 1 ≤ date.day ∧ date.day ≤ monthLength (isLeap date.year) date.month

-- The days from the first day of year 1 to the date.
def number (date : Date) : Nat :=
  daysInYears (date.year - 1) + monthStart (isLeap date.year) date.month + (date.day - 1)

theorem number_lt_month {date : Date} (h : date.Valid) : number date <
    daysInYears (date.year - 1) + monthStart (isLeap date.year) (date.month + 1) := by
  rw [monthStart_succ _ h.month.1 h.month.2, number]
  have hday := h.day
  omega

theorem number_lt_year {date : Date} (h : date.Valid) :
    number date < daysInYears date.year := by
  have hmonth : monthStart (isLeap date.year) (date.month + 1) ≤ daysInYear date.year := by
    rw [← monthStart_year]
    exact monthStart_mono _ (Nat.succ_le_succ h.month.2)
  have hsucc := daysInYears_succ (date.year - 1)
  rw [Nat.sub_add_cancel h.year] at hsucc
  have hlt := number_lt_month h
  omega

theorem number_lt_of_year {a b : Date} (ha : a.Valid) (h : a.year < b.year) :
    number a < number b := by
  have hyear : daysInYears a.year ≤ daysInYears (b.year - 1) := daysInYears_mono (by omega)
  have hlt := number_lt_year ha
  simp only [number] at hlt ⊢
  omega

theorem number_lt_of_month {a b : Date} (ha : a.Valid) (hyear : a.year = b.year)
    (h : a.month < b.month) : number a < number b := by
  have hmonth := monthStart_mono (isLeap b.year) (Nat.add_one_le_of_lt h)
  have hlt := number_lt_month ha
  simp only [number, hyear] at hlt ⊢
  omega

theorem number_lt_of_day {a b : Date} (ha : a.Valid) (hyear : a.year = b.year)
    (hmonth : a.month = b.month) (h : a.day < b.day) : number a < number b := by
  have hday := ha.day.1
  simp only [number, hyear, hmonth]
  omega

-- The months since January of year 0.
def months (date : Date) : Int := date.year * 12 + date.month - 1

-- The same day in the month that lies `count` months later, or the last day of that month.
def addMonths (date : Date) (count : Int) : Date :=
  let year := ((date.months + count) / 12).toNat
  let month := ((date.months + count) % 12).toNat + 1
  ⟨year, month, min date.day (monthLength (isLeap year) month)⟩

theorem monthLength_ge (leap : Bool) {month : Nat} (h1 : 1 ≤ month) (h12 : month ≤ 12) :
    28 ≤ monthLength leap month := by
  have hmonths : ∀ leap, ∀ index < 12, 28 ≤ monthLength leap (index + 1) := by decide
  have hmonth := hmonths leap (month - 1) (by omega)
  rwa [Nat.sub_add_cancel h1] at hmonth

theorem months_addMonths (date : Date) (count : Int) (h : 0 ≤ date.months + count) :
    (date.addMonths count).months = date.months + count := by
  simp only [addMonths]
  generalize date.months + count = total at h
  simp only [months]
  omega

theorem addMonths_valid {date : Date} {count : Int} (hvalid : date.Valid)
    (h : 12 ≤ date.months + count) : (date.addMonths count).Valid := by
  have hday := hvalid.day.1
  have hmonth : 1 ≤ (date.addMonths count).month ∧ (date.addMonths count).month ≤ 12 := by
    simp only [addMonths]
    omega
  have hlength := monthLength_ge (isLeap (date.addMonths count).year) hmonth.1 hmonth.2
  refine ⟨?_, hmonth, ?_, Nat.min_le_right _ _⟩
  · simp only [addMonths]
    omega
  · simp only [addMonths] at hlength ⊢
    omega

-- A day that every month has is kept.
theorem addMonths_addMonths {date : Date} {first second : Int} (hday : date.day ≤ 28)
    (hfirst : 0 ≤ date.months + first) :
    (date.addMonths first).addMonths second = date.addMonths (first + second) := by
  have hkeep (count : Int) : (date.addMonths count).day = date.day := by
    have hmonth : (date.addMonths count).month ≤ 12 := by
      simp only [addMonths]
      omega
    have hlength := monthLength_ge (isLeap (date.addMonths count).year)
      (show 1 ≤ (date.addMonths count).month from Nat.succ_pos _) hmonth
    simp only [addMonths] at hlength ⊢
    omega
  have hmonths := months_addMonths date first hfirst
  rw [addMonths, hmonths, hkeep, Int.add_assoc]
  rfl

end Date

end Calendar

end Rpcsx.Data
