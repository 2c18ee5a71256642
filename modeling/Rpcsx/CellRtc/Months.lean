import Rpcsx.CellRtc.Theorems

namespace Rpcsx.CellRtc

open Data Data.Calendar CellRtcDateTime

-- The error code is written to the number of days of the month.
def cellRtcErrorInvalidArg : Int := 0x80010604 - 2 ^ 32

-- Nothing is returned where the tick is not written.
def cellRtcGetTick (t : CellRtcDateTime) : Option UInt64 :=
  if t.year ≥ 10000 ∨ t.year = 0 then none else some (dateTimeToTick t)

def clampDay (year month day : UInt16) : UInt16 :=
  let monthDays : Int :=
    if year = 0 ∨ month < 1 ∨ month > 12 then cellRtcErrorInvalidArg
    else ((daysInMonth (isLeapYear year.toUInt32)).getD (month - 1).toNat 0).toNat
  if monthDays < day.toNat then UInt16.ofInt monthDays else day

-- The terms are of type `int`.
def cellRtcTickAddMonths (tick : UInt64) (iAdd : Int32) : Option UInt64 :=
  let t := tickToDateTime tick
  let totalMonths : Int := t.year.toNat * 12 + t.month.toNat + iAdd.toInt - 1
  let newYear := UInt16.ofInt (totalMonths.tdiv 12)
  let newMonth := UInt16.ofInt (totalMonths - newYear.toNat * 12 + 1)
  cellRtcGetTick
    { t with year := newYear, month := newMonth, day := clampDay newYear newMonth t.day }

def cellRtcTickAddYears (tick : UInt64) (iAdd : Int32) : Option UInt64 :=
  let t := tickToDateTime tick
  let newYear := UInt16.ofInt (t.year.toNat + iAdd.toInt)
  cellRtcGetTick { t with year := newYear, day := clampDay newYear t.month t.day }

-- The month lies in the years from 1 to 9999.
def InYears (months : Int) : Prop := 12 ≤ months ∧ months < 120000

theorem toNat_ofInt {x : Int} (h0 : 0 ≤ x) (h : x < 65536) :
    (UInt16.ofInt x).toNat = x.toNat := by
  rw [UInt16.ofInt, UInt16.toNat_ofNat']
  omega

theorem clampDay_toNat (year month day : UInt16) (hyear : 1 ≤ year.toNat)
    (hmonth : 1 ≤ month.toNat ∧ month.toNat ≤ 12) :
    (clampDay year month day).toNat =
      min day.toNat (monthLength (isLeap year.toNat) month.toNat) := by
  have hvalid : ¬(year = 0 ∨ month < 1 ∨ month > 12) := by
    simp only [← UInt16.toNat_inj, gt_iff_lt, UInt16.lt_iff_toNat_lt, UInt16.reduceToNat]
    omega
  have hlength : ((daysInMonth (isLeapYear year.toUInt32)).getD (month - 1).toNat 0).toNat =
      monthLength (isLeap year.toNat) month.toNat := by
    rw [sub_one_toNat hmonth.1, daysInMonth_eq _ _ (by omega), Nat.sub_add_cancel hmonth.1,
      isLeapYear_eq, UInt16.toNat_toUInt32]
  have hlt := day.toNat_lt
  simp only [clampDay, if_neg hvalid, hlength]
  split
  · rw [toNat_ofInt (by omega) (by omega)]
    omega
  · omega

-- A date of the years from 1 to 9999 is written, with the time of day as it was.
theorem getTick_spec {t : CellRtcDateTime} (h : t.Valid) :
    cellRtcGetTick t = some (dateTimeToTick t) ∧ dateTimeToTick t < tickOfYear10000 ∧
      tickToDateTime (dateTimeToTick t) = t := by
  refine ⟨if_neg ?_, dateTimeToTick_lt_bound h, tickToDateTime_dateTimeToTick h⟩
  have hyear := h.year
  have hpos : 1 ≤ t.year.toNat := h.date.year
  simp only [← UInt16.toNat_inj, ge_iff_le, UInt16.le_iff_toNat_le, UInt16.reduceToNat]
  omega

section AddMonths

variable {tick : UInt64}

theorem tickAddMonths_spec (h : tick < tickOfYear10000) {n : Int32}
    (hin : InYears ((tickToDateTime tick).date.months + n.toInt)) :
    ∃ result, cellRtcTickAddMonths tick n = some result ∧ result < tickOfYear10000 ∧
      (tickToDateTime result).date = (tickToDateTime tick).date.addMonths n.toInt ∧
      (tickToDateTime result).timeOfDay = (tickToDateTime tick).timeOfDay := by
  have hvalid := tickToDateTime_valid h
  generalize htotal : (tickToDateTime tick).date.months + n.toInt = total at hin
  obtain ⟨hlo, hhi⟩ := hin
  have hmonths : ((tickToDateTime tick).year.toNat * 12 + (tickToDateTime tick).month.toNat +
      n.toInt - 1 : Int) = total := by
    rw [← htotal]
    simp only [Date.months, date]
    omega
  have hnewYear : (UInt16.ofInt (total.tdiv 12)).toNat = (total / 12).toNat := by
    rw [Int.tdiv_eq_ediv_of_nonneg (by omega), toNat_ofInt (by omega) (by omega)]
  have hnewMonth : (UInt16.ofInt (total - (total / 12).toNat * 12 + 1)).toNat =
      (total % 12).toNat + 1 := by
    rw [toNat_ofInt (by omega) (by omega)]
    omega
  have hday := clampDay_toNat (UInt16.ofInt (total.tdiv 12))
    (UInt16.ofInt (total - (total / 12).toNat * 12 + 1)) (tickToDateTime tick).day
    (by omega) (by omega)
  rw [hnewYear, hnewMonth] at hday
  have hdateValid := Date.addMonths_valid hvalid.date (htotal ▸ hlo)
  have hyear : ((tickToDateTime tick).date.addMonths n.toInt).year < 10000 := by
    simp only [Date.addMonths, htotal]
    omega
  simp only [cellRtcTickAddMonths, hmonths, hnewYear]
  generalize ht : (⟨UInt16.ofInt (total.tdiv 12),
    UInt16.ofInt (total - (total / 12).toNat * 12 + 1),
    clampDay (UInt16.ofInt (total.tdiv 12)) (UInt16.ofInt (total - (total / 12).toNat * 12 + 1))
      (tickToDateTime tick).day,
    (tickToDateTime tick).hour, (tickToDateTime tick).minute, (tickToDateTime tick).second,
    (tickToDateTime tick).microsecond⟩ : CellRtcDateTime) = t
  have hdate : t.date = (tickToDateTime tick).date.addMonths n.toInt := by
    rw [← ht]
    simp only [date, hnewYear, hnewMonth, hday, Date.addMonths]
    rw [show (⟨(tickToDateTime tick).year.toNat, (tickToDateTime tick).month.toNat,
      (tickToDateTime tick).day.toNat⟩ : Date) = (tickToDateTime tick).date from rfl, htotal]
  have htime : t.timeOfDay = (tickToDateTime tick).timeOfDay := by
    rw [← ht]
    rfl
  have htvalid : t.Valid := by
    refine ⟨hdate ▸ hdateValid, ?_, ?_, ?_, ?_, ?_⟩
    · change t.date.year < 10000
      rw [hdate]
      exact hyear
    · rw [← ht]
      exact hvalid.hour
    · rw [← ht]
      exact hvalid.minute
    · rw [← ht]
      exact hvalid.second
    · rw [← ht]
      exact hvalid.microsecond
  obtain ⟨hget, hlt, hback⟩ := getTick_spec htvalid
  refine ⟨_, hget, hlt, ?_, ?_⟩
  · rw [hback, hdate]
  · rw [hback, htime]

-- The sum of numbers of months that stay within the years does not overflow.
theorem toInt_add_of_inYears {t : CellRtcDateTime} (h : t.Valid) {m n : Int32}
    (hin : InYears (t.date.months + m.toInt + n.toInt)) :
    (m + n).toInt = m.toInt + n.toInt := by
  obtain ⟨hlo, hhi⟩ := hin
  have hyear : t.date.year < 10000 := h.year
  have hmonth := h.date.month
  simp only [Date.months] at hlo hhi
  rw [Int32.toInt_add, Int.bmod_eq_of_le (by omega) (by omega)]

theorem toInt_mul_of_inYears {t : CellRtcDateTime} (h : t.Valid) {n : Int32}
    (hin : 1 ≤ t.date.year + n.toInt ∧ t.date.year + n.toInt < 10000) :
    (12 * n).toInt = 12 * n.toInt := by
  have hyear : t.date.year < 10000 := h.year
  have htwelve : (12 : Int32).toInt = 12 := rfl
  rw [Int32.toInt_mul, htwelve, Int.bmod_eq_of_le (by omega) (by omega)]

theorem tickAddYears_eq (h : tick < tickOfYear10000) {n : Int32}
    (hin : 1 ≤ (tickToDateTime tick).date.year + n.toInt ∧
      (tickToDateTime tick).date.year + n.toInt < 10000) :
    cellRtcTickAddYears tick n = cellRtcTickAddMonths tick (12 * n) := by
  have hvalid := tickToDateTime_valid h
  have hmonth := hvalid.date.month
  have hmul := toInt_mul_of_inYears hvalid hin
  obtain ⟨hlo, hhi⟩ := hin
  simp only [date] at hmonth hlo hhi
  simp only [cellRtcTickAddYears, cellRtcTickAddMonths, hmul]
  generalize htotal : ((tickToDateTime tick).year.toNat * 12 + (tickToDateTime tick).month.toNat +
    12 * n.toInt - 1 : Int) = total
  have hyear : UInt16.ofInt (total.tdiv 12) =
      UInt16.ofInt ((tickToDateTime tick).year.toNat + n.toInt) := by
    rw [Int.tdiv_eq_ediv_of_nonneg (by omega)]
    congr 1
    omega
  have hnewYear : (UInt16.ofInt ((tickToDateTime tick).year.toNat + n.toInt)).toNat =
      ((tickToDateTime tick).year.toNat + n.toInt).toNat := toNat_ofInt (by omega) (by omega)
  have hnewMonth : UInt16.ofInt (total -
      (UInt16.ofInt ((tickToDateTime tick).year.toNat + n.toInt)).toNat * 12 + 1) =
      (tickToDateTime tick).month := by
    rw [← UInt16.toNat_inj, hnewYear, toNat_ofInt (by omega) (by omega)]
    omega
  rw [hyear, hnewMonth]

theorem tick_toNat (h : tick < tickOfYear10000) :
    tick.toNat = (tickToDateTime tick).date.number * 86400000000 +
      (tickToDateTime tick).timeOfDay := by
  rw [(date_tickToDateTime h).2.2, (timeOfDay_tickToDateTime tick).1]
  exact (Nat.div_add_mod' _ _).symm

theorem tickAddMonths_add (h : tick < tickOfYear10000) {m n : Int32}
    (hm : InYears ((tickToDateTime tick).date.months + m.toInt))
    (hn : InYears ((tickToDateTime tick).date.months + m.toInt + n.toInt))
    (hday : (tickToDateTime tick).date.day ≤ 28) :
    (cellRtcTickAddMonths tick m).bind (cellRtcTickAddMonths · n) =
      cellRtcTickAddMonths tick (m + n) := by
  have hsum := toInt_add_of_inYears (tickToDateTime_valid h) hn
  obtain ⟨first, hfirst, hlt, hdate, htime⟩ := tickAddMonths_spec h hm
  have hmonths := Date.months_addMonths (tickToDateTime tick).date m.toInt
    (by have := hm.1; omega)
  rw [← hdate] at hmonths
  obtain ⟨second, hsecond, hlt', hdate', htime'⟩ := tickAddMonths_spec hlt (n := n)
    (by rw [hmonths]; exact hn)
  obtain ⟨both, hboth, hlt'', hdate'', htime''⟩ := tickAddMonths_spec h (n := m + n)
    (by rw [hsum, ← Int.add_assoc]; exact hn)
  have hsame : second = both := by
    rw [← UInt64.toNat_inj, tick_toNat hlt', tick_toNat hlt'', hdate', hdate, htime', htime,
      hdate'', htime'', hsum, Date.addMonths_addMonths hday (by have := hm.1; omega)]
  rw [hfirst, Option.bind_some, hsecond, hboth, hsame]

theorem rtc_addMonths (tick : UInt64) (h : tick < tickOfYear10000) :
    (∀ n : Int32, InYears ((tickToDateTime tick).date.months + n.toInt) →
      ∃ result, cellRtcTickAddMonths tick n = some result ∧ result < tickOfYear10000 ∧
        (tickToDateTime result).date.months = (tickToDateTime tick).date.months + n.toInt ∧
        (tickToDateTime result).timeOfDay = (tickToDateTime tick).timeOfDay ∧
        (tickToDateTime result).date.day = min (tickToDateTime tick).date.day
          (monthLength (isLeap (tickToDateTime result).date.year)
            (tickToDateTime result).date.month)) ∧
    (∀ n : Int32, 1 ≤ (tickToDateTime tick).date.year + n.toInt ∧
        (tickToDateTime tick).date.year + n.toInt < 10000 →
      cellRtcTickAddYears tick n = cellRtcTickAddMonths tick (12 * n)) ∧
    ∀ m n : Int32, InYears ((tickToDateTime tick).date.months + m.toInt) →
      InYears ((tickToDateTime tick).date.months + m.toInt + n.toInt) →
      (tickToDateTime tick).date.day ≤ 28 →
      (cellRtcTickAddMonths tick m).bind (cellRtcTickAddMonths · n) =
        cellRtcTickAddMonths tick (m + n) := by
  refine ⟨?_, fun n hin => tickAddYears_eq h hin,
    fun m n hm hn hday => tickAddMonths_add h hm hn hday⟩
  intro n hin
  obtain ⟨result, hresult, hlt, hdate, htime⟩ := tickAddMonths_spec h hin
  refine ⟨result, hresult, hlt, ?_, htime, ?_⟩
  · rw [hdate, Date.months_addMonths _ _ (by have := hin.1; omega)]
  · rw [hdate]
    rfl

-- The year after 29 February.
theorem rtc_addMonths_leapDay :
    cellRtcTickAddYears (dateTimeToTick ⟨2000, 2, 29, 23, 59, 59, 999999⟩) 1 =
      cellRtcTickAddMonths (dateTimeToTick ⟨2000, 2, 29, 23, 59, 59, 999999⟩) (12 * 1) :=
  (rtc_addMonths _ (by decide)).2.1 1 (by decide)

end AddMonths

end Rpcsx.CellRtc
