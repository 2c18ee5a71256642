import Rpcsx.CellRtc

namespace Rpcsx.CellRtc

open Data Data.Calendar

theorem isLeapYear_eq (year : UInt32) : isLeapYear year = isLeap year.toNat := by
  rw [Bool.eq_iff_iff]
  simp [isLeapYear, isLeap, ← UInt32.toNat_inj]

theorem daysInMonth_eq : ∀ leap, ∀ month < 12,
    ((daysInMonth leap).getD month 0).toNat = monthLength leap (month + 1) := by
  decide

theorem monthOffset_eq : ∀ leap, ∀ month < 12,
    ((monthOffset leap).getD month 0).toNat = monthStart leap (month + 1) := by
  decide

namespace CellRtcDateTime

def date (t : CellRtcDateTime) : Date := ⟨t.year.toNat, t.month.toNat, t.day.toNat⟩

-- Microseconds since midnight.
def timeOfDay (t : CellRtcDateTime) : Nat :=
  t.microsecond.toNat + t.second.toNat * 1000000 + t.minute.toNat * 60000000 +
    t.hour.toNat * 3600000000

structure Valid (t : CellRtcDateTime) : Prop where
  date : t.date.Valid
  year : t.year.toNat < 10000
  hour : t.hour.toNat < 24
  minute : t.minute.toNat < 60
  second : t.second.toNat < 60
  microsecond : t.microsecond.toNat < 1000000

theorem Valid.timeOfDay_lt {t : CellRtcDateTime} (h : t.Valid) : t.timeOfDay < 86400000000 := by
  have hhour := h.hour
  have hminute := h.minute
  have hsecond := h.second
  have hmicro := h.microsecond
  simp only [timeOfDay]
  omega

end CellRtcDateTime

open CellRtcDateTime

theorem unless_eq_ok {c : Prop} [Decidable c] (e : CellRtcError) (rest : Except CellRtcError Unit) :
    (if c then .error e else rest) = .ok () ↔ ¬c ∧ rest = .ok () := by
  by_cases h : c <;> simp [h]

theorem sub_one_toNat {month : UInt16} (h : 1 ≤ month.toNat) :
    (month - 1).toNat = month.toNat - 1 :=
  UInt16.toNat_sub_of_le _ _ (UInt16.le_iff_toNat_le.mpr h)

theorem day_le_iff {year month day : UInt16} (h : 1 ≤ month.toNat ∧ month.toNat ≤ 12) :
    day.toNat ≤ ((daysInMonth (isLeapYear year.toUInt32)).getD (month - 1).toNat 0).toNat ↔
      day.toNat ≤ monthLength (isLeap year.toNat) month.toNat := by
  rw [sub_one_toNat h.1, daysInMonth_eq _ _ (by omega), Nat.sub_add_cancel h.1, isLeapYear_eq,
    UInt16.toNat_toUInt32]

theorem checkValid_iff (t : CellRtcDateTime) : cellRtcCheckValid t = .ok () ↔ t.Valid := by
  simp only [cellRtcCheckValid, unless_eq_ok, not_or, gt_iff_lt, ge_iff_le,
    ← UInt16.toNat_inj, UInt16.le_iff_toNat_le, UInt16.lt_iff_toNat_lt, UInt32.le_iff_toNat_le,
    Nat.not_lt, Nat.not_le, UInt16.reduceToNat, and_true]
  constructor
  · rintro ⟨⟨hyear0, hyear⟩, ⟨hmonth1, hmonth12⟩, ⟨hday0, hday⟩, hhour, hminute, hsecond, hmicro⟩
    exact ⟨⟨Nat.pos_of_ne_zero hyear0, ⟨hmonth1, hmonth12⟩, Nat.pos_of_ne_zero hday0,
      (day_le_iff ⟨hmonth1, hmonth12⟩).mp hday⟩, hyear, hhour, hminute, hsecond, hmicro⟩
  · rintro ⟨⟨hyear1, hmonth, hday1, hday⟩, hyear, hhour, hminute, hsecond, hmicro⟩
    exact ⟨⟨Nat.ne_of_gt hyear1, hyear⟩, hmonth, ⟨Nat.ne_of_gt hday1, (day_le_iff hmonth).mpr hday⟩,
      hhour, hminute, hsecond, hmicro⟩

theorem daysInPreviousYears_toNat {year : UInt16} (h1 : 1 ≤ year.toNat) :
    (daysInPreviousYears year).toNat = daysInYears (year.toNat - 1) := by
  have hlt := year.toNat_lt
  obtain ⟨years, hyears⟩ := Nat.exists_eq_add_of_le' h1
  have h4 : ((years + 1 : Nat) + 3 : Int) / 4 = (years / 4 : Nat) + 1 := by omega
  have h100 : ((years + 1 : Nat) + 99 : Int) / 100 = (years / 100 : Nat) + 1 := by omega
  have h400 : ((years + 1 : Nat) + 399 : Int) / 400 = (years / 400 : Nat) + 1 := by omega
  simp only [daysInPreviousYears, UInt32.ofInt, daysInYears, hyears, h4, h100, h400,
    Nat.add_sub_cancel]
  rw [UInt32.toNat_ofNat']
  omega

theorem clampMonth_eq {month : UInt16} (h : 1 ≤ month.toNat ∧ month.toNat ≤ 12) :
    clampMonth month = month := by
  have hzero : month ≠ 0 := by
    rw [Ne, ← UInt16.toNat_inj]
    exact Nat.ne_of_gt h.1
  have hlast : ¬month > 12 := by
    rw [gt_iff_lt, UInt16.lt_iff_toNat_lt]
    exact Nat.not_lt.mpr h.2
  rw [clampMonth, if_neg hzero, if_neg hlast]

theorem number_lt_bound {date : Date} (h : date.Valid) (hyear : date.year < 10000) :
    date.number < 3652059 := by
  have hlt := date.number_lt_year h
  have hmono := daysInYears_mono (Nat.le_of_lt_succ hyear)
  rw [show daysInYears 9999 = 3652059 from rfl] at hmono
  omega

theorem dateTimeToTick_toNat {t : CellRtcDateTime} (h : t.Valid) :
    (dateTimeToTick t).toNat = t.date.number * 86400000000 + t.timeOfDay := by
  have hmonth : 1 ≤ t.month.toNat ∧ t.month.toNat ≤ 12 := h.date.month
  have hday : 1 ≤ t.day.toNat := h.date.day.1
  have hnumber := number_lt_bound h.date h.year
  have htime := h.timeOfDay_lt
  have hoffset : ((monthOffset (isLeapYear t.year.toUInt32)).getD (t.month - 1).toNat 0).toNat =
      monthStart (isLeap t.year.toNat) t.month.toNat := by
    rw [sub_one_toNat hmonth.1, monthOffset_eq _ _ (by omega), isLeapYear_eq,
      UInt16.toNat_toUInt32, Nat.sub_add_cancel hmonth.1]
  have hdays : (daysInPreviousYears t.year + ((monthOffset (isLeapYear t.year.toUInt32)).getD
      (t.month - 1).toNat 0).toUInt32 + t.day.toUInt32 - 1).toNat = t.date.number := by
    simp only [Date.number, date] at hnumber ⊢
    simp only [UInt32.toNat_sub, UInt32.toNat_add, daysInPreviousYears_toNat h.date.year,
      UInt16.toNat_toUInt32, hoffset, UInt32.reduceToNat]
    omega
  simp only [dateTimeToTick, clampMonth_eq hmonth, UInt64.toNat_add, UInt64.toNat_mul,
    UInt32.toNat_toUInt64, UInt16.toNat_toUInt64, hdays, UInt64.reduceToNat]
  simp only [timeOfDay] at htime ⊢
  omega

theorem tickOfYear10000_toNat : tickOfYear10000.toNat = 3652059 * 86400000000 := by
  decide

theorem number_lt_or_timeOfDay_lt {a b : CellRtcDateTime} (ha : a.Valid) (h : a < b) :
    a.date.number < b.date.number ∨ a.date = b.date ∧ a.timeOfDay < b.timeOfDay := by
  have hminute := ha.minute
  have hsecond := ha.second
  have hmicro := ha.microsecond
  simp only [lt_def, fields, List.cons_lt_cons_iff, List.not_lt_nil, and_false, or_false] at h
  rcases h with hyear | ⟨hyear, hmonth | ⟨hmonth, hday | ⟨hday, htime⟩⟩⟩
  · exact Or.inl (Date.number_lt_of_year ha.date hyear)
  · exact Or.inl (Date.number_lt_of_month ha.date hyear hmonth)
  · exact Or.inl (Date.number_lt_of_day ha.date hyear hmonth hday)
  · refine Or.inr ⟨Date.ext hyear hmonth hday, ?_⟩
    simp only [timeOfDay]
    omega

theorem dateTimeToTick_lt {a b : CellRtcDateTime} (ha : a.Valid) (hb : b.Valid) (h : a < b) :
    dateTimeToTick a < dateTimeToTick b := by
  have htime := ha.timeOfDay_lt
  rw [UInt64.lt_iff_toNat_lt, dateTimeToTick_toNat ha, dateTimeToTick_toNat hb]
  rcases number_lt_or_timeOfDay_lt ha h with hnumber | ⟨hdate, htimes⟩
  · omega
  · rw [hdate]
    omega

theorem yearWithin400Interval_toNat {days : UInt32} (h : days.toNat < 146097) :
    (yearWithin400Interval days).toNat = yearOfDay days.toNat := by
  have h4 : (days / (daysIn4Years - 1)).toNat = days.toNat / 1460 := UInt32.toNat_div _ _
  have h100 : (days / daysIn100Years).toNat = days.toNat / 36524 := UInt32.toNat_div _ _
  have h400 : (days / (daysIn400Years - 1)).toNat = days.toNat / 146096 := UInt32.toNat_div _ _
  have hfour : (days - days / (daysIn4Years - 1)).toNat = days.toNat - days.toNat / 1460 := by
    rw [UInt32.toNat_sub_of_le _ _ (by rw [UInt32.le_iff_toNat_le, h4]; exact Nat.div_le_self _ _),
      h4]
  have hhundred : (days - days / (daysIn4Years - 1) + days / daysIn100Years).toNat =
      days.toNat - days.toNat / 1460 + days.toNat / 36524 := by
    rw [UInt32.toNat_add, hfour, h100]
    omega
  have hcycle : (days - days / (daysIn4Years - 1) + days / daysIn100Years -
      days / (daysIn400Years - 1)).toNat =
      days.toNat - days.toNat / 1460 + days.toNat / 36524 - days.toNat / 146096 := by
    rw [UInt32.toNat_sub_of_le _ _ (by rw [UInt32.le_iff_toNat_le, h400, hhundred]; omega),
      h400, hhundred]
  rw [yearWithin400Interval, UInt32.toNat_div, hcycle]
  rfl

theorem daysOfYears_toNat {years : UInt32} (h : years.toNat < 400) :
    (daysOfYears years).toNat = daysInYears years.toNat := by
  simp only [daysOfYears, daysInYears, UInt32.toNat_div, UInt32.toNat_sub, UInt32.toNat_add,
    UInt32.toNat_mul, UInt32.reduceToNat]
  omega

theorem splitYears_spec (days : UInt32) :
    (splitYears days).2.toNat < daysInYear ((splitYears days).1.toNat + 1) ∧
      daysInYears (splitYears days).1.toNat + (splitYears days).2.toNat = days.toNat := by
  have hlt := days.toNat_lt
  have hcycle : daysIn400Years.toNat = 146097 := rfl
  have hrest : (days - days / daysIn400Years * daysIn400Years).toNat = days.toNat % 146097 := by
    simp only [UInt32.toNat_sub, UInt32.toNat_mul, UInt32.toNat_div, hcycle]
    omega
  have hrest_lt : days.toNat % 146097 < 146097 := Nat.mod_lt _ (by decide)
  obtain ⟨hyear, hle, hlt_next⟩ := yearOfDay_spec hrest_lt
  have hwithin := yearWithin400Interval_toNat (hrest.symm ▸ hrest_lt)
  rw [hrest] at hwithin
  have hstart := daysOfYears_toNat (hwithin.symm ▸ hyear)
  rw [hwithin] at hstart
  have hyears : (splitYears days).1.toNat =
      days.toNat / 146097 * 400 + yearOfDay (days.toNat % 146097) := by
    simp only [splitYears, UInt32.toNat_add, UInt32.toNat_mul, UInt32.toNat_div, hcycle, hwithin,
      UInt32.reduceToNat]
    omega
  have hday : (splitYears days).2.toNat =
      days.toNat % 146097 - daysInYears (yearOfDay (days.toNat % 146097)) := by
    simp only [splitYears]
    rw [UInt32.toNat_sub_of_le _ _ (by rw [UInt32.le_iff_toNat_le, hstart, hrest]; exact hle),
      hstart, hrest]
  rw [daysInYears_succ] at hlt_next
  rw [hday, hyears, daysInYears_cycles]
  have hsame : daysInYear (days.toNat / 146097 * 400 + yearOfDay (days.toNat % 146097) + 1) =
      daysInYear (yearOfDay (days.toNat % 146097) + 1) := by
    simp only [daysInYear, Nat.add_assoc, isLeap_cycles]
  rw [hsame]
  omega

-- `days / 29` is the month or the one after it.
theorem monthIndex_spec : ∀ leap, ∀ day < (if leap then 366 else 365),
    (monthIndex (monthOffset leap) (UInt32.ofNat day)).toNat < 12 ∧
    monthStart leap ((monthIndex (monthOffset leap) (UInt32.ofNat day)).toNat + 1) ≤ day ∧
    day < monthStart leap ((monthIndex (monthOffset leap) (UInt32.ofNat day)).toNat + 2) := by
  decide +kernel

theorem monthOfDay {leap : Bool} {days index : UInt32} (h : days.toNat < if leap then 366 else 365)
    (hindex : index = monthIndex (monthOffset leap) days) : index.toNat < 12 ∧
    monthStart leap (index.toNat + 1) ≤ days.toNat ∧
    days.toNat < monthStart leap (index.toNat + 2) := by
  have hspec := monthIndex_spec leap days.toNat h
  rw [UInt32.ofNat_toNat, ← hindex] at hspec
  exact hspec

theorem date_tickToDateTime {tick : UInt64} (h : tick < tickOfYear10000) :
    (tickToDateTime tick).date.Valid ∧ (tickToDateTime tick).date.year < 10000 ∧
      (tickToDateTime tick).date.number = tick.toNat / 86400000000 := by
  have hbound : tick.toNat / 86400000000 < 3652059 := by
    rw [UInt64.lt_iff_toNat_lt, tickOfYear10000_toNat] at h
    omega
  generalize hdays : (tick / (24 * 60 * 60 * 1000000)).toUInt32 = days
  have hday : days.toNat = tick.toNat / 86400000000 := by
    have hdiv : (tick / (24 * 60 * 60 * 1000000)).toNat = tick.toNat / 86400000000 :=
      UInt64.toNat_div _ _
    rw [← hdays, UInt64.toNat_toUInt32, hdiv]
    omega
  obtain ⟨hin, hsum⟩ := splitYears_spec days
  have hyears : (splitYears days).1.toNat < 9999 := by
    by_contra hnot
    have hmono := daysInYears_mono (Nat.le_of_not_lt hnot)
    rw [show daysInYears 9999 = 3652059 from rfl] at hmono
    omega
  have hyear : ((splitYears days).1 + 1).toUInt16.toNat = (splitYears days).1.toNat + 1 := by
    simp only [UInt32.toNat_toUInt16, UInt32.toNat_add, UInt32.reduceToNat]
    omega
  generalize hleap : isLeapYear ((splitYears days).1 + 1).toUInt16.toUInt32 = leap
  have hisLeap : isLeap ((splitYears days).1.toNat + 1) = leap := by
    rw [← hleap, isLeapYear_eq, UInt16.toNat_toUInt32, hyear]
  rw [daysInYear, hisLeap] at hin
  generalize hindex : monthIndex (monthOffset leap) (splitYears days).2 = index
  obtain ⟨hmonth, hge, hlt⟩ := monthOfDay hin hindex.symm
  have hoffset : ((monthOffset leap).getD index.toNat 0).toUInt32.toNat =
      monthStart leap (index.toNat + 1) := by
    rw [UInt16.toNat_toUInt32, monthOffset_eq leap _ hmonth]
  have hmonth_toNat : (index + 1).toUInt16.toNat = index.toNat + 1 := by
    simp only [UInt32.toNat_toUInt16, UInt32.toNat_add, UInt32.reduceToNat]
    omega
  have hinYear : (splitYears days).2.toNat < 366 := by
    split at hin <;> omega
  have hday_toNat : ((splitYears days).2 - ((monthOffset leap).getD index.toNat 0).toUInt32 +
      1).toUInt16.toNat = (splitYears days).2.toNat - monthStart leap (index.toNat + 1) + 1 := by
    rw [UInt32.toNat_toUInt16, UInt32.toNat_add, UInt32.toNat_sub_of_le _ _
      (by rw [UInt32.le_iff_toNat_le, hoffset]; exact hge), hoffset, show (1 : UInt32).toNat = 1 from rfl]
    omega
  have hdate : (tickToDateTime tick).date = ⟨(splitYears days).1.toNat + 1, index.toNat + 1,
      (splitYears days).2.toNat - monthStart leap (index.toNat + 1) + 1⟩ := by
    simp only [tickToDateTime, date, hdays, hleap, hindex, hyear, hmonth_toNat, hday_toNat]
  rw [monthStart_succ leap (Nat.le_add_left 1 index.toNat) hmonth] at hlt
  rw [hdate]
  refine ⟨⟨Nat.succ_pos _, ⟨Nat.succ_pos _, hmonth⟩, ⟨Nat.succ_pos _, ?_⟩⟩,
    Nat.succ_lt_succ hyears, ?_⟩
  · simp only [hisLeap]
    omega
  · simp only [Date.number, hisLeap, Nat.add_sub_cancel]
    omega

theorem timeOfDay_tickToDateTime (tick : UInt64) :
    (tickToDateTime tick).timeOfDay = tick.toNat % 86400000000 ∧
      (tickToDateTime tick).hour.toNat < 24 ∧ (tickToDateTime tick).minute.toNat < 60 ∧
      (tickToDateTime tick).second.toNat < 60 ∧
      (tickToDateTime tick).microsecond.toNat < 1000000 := by
  have hhour : (tickToDateTime tick).hour.toNat = tick.toNat / 3600000000 % 24 := by
    have hdiv : (tick / (60 * 60 * 1000000) % 24).toNat = tick.toNat / 3600000000 % 24 :=
      UInt64.toNat_mod _ _
    rw [tickToDateTime, UInt64.toNat_toUInt16, hdiv]
    omega
  have hminute : (tickToDateTime tick).minute.toNat = tick.toNat / 60000000 % 60 := by
    have hdiv : (tick / (60 * 1000000) % 60).toNat = tick.toNat / 60000000 % 60 :=
      UInt64.toNat_mod _ _
    rw [tickToDateTime, UInt64.toNat_toUInt16, hdiv]
    omega
  have hsecond : (tickToDateTime tick).second.toNat = tick.toNat / 1000000 % 60 := by
    have hdiv : (tick / 1000000 % 60).toNat = tick.toNat / 1000000 % 60 := UInt64.toNat_mod _ _
    rw [tickToDateTime, UInt64.toNat_toUInt16, hdiv]
    omega
  have hmicro : (tickToDateTime tick).microsecond.toNat = tick.toNat % 1000000 := by
    have hdiv : (tick % 1000000).toNat = tick.toNat % 1000000 := UInt64.toNat_mod _ _
    rw [tickToDateTime, UInt64.toNat_toUInt32, hdiv]
    omega
  simp only [timeOfDay, hhour, hminute, hsecond, hmicro]
  omega

theorem tickToDateTime_valid {tick : UInt64} (h : tick < tickOfYear10000) :
    (tickToDateTime tick).Valid := by
  obtain ⟨hdate, hyear, -⟩ := date_tickToDateTime h
  obtain ⟨-, hhour, hminute, hsecond, hmicro⟩ := timeOfDay_tickToDateTime tick
  exact ⟨hdate, hyear, hhour, hminute, hsecond, hmicro⟩

theorem dateTimeToTick_tickToDateTime {tick : UInt64} (h : tick < tickOfYear10000) :
    dateTimeToTick (tickToDateTime tick) = tick := by
  rw [← UInt64.toNat_inj, dateTimeToTick_toNat (tickToDateTime_valid h),
    (date_tickToDateTime h).2.2, (timeOfDay_tickToDateTime tick).1]
  exact Nat.div_add_mod' _ _

theorem dateTimeToTick_lt_bound {t : CellRtcDateTime} (h : t.Valid) :
    dateTimeToTick t < tickOfYear10000 := by
  have hnumber := number_lt_bound h.date h.year
  have htime := h.timeOfDay_lt
  rw [UInt64.lt_iff_toNat_lt, dateTimeToTick_toNat h, tickOfYear10000_toNat]
  omega

theorem dateTimeToTick_inj {a b : CellRtcDateTime} (ha : a.Valid) (hb : b.Valid)
    (h : dateTimeToTick a = dateTimeToTick b) : a = b := by
  rcases lt_trichotomy a b with hlt | heq | hgt
  · exact absurd (h ▸ dateTimeToTick_lt ha hb hlt) (UInt64.lt_irrefl _)
  · exact heq
  · exact absurd (h ▸ dateTimeToTick_lt hb ha hgt) (UInt64.lt_irrefl _)

-- The forward direction is strictly monotone, so its right inverse is a left inverse and is
-- strictly monotone too.
theorem tickToDateTime_dateTimeToTick {t : CellRtcDateTime} (h : t.Valid) :
    tickToDateTime (dateTimeToTick t) = t := by
  have hbound := dateTimeToTick_lt_bound h
  exact dateTimeToTick_inj (tickToDateTime_valid hbound) h (dateTimeToTick_tickToDateTime hbound)

theorem tickToDateTime_lt {a b : UInt64} (hb : b < tickOfYear10000) (h : a < b) :
    tickToDateTime a < tickToDateTime b := by
  have ha := UInt64.lt_trans h hb
  have hvalid_a := tickToDateTime_valid ha
  have hvalid_b := tickToDateTime_valid hb
  by_contra hnot
  rcases eq_or_lt_of_not_gt hnot with heq | hgt
  · have hticks := congrArg dateTimeToTick heq
    rw [dateTimeToTick_tickToDateTime ha, dateTimeToTick_tickToDateTime hb] at hticks
    exact absurd (hticks ▸ h) (UInt64.lt_irrefl _)
  · have hticks := dateTimeToTick_lt hvalid_b hvalid_a hgt
    rw [dateTimeToTick_tickToDateTime ha, dateTimeToTick_tickToDateTime hb] at hticks
    exact UInt64.lt_irrefl _ (UInt64.lt_trans h hticks)

theorem rtc_calendar :
    (∀ t, cellRtcCheckValid t = .ok () → tickToDateTime (dateTimeToTick t) = t) ∧
    (∀ tick < tickOfYear10000, cellRtcCheckValid (tickToDateTime tick) = .ok () ∧
      dateTimeToTick (tickToDateTime tick) = tick) ∧
    (∀ a b, cellRtcCheckValid a = .ok () → cellRtcCheckValid b = .ok () → a < b →
      dateTimeToTick a < dateTimeToTick b) ∧
    (∀ a b, b < tickOfYear10000 → a < b → tickToDateTime a < tickToDateTime b) := by
  simp only [checkValid_iff]
  exact ⟨fun _ h => tickToDateTime_dateTimeToTick h,
    fun _ h => ⟨tickToDateTime_valid h, dateTimeToTick_tickToDateTime h⟩,
    fun _ _ ha hb h => dateTimeToTick_lt ha hb h, fun _ _ hb h => tickToDateTime_lt hb h⟩

theorem rtc_calendar_leapDay :
    tickToDateTime (dateTimeToTick ⟨2000, 2, 29, 23, 59, 59, 999999⟩) =
      ⟨2000, 2, 29, 23, 59, 59, 999999⟩ :=
  rtc_calendar.1 _ (by decide)

end Rpcsx.CellRtc
