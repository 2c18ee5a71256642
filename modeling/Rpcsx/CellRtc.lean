import Mathlib.Data.Set.Function
import Mathlib.Order.Monotone.Defs
import Mathlib.Data.List.Lex
import Rpcsx.Data.Calendar

namespace Rpcsx.CellRtc

open Data

inductive CellRtcError where
  | invalidYear
  | invalidMonth
  | invalidDay
  | invalidHour
  | invalidMinute
  | invalidSecond
  | invalidMicrosecond
deriving DecidableEq

@[ext]
structure CellRtcDateTime where
  year : UInt16
  month : UInt16
  day : UInt16
  hour : UInt16
  minute : UInt16
  second : UInt16
  microsecond : UInt32
deriving DecidableEq

namespace CellRtcDateTime

def fields (t : CellRtcDateTime) : List Nat :=
  [t.year.toNat, t.month.toNat, t.day.toNat, t.hour.toNat, t.minute.toNat, t.second.toNat,
    t.microsecond.toNat]

theorem fields_injective : Function.Injective fields := by
  intro a b h
  simp only [fields, List.cons.injEq, UInt16.toNat_inj, UInt32.toNat_inj] at h
  obtain ⟨hyear, hmonth, hday, hhour, hminute, hsecond, hmicro, -⟩ := h
  exact CellRtcDateTime.ext hyear hmonth hday hhour hminute hsecond hmicro

-- The lexicographic order.
instance : LinearOrder CellRtcDateTime := LinearOrder.lift' fields fields_injective

theorem lt_def {a b : CellRtcDateTime} : a < b ↔ a.fields < b.fields := Iff.rfl

end CellRtcDateTime

def isLeapYear (year : UInt32) : Bool := year % 4 == 0 && (year % 100 != 0 || year % 400 == 0)

def daysIn400Years : UInt32 := 365 * 400 + 97

def daysIn100Years : UInt32 := 365 * 100 + 24

def daysIn4Years : UInt32 := 365 * 4 + 1

def daysInMonth (leap : Bool) : List UInt16 :=
  if leap then [31, 29, 31, 30, 31, 30, 31, 31, 30, 31, 30, 31]
  else [31, 28, 31, 30, 31, 30, 31, 31, 30, 31, 30, 31]

-- `MONTH_OFFSET` and `MONTH_OFFSET_LEAP`, with `umax` at the end.
def monthOffset (leap : Bool) : List UInt16 :=
  if leap then [0, 31, 60, 91, 121, 152, 182, 213, 244, 274, 305, 335, 65535]
  else [0, 31, 59, 90, 120, 151, 181, 212, 243, 273, 304, 334, 65535]

def cellRtcGetTickResolution : UInt32 := 1000000

def cellRtcCheckValid (t : CellRtcDateTime) : Except CellRtcError Unit :=
  if t.year = 0 ∨ t.year ≥ 10000 then .error .invalidYear
  else if t.month < 1 ∨ t.month > 12 then .error .invalidMonth
  else if t.day = 0 ∨
      t.day > (daysInMonth (isLeapYear t.year.toUInt32)).getD (t.month - 1).toNat 0 then
    .error .invalidDay
  else if t.hour ≥ 24 then .error .invalidHour
  else if t.minute ≥ 60 then .error .invalidMinute
  else if t.second ≥ 60 then .error .invalidSecond
  else if t.microsecond ≥ cellRtcGetTickResolution then .error .invalidMicrosecond
  else .ok ()

def yearWithin400Interval (days : UInt32) : UInt32 :=
  (days - days / (daysIn4Years - 1) + days / daysIn100Years - days / (daysIn400Years - 1)) / 365

def daysOfYears (years : UInt32) : UInt32 := years * 365 + years / 4 - years / 100 + years / 400

-- The index of the month of a day of the year, from 0.
def monthIndex (offset : List UInt16) (days : UInt32) : UInt32 :=
  let monthApprox := days / 29
  if (offset.getD monthApprox.toNat 0).toUInt32 > days then monthApprox - 1 else monthApprox

-- The years before a day and the day of its year.
def splitYears (daysTmp : UInt32) : UInt32 × UInt32 :=
  let year400 := daysTmp / daysIn400Years
  let daysTmp := daysTmp - year400 * daysIn400Years
  let yearWithin := yearWithin400Interval daysTmp
  (year400 * 400 + yearWithin, daysTmp - daysOfYears yearWithin)

def tickToDateTime (tick : UInt64) : CellRtcDateTime :=
  let daysTmp := (tick / (24 * 60 * 60 * 1000000)).toUInt32
  let split := splitYears daysTmp
  let years := (split.1 + 1).toUInt16
  let daysTmp := split.2
  let offset := monthOffset (isLeapYear years.toUInt32)
  let monthApprox := monthIndex offset daysTmp
  let daysTmp := daysTmp - (offset.getD monthApprox.toNat 0).toUInt32
  { year := years
    month := (monthApprox + 1).toUInt16
    day := (daysTmp + 1).toUInt16
    hour := (tick / (60 * 60 * 1000000) % 24).toUInt16
    minute := (tick / (60 * 1000000) % 60).toUInt16
    second := (tick / 1000000 % 60).toUInt16
    microsecond := (tick % 1000000).toUInt32 }

-- The terms are of type `int` and the sum is stored in an `u32`.
def daysInPreviousYears (year : UInt16) : UInt32 :=
  let year : Int := year.toNat
  UInt32.ofInt (year * 365 + (year + 3) / 4 - (year + 99) / 100 + (year + 399) / 400 - 366)

def clampMonth (month : UInt16) : UInt16 := if month = 0 then 1 else if month > 12 then 12 else month

def dateTimeToTick (t : CellRtcDateTime) : UInt64 :=
  let month := clampMonth t.month
  let daysInPreviousMonths :=
    (monthOffset (isLeapYear t.year.toUInt32)).getD (month - 1).toNat 0
  let days := daysInPreviousYears t.year + daysInPreviousMonths.toUInt32 + t.day.toUInt32 - 1
  t.microsecond.toUInt64 + t.second.toUInt64 * 1000000 + t.minute.toUInt64 * 60 * 1000000 +
    t.hour.toUInt64 * 60 * 60 * 1000000 + days.toUInt64 * 24 * 60 * 60 * 1000000

def tickOfYear10000 : UInt64 := dateTimeToTick ⟨10000, 1, 1, 0, 0, 0, 0⟩

end Rpcsx.CellRtc
