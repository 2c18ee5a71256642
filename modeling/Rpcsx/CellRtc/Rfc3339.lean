import Rpcsx.CellRtc.Months

namespace Rpcsx.CellRtc

open Data Data.Calendar CellRtcDateTime

namespace Rfc3339

inductive ParseError where
  | badParse
  | invalid (error : CellRtcError)
deriving DecidableEq

-- The characters that the text is made of besides digits.
def hyphen : UInt8 := 45
def plus : UInt8 := 43
def dot : UInt8 := 46
def colon : UInt8 := 58
def upperT : UInt8 := 84
def lowerT : UInt8 := 116
def upperZ : UInt8 := 90
def lowerZ : UInt8 := 122

def ascii (num : Nat) : UInt8 := UInt8.ofNat (num + 48)

def digit (c : UInt8) : Nat := (c - 48).toNat

def isDigit (c : UInt8) : Bool := 48 ≤ c ∧ c ≤ 57

end Rfc3339

open Rfc3339

def cellRtcTickAddMinutes (tick : UInt64) (lAdd : Int64) : UInt64 :=
  tick + (lAdd * 60 * 1000000).toUInt64

def formatDateTime (t : CellRtcDateTime) : List UInt8 :=
  let year := t.year.toNat
  let month := t.month.toNat
  let day := t.day.toNat
  let hour := t.hour.toNat
  let minute := t.minute.toNat
  let second := t.second.toNat
  let microsecond := t.microsecond.toNat
  [ascii (year / 1000), ascii (year / 100 % 10), ascii (year / 10 % 10), ascii (year % 10), hyphen,
    ascii (month / 10), ascii (month % 10), hyphen,
    ascii (day / 10), ascii (day % 10), upperT,
    ascii (hour / 10), ascii (hour % 10), colon,
    ascii (minute / 10), ascii (minute % 10), colon,
    ascii (second / 10), ascii (second % 10), dot,
    ascii (microsecond / 100000), ascii (microsecond / 10000 % 10)]

def formatTimeZone (iTimeZone : Int32) : List UInt8 :=
  if iTimeZone = 0 then [upperZ, 0]
  else
    let sign := if iTimeZone < 0 then hyphen else plus
    let minutes := (if iTimeZone < 0 then -iTimeZone else iTimeZone).toInt.toNat
    let timeZoneHours := minutes / 60 % 100
    let timeZoneMinutes := minutes % 60
    [sign, ascii (timeZoneHours / 10), ascii (timeZoneHours % 10), colon,
      ascii (timeZoneMinutes / 10), ascii (timeZoneMinutes % 10), 0]

def cellRtcFormatRfc3339 (utc : UInt64) (iTimeZone : Int32) : Except CellRtcError (List UInt8) :=
  let t := tickToDateTime (cellRtcTickAddMinutes utc iTimeZone.toInt64)
  match cellRtcCheckValid t with
  | .error error => .error error
  | .ok () => .ok (formatDateTime t ++ formatTimeZone iTimeZone)

section Parse

variable (text : List UInt8)

def charAt (pos : Nat) : UInt8 := text.getD pos 0

def readTwo (pos : Nat) : UInt16 :=
  if isDigit (charAt text pos) ∧ isDigit (charAt text (pos + 1)) then
    UInt16.ofNat (digit (charAt text pos) * 10 + digit (charAt text (pos + 1)))
  else 0xffff

def readYear : UInt16 :=
  if isDigit (charAt text 0) ∧ isDigit (charAt text 1) ∧ isDigit (charAt text 2) ∧
      isDigit (charAt text 3) then
    UInt16.ofNat (digit (charAt text 0) * 1000 + digit (charAt text 1) * 100 +
      digit (charAt text 2) * 10 + digit (charAt text 3))
  else 0xffff

-- The digits behind the dot, and where they end.
def readFraction : List UInt8 → UInt32 → UInt32 → Nat → UInt32 × Nat
  | c :: rest, mul, microsecond, pos =>
      if isDigit c then
        readFraction rest (mul / 10) (microsecond + UInt32.ofNat (digit c) * mul) (pos + 1)
      else (microsecond, pos)
  | [], _, microsecond, pos => (microsecond, pos)

def readMicrosecond : UInt32 × Nat :=
  if charAt text 19 = dot then readFraction (text.drop 20) 100000 0 20 else (0, 19)

-- The minutes to add, or nothing where the offset is no offset.
def readOffset (pos : Nat) : Option Int64 :=
  let sign := charAt text pos
  if sign = plus ∨ sign = hyphen then
    if !isDigit (charAt text (pos + 1)) || !isDigit (charAt text (pos + 2)) ||
        charAt text (pos + 3) != colon || !isDigit (charAt text (pos + 4)) ||
        !isDigit (charAt text (pos + 5)) then none
    else
      let hours := digit (charAt text (pos + 1)) * 10 + digit (charAt text (pos + 2))
      let minutes := digit (charAt text (pos + 4)) * 10 + digit (charAt text (pos + 5))
      let minutesToAdd : Int64 := Int64.ofNat (hours * 60 + minutes)
      some (if sign = plus then -minutesToAdd else minutesToAdd)
  else some 0

-- `pUtc` is what stands there before the call. It stays where the year is out of range.
def cellRtcParseRfc3339 (pUtc : UInt64) : Except ParseError UInt64 :=
  if charAt text 4 ≠ hyphen then .error (.invalid .invalidYear)
  else if charAt text 7 ≠ hyphen then .error (.invalid .invalidMonth)
  else if charAt text 10 ≠ upperT ∧ charAt text 10 ≠ lowerT then .error (.invalid .invalidDay)
  else if charAt text 13 ≠ colon then .error (.invalid .invalidHour)
  else if charAt text 16 ≠ colon then .error (.invalid .invalidMinute)
  else
    let t : CellRtcDateTime :=
      { year := readYear text
        month := readTwo text 5
        day := readTwo text 8
        hour := readTwo text 11
        minute := readTwo text 14
        second := readTwo text 17
        microsecond := (readMicrosecond text).1 }
    let pos := (readMicrosecond text).2
    let sign := charAt text pos
    if sign ≠ upperZ ∧ sign ≠ lowerZ ∧ sign ≠ plus ∧ sign ≠ hyphen then .error .badParse
    else
      match readOffset text pos with
      | none => .error .badParse
      | some minutesToAdd =>
          .ok (cellRtcTickAddMinutes ((cellRtcGetTick t).getD pUtc) minutesToAdd)

end Parse

section Digits

theorem isDigit_ascii : ∀ num < 10, isDigit (ascii num) = true := by decide

theorem digit_ascii : ∀ num < 10, digit (ascii num) = num := by decide

variable {text : List UInt8}

theorem readTwo_ascii {pos num : Nat} (h : num < 100) (htens : charAt text pos = ascii (num / 10))
    (hones : charAt text (pos + 1) = ascii (num % 10)) : readTwo text pos = UInt16.ofNat num := by
  have h10 : num / 10 < 10 := by omega
  have h1 : num % 10 < 10 := by omega
  rw [readTwo, htens, hones, isDigit_ascii _ h10, isDigit_ascii _ h1, if_pos ⟨rfl, rfl⟩,
    digit_ascii _ h10, digit_ascii _ h1, Nat.div_add_mod']

theorem readYear_ascii {num : Nat} (h : num < 10000) (h0 : charAt text 0 = ascii (num / 1000))
    (h1 : charAt text 1 = ascii (num / 100 % 10)) (h2 : charAt text 2 = ascii (num / 10 % 10))
    (h3 : charAt text 3 = ascii (num % 10)) : readYear text = UInt16.ofNat num := by
  have hd0 : num / 1000 < 10 := by omega
  have hd1 : num / 100 % 10 < 10 := by omega
  have hd2 : num / 10 % 10 < 10 := by omega
  have hd3 : num % 10 < 10 := by omega
  have hsum : num / 1000 * 1000 + num / 100 % 10 * 100 + num / 10 % 10 * 10 + num % 10 = num := by
    omega
  rw [readYear, h0, h1, h2, h3, isDigit_ascii _ hd0, isDigit_ascii _ hd1, isDigit_ascii _ hd2,
    isDigit_ascii _ hd3, if_pos ⟨rfl, rfl, rfl, rfl⟩, digit_ascii _ hd0, digit_ascii _ hd1,
    digit_ascii _ hd2, digit_ascii _ hd3, hsum]

theorem readFraction_ascii {num : Nat} (h : num < 1000000) {c : UInt8} (hc : isDigit c = false)
    (rest : List UInt8) :
    readFraction (ascii (num / 100000) :: ascii (num / 10000 % 10) :: c :: rest) 100000 0 20 =
      (UInt32.ofNat (num / 10000 * 10000), 22) := by
  have h10 : num / 100000 < 10 := by omega
  have h1 : num / 10000 % 10 < 10 := by omega
  simp only [readFraction, isDigit_ascii _ h10, isDigit_ascii _ h1, hc, if_true,
    digit_ascii _ h10, digit_ascii _ h1, Bool.false_eq_true, if_false, Prod.mk.injEq, and_true]
  have hsum : num / 10000 * 10000 = num / 100000 * 100000 + num / 10000 % 10 * 10000 := by omega
  rw [← UInt32.toNat_inj, hsum]
  generalize num / 100000 = tens at h10
  generalize num / 10000 % 10 = ones at h1
  simp only [UInt32.toNat_add, UInt32.toNat_mul, UInt32.toNat_ofNat', UInt32.toNat_div,
    UInt32.reduceToNat]
  omega

end Digits

-- What the parser reads of the date and the time that the formatter writes.
theorem readBack {t : CellRtcDateTime} (h : t.Valid) {c : UInt8} (hc : isDigit c = false)
    (rest : List UInt8) :
    let text := formatDateTime t ++ c :: rest
    readYear text = t.year ∧ readTwo text 5 = t.month ∧ readTwo text 8 = t.day ∧
      readTwo text 11 = t.hour ∧ readTwo text 14 = t.minute ∧ readTwo text 17 = t.second ∧
      readMicrosecond text = (UInt32.ofNat (t.microsecond.toNat / 10000 * 10000), 22) := by
  have hmonth : t.month.toNat < 100 := Nat.lt_of_le_of_lt h.date.month.2 (by decide)
  have hday : t.day.toNat < 100 := by
    have hlength : ∀ leap, ∀ month < 13, monthLength leap month < 100 := by decide
    have hle : t.day.toNat ≤ monthLength (isLeap t.year.toNat) t.month.toNat := h.date.day.2
    exact Nat.lt_of_le_of_lt hle (hlength _ _ (Nat.lt_succ_of_le h.date.month.2))
  refine ⟨?_, ?_, ?_, ?_, ?_, ?_, ?_⟩
  · rw [readYear_ascii h.year rfl rfl rfl rfl, UInt16.ofNat_toNat]
  · rw [readTwo_ascii hmonth rfl rfl, UInt16.ofNat_toNat]
  · rw [readTwo_ascii hday rfl rfl, UInt16.ofNat_toNat]
  · rw [readTwo_ascii (Nat.lt_trans h.hour (by decide)) rfl rfl, UInt16.ofNat_toNat]
  · rw [readTwo_ascii (Nat.lt_trans h.minute (by decide)) rfl rfl, UInt16.ofNat_toNat]
  · rw [readTwo_ascii (Nat.lt_trans h.second (by decide)) rfl rfl, UInt16.ofNat_toNat]
  · rw [readMicrosecond, if_pos (show charAt _ 19 = dot from rfl)]
    exact readFraction_ascii h.microsecond hc rest

-- What the parser reads of an offset of less than 100 hours.
theorem readOffset_ascii {text : List UInt8} {pos sign minutes : Nat} (h : minutes < 6000)
    (hsign : charAt text pos = UInt8.ofNat sign) (hkind : sign = 43 ∨ sign = 45)
    (h1 : charAt text (pos + 1) = ascii (minutes / 60 % 100 / 10))
    (h2 : charAt text (pos + 2) = ascii (minutes / 60 % 100 % 10))
    (h3 : charAt text (pos + 3) = colon)
    (h4 : charAt text (pos + 4) = ascii (minutes % 60 / 10))
    (h5 : charAt text (pos + 5) = ascii (minutes % 60 % 10)) :
    readOffset text pos =
      some (if sign = 43 then -Int64.ofNat minutes else Int64.ofNat minutes) := by
  have hd1 : minutes / 60 % 100 / 10 < 10 := by omega
  have hd2 : minutes / 60 % 100 % 10 < 10 := by omega
  have hd4 : minutes % 60 / 10 < 10 := by omega
  have hd5 : minutes % 60 % 10 < 10 := by omega
  have hsum : (minutes / 60 % 100 / 10 * 10 + minutes / 60 % 100 % 10) * 60 +
      (minutes % 60 / 10 * 10 + minutes % 60 % 10) = minutes := by omega
  simp only [readOffset, hsign, h1, h2, h3, h4, h5, isDigit_ascii _ hd1, isDigit_ascii _ hd2,
    isDigit_ascii _ hd4, isDigit_ascii _ hd5, digit_ascii _ hd1, digit_ascii _ hd2,
    digit_ascii _ hd4, digit_ascii _ hd5, hsum]
  rcases hkind with rfl | rfl <;> rfl

theorem readOffset_back {tz : Int32} (htz : -6000 < tz.toInt ∧ tz.toInt < 6000)
    (t : CellRtcDateTime) :
    ∃ c rest, formatTimeZone tz = c :: rest ∧ isDigit c = false ∧
      (c = upperZ ∨ c = plus ∨ c = hyphen) ∧
      ∃ minutes, readOffset (formatDateTime t ++ c :: rest) 22 = some minutes ∧
        minutes.toInt = -tz.toInt := by
  have hofNat {n : Nat} (h : n < 6000) : (Int64.ofNat n).toInt = n := by
    have hsize : Int64.size = 2 ^ 64 := rfl
    rw [Int64.toInt_ofNat', Int.bmod_eq_of_le (by omega) (by omega)]
  by_cases hzero : tz = 0
  · refine ⟨upperZ, [0], if_pos hzero, rfl, Or.inl rfl, 0, rfl, ?_⟩
    rw [hzero]
    rfl
  by_cases hneg : tz < 0
  · have habs : (-tz).toInt = -tz.toInt := by
      rw [Int32.toInt_neg, Int.bmod_eq_of_le (by omega) (by omega)]
    have hsign : tz.toInt < 0 := Int32.lt_iff_toInt_lt.mp hneg
    have hminutes : (-tz).toInt.toNat < 6000 := by omega
    refine ⟨hyphen, _, if_neg hzero |>.trans (by rw [if_pos hneg, if_pos hneg]), rfl,
      Or.inr (Or.inr rfl), _, readOffset_ascii hminutes (show charAt _ 22 = UInt8.ofNat 45 from rfl)
        (Or.inr rfl) rfl rfl rfl rfl rfl, ?_⟩
    · rw [if_neg (by decide), hofNat (by omega)]
      omega
  · have hsign : 0 ≤ tz.toInt := by
      have := mt Int32.lt_iff_toInt_lt.mpr hneg
      exact Int.not_lt.mp this
    have hminutes : tz.toInt.toNat < 6000 := by omega
    refine ⟨plus, _, if_neg hzero |>.trans (by rw [if_neg hneg, if_neg hneg]), rfl,
      Or.inr (Or.inl rfl), _, readOffset_ascii hminutes (show charAt _ 22 = UInt8.ofNat 43 from rfl)
        (Or.inl rfl) rfl rfl rfl rfl rfl, ?_⟩
    · rw [if_pos rfl, Int64.toInt_neg, hofNat (by omega), Int.bmod_eq_of_le (by omega) (by omega)]
      omega

theorem toInt_addMinutes (tick : UInt64) {minutes : Int64}
    (h : -6000 < minutes.toInt ∧ minutes.toInt < 6000) :
    ((cellRtcTickAddMinutes tick minutes).toNat : Int) =
      (tick.toNat + minutes.toInt * 60000000) % 2 ^ 64 := by
  have h60 : (60 : Int64).toInt = 60 := rfl
  have hmicro : (1000000 : Int64).toInt = 1000000 := rfl
  have hseconds : (minutes * 60).toInt = minutes.toInt * 60 := by
    rw [Int64.toInt_mul, h60, Int.bmod_eq_of_le (by omega) (by omega)]
  have hproduct : (minutes * 60 * 1000000).toInt = minutes.toInt * 60000000 := by
    rw [Int64.toInt_mul, hseconds, hmicro, Int.bmod_eq_of_le (by omega) (by omega)]
    omega
  have hbits : (minutes * 60 * 1000000).toInt % 2 ^ 64 =
      (minutes * 60 * 1000000).toUInt64.toNat % 2 ^ 64 := by
    have hbmod := BitVec.toInt_eq_toNat_bmod (minutes * 60 * 1000000).toUInt64.toBitVec
    exact (congrArg (· % 2 ^ 64) hbmod).trans Int.bmod_emod
  rw [hproduct] at hbits
  rw [cellRtcTickAddMinutes, UInt64.toNat_add]
  omega

-- Hundredths of a second are kept.
theorem dateTimeToTick_hundredths {tick : UInt64} (h : tick < tickOfYear10000) :
    let t : CellRtcDateTime := { tickToDateTime tick with
      microsecond := UInt32.ofNat ((tickToDateTime tick).microsecond.toNat / 10000 * 10000) }
    t.Valid ∧ (dateTimeToTick t).toNat = tick.toNat / 10000 * 10000 := by
  intro t
  have hvalid := tickToDateTime_valid h
  have hlt := hvalid.microsecond
  have hmicro : t.microsecond.toNat = (tickToDateTime tick).microsecond.toNat / 10000 * 10000 := by
    simp only [t, UInt32.toNat_ofNat']
    omega
  have htvalid : t.Valid :=
    ⟨hvalid.date, hvalid.year, hvalid.hour, hvalid.minute, hvalid.second, by omega⟩
  refine ⟨htvalid, ?_⟩
  have hdate : t.date = (tickToDateTime tick).date := rfl
  have htick := tick_toNat h
  rw [dateTimeToTick_toNat htvalid, hdate, htick]
  simp only [timeOfDay, hmicro]
  simp only [t]
  omega

-- An equation of functions: at an argument the kernel would evaluate what is matched on first.
theorem cellRtcFormatRfc3339_eq : cellRtcFormatRfc3339 = fun utc iTimeZone =>
    match cellRtcCheckValid (tickToDateTime (cellRtcTickAddMinutes utc iTimeZone.toInt64)) with
    | .error error => .error error
    | .ok () =>
        .ok (formatDateTime (tickToDateTime (cellRtcTickAddMinutes utc iTimeZone.toInt64)) ++
          formatTimeZone iTimeZone) :=
  rfl

theorem format_of_valid {utc : UInt64} {tz : Int32} {localTick : UInt64}
    (htick : cellRtcTickAddMinutes utc tz.toInt64 = localTick)
    (h : cellRtcCheckValid (tickToDateTime localTick) = .ok ()) :
    cellRtcFormatRfc3339 utc tz =
      .ok (formatDateTime (tickToDateTime localTick) ++ formatTimeZone tz) := by
  rw [cellRtcFormatRfc3339_eq]
  simp only [htick, h]

-- Parsing what the formatter writes gives the tick back, down to hundredths of a second. The local
-- time lies in the years from 1 to 9999.
theorem rtc_rfc3339 (utc : UInt64) (tz : Int32) (htz : -6000 < tz.toInt ∧ tz.toInt < 6000)
    (hlocal : 0 ≤ (utc.toNat : Int) + tz.toInt * 60000000 ∧
      (utc.toNat : Int) + tz.toInt * 60000000 < tickOfYear10000.toNat) :
    ∃ text, cellRtcFormatRfc3339 utc tz = .ok text ∧
      ∀ pUtc, cellRtcParseRfc3339 text pUtc = .ok (utc / 10000 * 10000) := by
  have htz64 : tz.toInt64.toInt = tz.toInt := Int32.toInt_toInt64 tz
  generalize hlocalTick : cellRtcTickAddMinutes utc tz.toInt64 = localTick
  have hticks : (localTick.toNat : Int) = utc.toNat + tz.toInt * 60000000 := by
    rw [← hlocalTick, toInt_addMinutes utc (by omega), htz64]
    rw [tickOfYear10000_toNat] at hlocal
    omega
  have hlt : localTick < tickOfYear10000 := by
    rw [UInt64.lt_iff_toNat_lt]
    omega
  have hvalid := tickToDateTime_valid hlt
  obtain ⟨c, rest, hzone, hc, hkind, minutes, hoffset, hminutes⟩ :=
    readOffset_back htz (tickToDateTime localTick)
  refine ⟨formatDateTime (tickToDateTime localTick) ++ c :: rest, ?_, ?_⟩
  · rw [format_of_valid hlocalTick ((checkValid_iff _).mpr hvalid), hzone]
  · intro pUtc
    obtain ⟨hyear, hmonth, hday, hhour, hminute, hsecond, hmicro⟩ := readBack hvalid hc rest
    obtain ⟨htvalid, htick⟩ := dateTimeToTick_hundredths hlt
    generalize htext : formatDateTime (tickToDateTime localTick) ++ c :: rest = text at *
    have h4 : charAt text 4 = hyphen := by rw [← htext]; rfl
    have h7 : charAt text 7 = hyphen := by rw [← htext]; rfl
    have h10 : charAt text 10 = upperT := by rw [← htext]; rfl
    have h13 : charAt text 13 = colon := by rw [← htext]; rfl
    have h16 : charAt text 16 = colon := by rw [← htext]; rfl
    have h22 : charAt text 22 = c := by rw [← htext]; rfl
    have hsign : ¬(c ≠ upperZ ∧ c ≠ lowerZ ∧ c ≠ plus ∧ c ≠ hyphen) := by
      rintro ⟨hz, -, hp, hm⟩
      rcases hkind with hkind | hkind | hkind
      · exact hz hkind
      · exact hp hkind
      · exact hm hkind
    have hresult : cellRtcTickAddMinutes (dateTimeToTick { tickToDateTime localTick with
        microsecond := UInt32.ofNat
          ((tickToDateTime localTick).microsecond.toNat / 10000 * 10000) }) minutes =
        utc / 10000 * 10000 := by
      have hsum := toInt_addMinutes (dateTimeToTick { tickToDateTime localTick with
        microsecond := UInt32.ofNat
          ((tickToDateTime localTick).microsecond.toNat / 10000 * 10000) })
        (show -6000 < minutes.toInt ∧ minutes.toInt < 6000 by omega)
      rw [htick, hminutes] at hsum
      have hutc := utc.toNat_lt
      have hunit : (10000 : UInt64).toNat = 10000 := rfl
      rw [← UInt64.toNat_inj, UInt64.toNat_mul, UInt64.toNat_div, hunit]
      omega
    simp only [cellRtcParseRfc3339, h4, h7, h10, h13, h16, hyear, hmonth, hday, hhour, hminute,
      hsecond, hmicro, h22, hoffset, if_neg hsign, (getTick_spec htvalid).1, Option.getD_some,
      hresult, ne_eq, not_true_eq_false, false_and, if_false]

-- Half past ten in the evening, eleven hours and 30 minutes west of UTC.
theorem rtc_rfc3339_west :
    ∃ text, cellRtcFormatRfc3339 (dateTimeToTick ⟨2000, 3, 1, 10, 0, 0, 987654⟩) (-690) = .ok text ∧
      ∀ pUtc, cellRtcParseRfc3339 text pUtc =
        .ok (dateTimeToTick ⟨2000, 3, 1, 10, 0, 0, 987654⟩ / 10000 * 10000) :=
  rtc_rfc3339 _ _ (by decide) (by decide)

end Rpcsx.CellRtc
