import Cantrip.Lib.Gregorian
import Cantrip.Lib.Post

/-!
# Civil dates of the cron search (`wire/js_date.rs`, `project_automations/cron_date.rs`)

The date functions of the wire and the conversions of the search: an instant is a number of milliseconds, a
civil date the six numbers from the year down to the second, with months counted from 0.
-/

namespace Cantrip.Cron

open Lib

def DAY : Int := 86400000

def timeClip : Int := 8640000000000000

/-- The day number of a civil date whose month is between 1 and 12. -/
def days (year month day : Int) : Int :=
  let year := year - if month ≤ 2 then 1 else 0
  let era := year / 400
  let part := year - era * 400
  let month := month + if month > 2 then -3 else 9
  era * 146097 + part * 365 + part / 4 - part / 100 + (153 * month + 2) / 5 + day - 1 - 719468

def dateUtcFields (value : Int) : Option (Int × Int × Int) :=
  if timeClip < value.natAbs then none
  else
    let shifted := value / 86400000 + 719468
    let era := shifted / 146097
    let dayOfEra := shifted - era * 146097
    let yearOfEra := (dayOfEra - dayOfEra / 1460 + dayOfEra / 36524 - dayOfEra / 146096) / 365
    let year := yearOfEra + era * 400
    let dayOfYear := dayOfEra - (365 * yearOfEra + yearOfEra / 4 - yearOfEra / 100)
    let marchMonth := (5 * dayOfYear + 2) / 153
    let day := dayOfYear - (153 * marchMonth + 2) / 5 + 1
    let month := marchMonth + if marchMonth < 10 then 3 else -9
    some (year + if month ≤ 2 then 1 else 0, month, day)

def dateUtcMilliseconds (year month day : Int) : Option Int :=
  -- Date.UTC reads the years 0 to 99 as 1900 to 1999
  let year := if 0 ≤ year ∧ year ≤ 99 then year + 1900 else year
  let year := year + month / 12
  let value := days year (month % 12 + 1) day * 86400000
  if value.natAbs ≤ timeClip then some value else none

/-! ## The conversions -/

structure Fields where
  year : Int
  month : Int
  day : Int
  hour : Int
  minute : Int
  second : Int
  deriving DecidableEq, Repr

def outside {α : Type} : Except String α := .error "Cron date outside TimeClip"

def utc (f : Fields) : Except String Int :=
  match dateUtcMilliseconds f.year f.month f.day with
  | none => outside
  | some day =>
    let value := day + (f.hour * 3600 + f.minute * 60 + f.second) * 1000
    if value.natAbs ≤ timeClip then .ok value else outside

def utcFields (ms : Int) : Except String Fields :=
  match dateUtcFields ms with
  | none => outside
  | some (y, m, d) =>
    let c := ms % DAY
    .ok ⟨y, m - 1, d, c / 3600000, c / 60000 % 60, c / 1000 % 60⟩

/-- A time zone, by the civil date it shows at an instant. -/
structure Zone where
  civil : Int → Except String Fields

/-- `local`, the civil date in a zone. The zone's own calendar ends at the years -9999 and 9999. -/
def localFields (ms : Int) (zone : Zone) (intl : Bool) : Except String Fields := do
  let f ← utcFields ms
  let year :=
    if f.year > 9998 then f.year % 400 + 2400 else if f.year < -9998 then f.year % 400 - 9600 else f.year
  let representative ← if year = f.year then pure ms else utc { f with year }
  let value ← zone.civil representative
  let year := value.year + f.year - year
  pure { value with year := if intl ∧ year ≤ 0 then 1 - year else year }

def fromTz (f : Fields) (zone : Zone) : Except String Int := do
  let t ← utc f
  let r ← localFields t zone true
  let first := t + (← utc f) - (← utc r)
  let h ← localFields first zone true
  if h = f then
    let earlier := first - 3600000
    pure (if (← localFields earlier zone true) = f then earlier else first)
  else
    let second := first + (← utc f) - (← utc h)
    pure (if (← localFields second zone true) = f then second else max first second)

/-- The days a month has before February's leap day is counted. -/
def MONTH (month : Int) : Int := commonLength month

def lastDay (year month : Int) : Except String Int := do
  if month ≠ 1 then
    pure (MONTH month)
  else
    match dateUtcMilliseconds year (month + 1) 0 with
    | none => .error "Cron month"
    | some ms => pure (← utcFields ms).day

def weekday (year month day : Int) : Except String Int := do
  pure (((← utc ⟨year, month, day, 0, 0, 0⟩) / DAY + 4) % 7)

/-- Carry a field that has run over into the next one. Only a date outside the table of months is carried: hour
24 is left to stand. -/
def normalize (f : Fields) : Except String (Fields × Bool) :=
  if ¬(0 ≤ f.month ∧ f.month ≤ 11) ∨ f.day < 1 ∨ f.day > MONTH f.month ∨ f.hour > 59 ∨ f.minute > 59 ∨
      f.second > 59 ∨ f.hour < 0 ∨ f.minute < 0 ∨ f.second < 0 then do
    pure (← utcFields (← utc f), true)
  else pure (f, false)

end Cantrip.Cron
