import Cantrip.Cron.Date
import Cantrip.Lib.Loop
import Cantrip.Text
import Cantrip.Wire.Syntax

/-!
# Date texts (`wire/js_date.rs`)

`parse` reads a date as `Date.parse` does: the ISO form first, and from the token where a text leaves it a looser form
in which numbers, words and signs may stand in any order. `isoMilliseconds` writes the ISO form. The offset of the
server's own time zone comes from a library, and is a parameter.
-/

namespace Cantrip.Wire.JsDate

open Lib Cron

inductive Keyword
  | unknown | month | zone | separator | amPm
  deriving DecidableEq

inductive Token
  | number (value : Int) (length : Nat)
  | symbol (unit : UInt16)
  | word (kind : Keyword) (value : Int) (length : Nat)
  | space | unknown | end_
  deriving DecidableEq

namespace Token

def fixed : Token → Nat → Option Int
  | .number value size, length => if size = length then some value else none
  | _, _ => none

def sign : Token → Option Int
  | .symbol unit => if unit = 43 then some 1 else if unit = 45 then some (-1) else none
  | _ => none

def z (token : Token) : Bool := token = .word .zone 0 1

end Token

/-! ## Scanner -/

structure Scanner where
  next : Token
  rest : Utf16

namespace Scanner

def isDigit (unit : UInt16) : Bool := 48 ≤ unit && unit ≤ 57

def space (unit : UInt16) : Bool := Text.whitespace (Char.ofNat unit.toNat)

def wordSpace (unit : UInt16) : Bool := space unit && !(unit = 10 || unit = 13 || unit = 0x2028 || unit = 0x2029)

def isWord (unit : UInt16) : Bool := 65 ≤ unit && !wordSpace unit

/-- A run of digits: nine of them behind the leading zeros count. -/
def number (digits : Utf16) : Token :=
  .number (((digits.dropWhile (· = 48)).take 9).foldl (fun value unit => value * 10 + (unit.toNat - 48)) 0) digits.length

def months : List String := ["jan", "feb", "mar", "apr", "may", "jun", "jul", "aug", "sep", "oct", "nov", "dec"]

def words : List (String × Keyword × Int) :=
  [("am", .amPm, 0), ("pm", .amPm, 12), ("ut", .zone, 0), ("utc", .zone, 0), ("z", .zone, 0), ("gmt", .zone, 0),
    ("cdt", .zone, -5), ("cst", .zone, -6), ("edt", .zone, -4), ("est", .zone, -5), ("mdt", .zone, -6), ("mst", .zone, -7),
    ("pdt", .zone, -7), ("pst", .zone, -8), ("t", .separator, 0)]

/-- Three units, filled up with zeros. -/
def key (units : Utf16) : Utf16 := (units ++ [0, 0, 0]).take 3

def word (units : Utf16) : Token :=
  let front := key ((units.take 3).map fun unit => if 65 ≤ unit && unit ≤ 90 then unit + 32 else unit)
  match months.findIdx? fun month => jsText month = front with
  | some index => .word .month (index + 1) units.length
  | none =>
    if units.length ≤ 3 then
      match words.find? fun entry => key (jsText entry.1) = front with
      | some (_, kind, value) => .word kind value units.length
      | none => .word .unknown 0 units.length
    else .word .unknown 0 units.length

/-- Up to the parenthesis that closes the first one, or the end. -/
def parens (balance : Int) : Utf16 → Utf16
  | [] => []
  | unit :: rest =>
    let balance := if unit = 40 then balance + 1 else if unit = 41 then balance - 1 else balance
    if balance = 0 || rest.headD 0 = 0 then rest else parens balance rest

def scan (units : Utf16) : Scanner :=
  let first := units.headD 0
  if first = 0 then ⟨.end_, units⟩
  else if isDigit first then ⟨number (units.takeWhile isDigit), units.dropWhile isDigit⟩
  else if first = 58 || first = 45 || first = 43 || first = 46 || first = 41 then ⟨.symbol first, units.tail⟩
  else if isWord first then ⟨word (units.takeWhile isWord), units.dropWhile isWord⟩
  else if space first then ⟨.space, units.tail⟩
  else if first = 40 then ⟨.unknown, parens 0 units⟩
  else ⟨.unknown, units.tail⟩

end Scanner

/-! ## Parts of a date -/

structure Day where
  parts : List Int := []
  month : Option Int := none
  iso : Bool := false

namespace Day

/-- One more part, unless there are three. -/
def add (day : Day) (value : Int) : Option Day :=
  if day.parts.length = 3 then none else some { day with parts := day.parts ++ [value] }

def within (low high n : Int) : Bool := low ≤ n && n ≤ high

def fields (day : Day) : Option (Int × Int × Int) :=
  if day.parts.isEmpty then none
  else
    let first := day.parts.getD 0 1
    let second := day.parts.getD 1 1
    let third := day.parts.getD 2 1
    let (year, month, date) := match day.month with
      | some month => if !within 1 31 first then (first, month, second) else (second, month, first)
      | none => if day.iso || !within 1 31 first then (first, second, third) else (third, first, second)
    let year := if day.iso then year
      else if within 0 49 year then year + 2000
      else if within 50 99 year then year + 1900
      else year
    if within 1 12 month && within 1 31 date then some (year, month, date) else none

end Day

structure Clock where
  hour : Int
  minute : Int
  second : Int
  millis : Int
  deriving DecidableEq

def Clock.milliseconds (clock : Clock) : Int :=
  clock.hour * 3600000 + clock.minute * 60000 + clock.second * 1000 + clock.millis

structure Time where
  parts : List Int := []
  offset : Option Int := none

namespace Time

open Day (within)

def add (time : Time) (value : Int) : Option Time :=
  if time.parts.length = 4 then none else some { time with parts := time.parts ++ [value] }

def expecting (time : Time) (value : Int) : Bool :=
  if time.parts.length = 1 || time.parts.length = 2 then within 0 59 value
  else if time.parts.length = 3 then within 0 999 value
  else false

def finish (time : Time) (value : Int) : Time :=
  match time.add value with
  | some time => { time with parts := time.parts ++ List.replicate (4 - time.parts.length) 0 }
  | none => time

def fields (time : Time) : Option Clock :=
  let hour := time.parts.getD 0 0
  let checked := match time.offset with
    | some offset => if within 0 12 hour then some (hour % 12 + offset) else none
    | none => some hour
  match checked with
  | none => none
  | some hour =>
    let clock : Clock := ⟨hour, time.parts.getD 1 0, time.parts.getD 2 0, time.parts.getD 3 0⟩
    if (within 0 23 clock.hour && within 0 59 clock.minute && within 0 59 clock.second && within 0 999 clock.millis) ||
        clock = ⟨24, 0, 0, 0⟩ then some clock
    else none

end Time

structure Zone where
  sign : Option Int := none
  hour : Option Int := none
  minute : Option Int := none

namespace Zone

def set (offset : Int) : Zone := ⟨some (if offset < 0 then -1 else 1), some offset.natAbs, some 0⟩

def utc (zone : Zone) : Bool := zone.hour = some 0 && zone.minute = some 0

def expecting (zone : Zone) (value : Int) : Bool := zone.hour.isSome && zone.minute.isNone && Day.within 0 59 value

def seconds (zone : Zone) : Option (Option Int) :=
  match zone.sign with
  | none => some none
  | some sign =>
    let total := (zone.hour.getD 0 * 3600 + zone.minute.getD 0 * 60) % 2 ^ 32
    if total ≤ 2 ^ 31 - 1 then some (some (total * sign)) else none

end Zone

def milliseconds (value : Int) (length : Nat) : Int :=
  if length = 1 then value * 100
  else if length = 2 then value * 10
  else if length = 3 then value
  else value / 10 ^ (min length 9 - 3)

structure Parse where
  scanner : Scanner
  day : Day := {}
  time : Time := {}
  zone : Zone := {}

namespace Parse

def next (p : Parse) : Token := p.scanner.next

/-- `take`, where the token is not needed. -/
def take (p : Parse) : Parse := { p with scanner := .scan p.scanner.rest }

def atSymbol (p : Parse) (symbol : UInt16) : Bool := p.next = .symbol symbol

/-- `skip`, where it does not matter whether the symbol was there. -/
def skip (p : Parse) (symbol : UInt16) : Parse := if p.atSymbol symbol then p.take else p

/-- `day.add`, where it does not matter whether there was room. -/
def addDay (p : Parse) (value : Int) : Parse := { p with day := (p.day.add value).getD p.day }

def addTime (p : Parse) (value : Int) : Parse := { p with time := (p.time.add value).getD p.time }

end Parse

/-! ## The ISO form -/

/-- The ways out of `iso` before its end: the looser form goes on from a token, or there is no date. -/
inductive Exit
  | token (token : Token) (p : Parse)
  | error

def within (low high : Int) (n : Option Int) : Option Int := n.filter (Day.within low high)

def isoYear (p : Parse) : Except Exit Parse :=
  match p.next.sign with
  | some sign =>
    let signToken := p.next
    let p := p.take
    match p.next.fixed 6 with
    | none => .error (.token signToken p)
    | some year =>
      let p := p.take
      if sign < 0 ∧ year = 0 then .error (.token signToken p) else .ok (p.addDay (sign * year))
  | none =>
    match p.next.fixed 4 with
    | some year => .ok (p.addDay year).take
    | none => .error (.token p.next p.take)

/-- A month or a date, from behind its hyphen. -/
def isoPart (high : Int) (p : Parse) : Except Exit Parse :=
  match within 1 high (p.next.fixed 2) with
  | some part => .ok (p.addDay part).take
  | none => .error (.token p.next p.take)

def isoDate (p : Parse) : Except Exit Parse :=
  if p.atSymbol 45 then do
    let p ← isoPart 12 p.take
    if p.atSymbol 45 then isoPart 31 p.take else .ok p
  else .ok p

def isoSixtieth (hour : Int) (p : Parse) : Except Exit Parse :=
  match (within 0 59 (p.next.fixed 2)).filter fun n => hour ≠ 24 || n = 0 with
  | some part => .ok (p.addTime part).take
  | none => .error .error

def isoFraction (hour : Int) (p : Parse) : Except Exit Parse :=
  match p.next with
  | .number value length =>
    if hour ≠ 24 || value = 0 then .ok (p.take.addTime (milliseconds value length)) else .error .error
  | _ => .error .error

def isoTime (p : Parse) : Except Exit Parse :=
  match within 0 24 (p.next.fixed 2) with
  | none => .error .error
  | some hour => do
    let p := (p.addTime hour).take
    if p.atSymbol 58 then do
      let p ← isoSixtieth hour p.take
      if p.atSymbol 58 then do
        let p ← isoSixtieth hour p.take
        if p.atSymbol 46 then isoFraction hour p.take else .ok p
      else .ok p
    else .error .error

def isoZone (p : Parse) : Except Exit Parse :=
  if p.next.z then .ok { p.take with zone := .set 0 }
  else
    match p.next.sign with
    | none => .ok p
    | some sign =>
      let p := p.take
      match p.next.fixed 4 with
      | some value =>
        if value / 100 > 23 || value % 100 > 59 then .error .error
        else .ok { p.take with zone := ⟨some sign, some (value / 100), some (value % 100)⟩ }
      | none =>
        match (p.next.fixed 2).filter (· ≤ 23) with
        | none => .error .error
        | some hour =>
          let p := p.take
          if p.atSymbol 58 then
            let p := p.take
            match (p.next.fixed 2).filter (· ≤ 59) with
            | none => .error .error
            | some minute => .ok { p.take with zone := ⟨some sign, some hour, some minute⟩ }
          else .error .error

def isSeparator : Token → Bool
  | .word .separator _ _ => true
  | _ => false

def isoClock (p : Parse) : Except Exit Parse :=
  if isSeparator p.next then do
    let p ← isoTime p.take
    let p ← isoZone p
    if p.next = .end_ then .ok p else .error .error
  else if p.next = .end_ then .ok p
  else .error (.token p.next p.take)

def iso (p : Parse) : Except Exit Parse := do
  let p ← isoYear p
  let p ← isoDate p
  let p ← isoClock p
  let zone := if p.zone.hour.isNone && p.time.parts.isEmpty then .set 0 else p.zone
  .ok { p with zone, day := { p.day with iso := true } }

/-! ## The looser form -/

structure Legacy where
  token : Token
  p : Parse
  hasNumber : Bool

def legacyNumber (p : Parse) (value : Int) : Option Parse :=
  if p.atSymbol 58 then
    let p := p.take
    if p.atSymbol 58 then
      let p := p.take
      if p.time.parts.isEmpty then some ((p.addTime value).addTime 0) else none
    else (p.time.add value).map fun time => Parse.skip { p with time } 46
  else
    let point := p.atSymbol 46
    let p := p.skip 46
    if point && p.time.expecting value then
      let p := p.addTime value
      match p.next with
      | .number fraction length => some { p.take with time := p.time.finish (milliseconds fraction length) }
      | _ => none
    else if p.zone.expecting value then some { p with zone := { p.zone with minute := some value } }
    else if p.time.expecting value then
      let p := { p with time := p.time.finish value }
      if p.next ≠ .end_ && p.next ≠ .space && !p.next.z && p.next.sign.isNone then none else some p
    else (p.day.add value).map fun day => Parse.skip { p with day } 45

def legacyWord (p : Parse) (hasNumber : Bool) (kind : Keyword) (value : Int) : Option Parse :=
  if kind = .amPm && !p.time.parts.isEmpty then some { p with time := { p.time with offset := some value } }
  else if kind = .month then some (Parse.skip { p with day := { p.day with month := some value } } 45)
  else if kind = .zone && hasNumber then some { p with zone := .set value }
  else
    match hasNumber, p.next with
    | true, _ | false, .number _ _ => none
    | false, _ => some p

/-- An offset behind its sign. -/
def legacyZone (p : Parse) (sign : Int) : Option Parse :=
  let (p, number, length) := match p.next with
    | .number number length => (p.take, number, length)
    | _ => (p, 0, 0)
  if p.next = .symbol 58 then some { p with zone := ⟨some sign, some number, none⟩ }
  else if length = 1 || length = 2 then some { p with zone := ⟨some sign, some number, some 0⟩ }
  else if length = 3 || length = 4 then some { p with zone := ⟨some sign, some (number / 100), some (number % 100)⟩ }
  else none

def legacyToken (s : Legacy) : Option (Parse × Bool) :=
  match s.token with
  | .number value _ => (legacyNumber s.p value).map (·, true)
  | .word kind value _ => (legacyWord s.p s.hasNumber kind value).map (·, s.hasNumber)
  | token =>
    match token.sign with
    | some sign =>
      if s.p.zone.utc || !s.p.time.parts.isEmpty then (legacyZone s.p sign).map (·, true)
      else if s.hasNumber then none
      else some (s.p, s.hasNumber)
    | none => if s.hasNumber && token = .symbol 41 then none else some (s.p, s.hasNumber)

def legacyTurn (s : Legacy) : Except Unit (Turn Legacy Parse) :=
  if s.token = .end_ then .ok (.leave s.p)
  else
    match legacyToken s with
    | none => .error ()
    | some (p, hasNumber) => .ok (.again ⟨p.next, p.take, hasNumber⟩)

/-! ## `parse` -/

def inI64 (n : Int) : Bool := -2 ^ 63 ≤ n && n < 2 ^ 63

/-- A time without an offset is one of the server's zone, whose calendar ends at the years -9999 and 9999. -/
def local_ (offsetAt : Int → Option Int) (value year month day : Int) (clock : Clock) : Option Int := do
  let lookupYear := if year > 9998 then year % 400 + 2400 else if year < -9998 then year % 400 - 9600 else year
  let lookup := days lookupYear month day * 86400000 + clock.milliseconds
  if inI64 lookup then
    let offset ← offsetAt lookup
    if inI64 value && inI64 (value - offset) then some (value - offset) else none
  else none

def finish (offsetAt : Int → Option Int) (p : Parse) : Option Int := do
  let (year, month, date) ← p.day.fields
  let clock ← p.time.fields
  let value := days year month date * 86400000 + clock.milliseconds
  let value ← match ← p.zone.seconds with
    | some offset => if inI64 (value - offset * 1000) then some (value - offset * 1000) else none
    | none => local_ offsetAt value year month date clock
  if value.natAbs ≤ timeClip then some value else none

/-- The first level says whether the turns sufficed: every turn takes a token, and a token takes a unit or ends. -/
def parse (offsetAt : Int → Option Int) (input : Utf16) : Option (Option Int) :=
  match iso { scanner := .scan input } with
  | .error .error => some none
  | .ok p => some (finish offsetAt p)
  | .error (.token token p) =>
    match loop legacyTurn (p.scanner.rest.length + 3) ⟨token, p, !p.day.parts.isEmpty⟩ with
    | none => none
    | some (.error _) => some none
    | some (.ok p) => some (finish offsetAt p)

/-- The value of a sum in 64 bits. -/
def wrap (n : Int) : Int := (n + 2 ^ 63) % 2 ^ 64 - 2 ^ 63

/-- `dateUtcMilliseconds` with the two sums of the year in 64 bits, where they may overflow. -/
def utcMilliseconds (year month day : Int) : Option Int :=
  let year := if 0 ≤ year ∧ year ≤ 99 then year + 1900 else year
  let year := wrap (year + month / 12)
  let month := month % 12 + 1
  let before := if month ≤ 2 then 1 else 0
  let value := days (wrap (year - before) + before) month day * 86400000
  if value.natAbs ≤ timeClip then some value else none

/-- `{n:0width}` -/
def padded (width n : Nat) : Utf16 := List.replicate (width - (decimal n).length) 48 ++ decimal n

def isoYearText (year : Int) : Utf16 :=
  if 0 ≤ year ∧ year ≤ 9999 then padded 4 year.toNat
  else if year < 0 then 45 :: padded 6 (-year).toNat
  else 43 :: padded 6 year.toNat

def isoMilliseconds (value : Int) : Option Utf16 :=
  (dateUtcFields value).map fun (year, month, day) =>
    let clock := value % 86400000
    isoYearText year ++ 45 :: padded 2 month.toNat ++ 45 :: padded 2 day.toNat ++ 84 :: padded 2 (clock / 3600000).toNat ++
      58 :: padded 2 (clock / 60000 % 60).toNat ++ 58 :: padded 2 (clock / 1000 % 60).toNat ++
      46 :: padded 3 (clock % 1000).toNat ++ [90]

end Cantrip.Wire.JsDate
