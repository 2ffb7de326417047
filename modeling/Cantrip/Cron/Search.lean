import Cantrip.Cron.Civil
import Cantrip.Cron.Pattern
import Cantrip.Lib.Loop

/-!
# The search of the next date (`next` in `project_automations/cron_date.rs`)

The search goes through the fields of a date from the month to the second. A field that already has a value of its
mask is kept; otherwise it is moved to the next one and all lower fields go back to their first value, or the field
above is counted up and the search starts over.
-/

namespace Cantrip.Cron

open Lib

/-! ## The days of a month -/

def nearestWeekday (weekday day last : Int) : Int :=
  if weekday = 0 then if day = last then day - 2 else day + 1
  else if weekday = 6 then if day = 1 then day + 2 else day - 1
  else day

/-- Whether a day is the nearest weekday of a marked one, from the `i`th on. -/
def nearestMatch (f : Fields) (last day : Int) : Int → List Nat → Except String Bool
  | _, [] => pure false
  | i, bits :: rest =>
    if bits = 0 ∨ i + 1 > last then nearestMatch f last day (i + 1) rest
    else do
      if day = nearestWeekday (← weekday f.year f.month (i + 1)) (i + 1) last then pure true
      else nearestMatch f last day (i + 1) rest

def markedMatch (p : Pattern) (f : Fields) (last day : Int) : Except String Bool :=
  if (p.mask .day).getD (day - 1).toNat 0 ≠ 0 then pure true else nearestMatch f last day 0 (p.mask .nearestWeekdays)

def lastWeekdayMatch (p : Pattern) (f : Fields) (last day : Int) : Except String Bool :=
  if p.lastWeekday then do
    let weekday ← weekday f.year f.month last
    let nearest := if weekday = 0 then last - 2 else if weekday = 6 then last - 1 else last
    pure (day = nearest)
  else pure false

/-- Whether a day still matches with the weekdays: both have to, or one of the two. -/
def weekdayMatch (p : Pattern) (f : Fields) (last day : Int) (matched : Bool) : Except String Bool :=
  if p.starDow then pure matched
  else do
    let dow := ((← weekday f.year f.month 1) + day - 1) % 7
    let mask := (p.mask .dayOfWeek).getD dow.toNat 0
    let selected := mask &&& 1 <<< ((day - 1) / 7).toNat ≠ 0 || (mask &&& 32 ≠ 0 && day + 7 > last)
    pure (if p.and || p.starDom then matched && selected else matched || selected)

def dayMatch (p : Pattern) (f : Fields) (day : Int) : Except String Bool := do
  let last ← lastDay f.year f.month
  let marked ← markedMatch p f last day
  let working ← lastWeekdayMatch p f last day
  weekdayMatch p f last day (marked || working || (p.last && day = last))

/-! ## The stages -/

inductive Stage
  | month
  | day
  | hour
  | minute
  | second
  deriving DecidableEq, Repr

namespace Stage

/-- `masks`. -/
def mask : Stage → Field
  | month => .month
  | day => .day
  | hour => .hour
  | minute => .minute
  | second => .second

/-- `offsets`: days are counted from 1 and their mask from 0. -/
def offset : Stage → Int
  | day => -1
  | _ => 0

def get (f : Fields) : Stage → Int
  | month => f.month
  | day => f.day
  | hour => f.hour
  | minute => f.minute
  | second => f.second

def set (f : Fields) (value : Int) : Stage → Fields
  | month => { f with month := value }
  | day => { f with day := value }
  | hour => { f with hour := value }
  | minute => { f with minute := value }
  | second => { f with second := value }

/-- Count up the field above. -/
def carry (f : Fields) : Stage → Fields
  | month => { f with year := f.year + 1 }
  | day => { f with month := f.month + 1 }
  | hour => { f with day := f.day + 1 }
  | minute => { f with hour := f.hour + 1 }
  | second => { f with minute := f.minute + 1 }

def lower : Stage → List Stage
  | month => [day, hour, minute, second]
  | day => [hour, minute, second]
  | hour => [minute, second]
  | minute => [second]
  | second => []

/-- Put the lower fields back to their first value. -/
def reset (f : Fields) (stage : Stage) : Fields := stage.lower.foldl (fun f lower => lower.set f (-lower.offset)) f

def next : Stage → Option Stage
  | month => some day
  | day => some hour
  | hour => some minute
  | minute => some second
  | second => none

/-- `stage.saturating_sub(1)`. -/
def back : Stage → Stage
  | month => month
  | day => month
  | hour => day
  | minute => hour
  | second => minute

end Stage

/-! ## The search -/

structure Search where
  fields : Fields
  stage : Stage
  deriving DecidableEq, Repr

def firstMatch (test : Int → Except String Bool) : Nat → Int → Except String (Option Int)
  | 0, _ => pure none
  | left + 1, value =>
    if value < 0 then firstMatch test left (value + 1)
    else do
      if ← test value then pure (some value) else firstMatch test left (value + 1)

def Stage.test (p : Pattern) (f : Fields) (stage : Stage) (value : Int) : Except String Bool :=
  if stage = .day then dayMatch p f (value - stage.offset)
  else pure ((p.mask stage.mask).getD value.toNat 0 ≠ 0)

def Stage.select (p : Pattern) (f : Fields) (stage : Stage) : Except String (Option Int) := do
  let low := stage.get f + stage.offset
  let value ← firstMatch (stage.test p f) ((p.mask stage.mask).length - low).toNat low
  pure (value.map (· - stage.offset))

def settle (zone : Zone) (f : Fields) (stage : Stage) : Except String (Turn Search (Option Int)) :=
  match stage.next with
  | none => do pure (.leave (some (← fromTz f zone)))
  | some stage => if f.year ≥ 3000 then pure (.leave none) else pure (.again ⟨f, stage⟩)

def move (zone : Zone) (f : Fields) (stage : Stage) (selected : Option Int) : Except String (Turn Search (Option Int)) :=
  if selected = some (stage.get f) then settle zone f stage
  else
    match selected with
    | none => do
      let (f, _) ← normalize (stage.carry (stage.set (stage.reset f) (-stage.offset)))
      pure (.again ⟨f, .month⟩)
    | some value => do
      let (f, changed) ← normalize (stage.set (stage.reset f) value)
      if changed then pure (.again ⟨f, stage.back⟩) else settle zone f stage

/-- One turn of the loop of `next`. -/
def turn (p : Pattern) (zone : Zone) (s : Search) : Except String (Turn Search (Option Int)) := do
  move zone s.fields s.stage (← s.stage.select p s.fields)

def searchStart (zone : Zone) (after : Int) : Except String Fields := do
  let f ← localFields after zone true
  let (f, _) ← normalize { f with second := f.second + 1 }
  pure f

/-- `next`, if so many turns of its loop are enough. -/
def next (p : Pattern) (zone : Zone) (after : Int) (turns : Nat) : Option (Except String (Option Int)) :=
  match searchStart zone after with
  | .error e => some (.error e)
  | .ok f => loop (turn p zone) turns ⟨f, .month⟩

end Cantrip.Cron
