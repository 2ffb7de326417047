import Cantrip.Lib.Float64
import Cantrip.Lib.Number
import Cantrip.Lib.Post
import Mathlib.Logic.Function.Basic

/-!
# Cron patterns (`project_automations/cron.rs`)

The five-part grammar: an expression is split into its parts, and every part sets bits in the mask of its field. The
text is kept in code units, as every character the grammar knows is one unit. A pattern that was accepted allows some
month (`parse_months`); the other masks may stay empty only where a modifier takes their place.
-/

namespace Cantrip.Cron

open Lib

inductive Field
  | second
  | minute
  | hour
  | day
  | month
  | dayOfWeek
  | year
  | nearestWeekdays
  deriving DecidableEq, Repr

def LENGTHS : Field → Nat
  | .second => 60
  | .minute => 60
  | .hour => 24
  | .day => 31
  | .month => 12
  | .dayOfWeek => 7
  | .year => 10000
  | .nearestWeekdays => 31

structure Pattern where
  mask : Field → List Nat
  sized : ∀ field, (mask field).length = LENGTHS field
  last : Bool
  lastWeekday : Bool
  starDom : Bool
  starDow : Bool
  and : Bool

/-- A diagnostic, by what its text is made of. -/
inductive CronError
  | reboot
  | format (value : Utf16)
  | mode (value : Utf16) (parts : Nat)
  | emptyAfterPlus
  | illegalCharacters (entry : Nat) (part : Utf16)
  | emptyEntry (field : Field) (input : Utf16)
  | invalidValue (field : Field) (value : Double)
  | nthOutOfRange (nth : Utf16)
  | nthOnlyDayOfWeek
  | lastOnlyDayOfWeek
  | fromLarger (input : Utf16)
  | steppingZero
  | stepTooLarge (field : Field)
  | weekdayNotAllowed (range stepping : Bool)
  | illegalRangeStepping (input : Utf16)
  | illegalRange (input : Utf16)
  | lowerNaN
  | upperNaN
  | illegalStepping (input : Utf16)
  | steppingPrefix (missing : Bool) (input : Utf16)
  | steppingNaN
  | nearestOnlyDay
  | notNumber (field : Field) (input : Utf16)
  deriving DecidableEq, Repr

/-! ## Texts -/

def units (text : String) : Utf16 := text.toList.map fun c => UInt16.ofNat c.toNat

def lowerAscii (u : UInt16) : UInt16 := if 0x41 ≤ u ∧ u ≤ 0x5a then u + 0x20 else u

def lowercase (text : Utf16) : Utf16 := text.map lowerAscii

/-- `replace_ci`, after so many units of the last match are skipped. -/
def replaceFrom (source target : Utf16) : Nat → Utf16 → Utf16
  | _, [] => []
  | skip + 1, _ :: rest => replaceFrom source target skip rest
  | 0, u :: rest =>
    if source.isPrefixOf (lowercase (u :: rest)) then target ++ replaceFrom source target (source.length - 1) rest
    else u :: replaceFrom source target 0 rest

def replaceCi (value : Utf16) (source target : String) : Utf16 := replaceFrom (units source) (units target) 0 value

def COMMA : UInt16 := 0x2c
def MINUS : UInt16 := 0x2d
def SLASH : UInt16 := 0x2f
def HASH : UInt16 := 0x23
def STAR : UInt16 := 0x2a
def PLUS : UInt16 := 0x2b
def QUESTION : UInt16 := 0x3f

def isL (u : UInt16) : Bool := u = 0x4c ∨ u = 0x6c

def isW (u : UInt16) : Bool := u = 0x57 ∨ u = 0x77

/-! ## Numbers -/

/-- The double nearest to an integer. -/
def rounded (n : Int) : Double := if n.natAbs < 2 ^ 53 then .int n else readFloat64 (float64Bits (.int n))

namespace Double

/-- `a < b`. The only other double that a number of the grammar can be is the infinity. -/
def lt : Double → Double → Bool
  | .int a, .int b => a < b
  | .int _, .other => true
  | _, _ => false

def le : Double → Double → Bool
  | .int a, .int b => a ≤ b
  | .int _, .other => true
  | .other, .other => true
  | _, _ => false

def add : Double → Double → Double
  | .int a, .int b => rounded (a + b)
  | .nan, _ => .nan
  | _, .nan => .nan
  | _, _ => .other

end Double

/-- The leading digits of a text. -/
def integer (value : Utf16) : Double :=
  let digits := value.takeWhile isDigit
  if digits = [] then .nan else rounded (digitsValue digits)

/-! ## Parts -/

namespace Pattern

def modify (p : Pattern) (field : Field) (f : List Nat → List Nat) (hf : ∀ l, (f l).length = l.length) : Pattern :=
  { p with
    mask := Function.update p.mask field (f (p.mask field))
    sized := by
      intro g
      by_cases h : g = field
      · rw [h, Function.update_self, hf, p.sized]
      · rw [Function.update_of_ne h, p.sized] }

def setBits (p : Pattern) (field : Field) (index : Nat) (f : Nat → Nat) : Pattern :=
  p.modify field (fun l => l.modify index f) (fun _ => List.length_modify ..)

def fill (p : Pattern) (field : Field) (bits : Nat) : Pattern :=
  p.modify field (fun l => l.map fun _ => bits) (fun _ => List.length_map _)

/-- What a weekday with an `nth` sets: all its occurrences in a month, the last one or a numbered one. -/
def nthBits (nth : Option Utf16) : Except CronError (Nat → Nat) :=
  match nth.filter (· ≠ []) with
  | none => .ok fun _ => 63
  | some nth =>
    if lowercase nth = units "l" then .ok (· ||| 32)
    else
      match toNumber nth with
      | .finite number =>
        if 0 < number ∧ number < 6 then .ok (· ||| 1 <<< (number.floor.toNat - 1)) else .error (.nthOutOfRange nth)
      | _ => .error (.nthOutOfRange nth)

/-- `set`, once Sunday is 0. -/
def setValue (p : Pattern) (field : Field) (value : Double) (nth : Option Utf16) : Except CronError Pattern :=
  if Double.lt value (.int (if field = .year then 1 else 0)) ∨ Double.le (.int (LENGTHS field)) value then
    .error (.invalidValue field value)
  else if field = .dayOfWeek then do
    let bits ← nthBits nth
    pure (p.setBits field value.toNat bits)
  else pure (p.setBits field value.toNat fun _ => 1)

def set (p : Pattern) (field : Field) (value : Double) (nth : Option Utf16) : Except CronError Pattern :=
  p.setValue field (if field = .dayOfWeek ∧ value = .int 7 then .int 0 else value) nth

end Pattern

/-- A text without its modifier, and what the modifier says. -/
def nth (value : Utf16) (field : Field) : Except CronError (Utf16 × Option Utf16) :=
  if HASH ∈ value then
    if field ≠ .dayOfWeek then .error .nthOnlyDayOfWeek
    else
      let parts := value.splitOn HASH
      .ok (parts.headD [], parts.tail.head?)
  else if value.getLast?.any isL then
    if field ≠ .dayOfWeek then .error .lastOnlyDayOfWeek else .ok (value.dropLast, some (units "L"))
  else .ok (value, none)

def range (low high : Double) (step : Option Double) (field : Field) (input : Utf16) : Except CronError Unit :=
  if Double.lt high low then .error (.fromLarger input)
  else
    match step with
    | none => .ok ()
    | some step =>
      if step = .int 0 then .error .steppingZero
      else if Double.lt (.int (LENGTHS field)) step then .error (.stepTooLarge field)
      else .ok ()

/-- The loop of a range. A value past the mask is refused, so that the turns are enough (`setRange_enough`). -/
def setRange (field : Field) (high step : Double) (nth : Option Utf16) : Nat → Double → Pattern → Except CronError Pattern
  | 0, _, p => .ok p
  | left + 1, value, p =>
    if Double.le value high then do
      let p ← p.set field value nth
      setRange field high step nth left (Double.add value step) p
    else .ok p

def offset (field : Field) : Double := if field = .day ∨ field = .month then .int (-1) else .int 0

def bounds (field : Field) (input value : Utf16) : Except CronError (Double × Double × Option Double) :=
  if MINUS ∈ input ∧ SLASH ∈ input then
    match value.splitOnP (fun u => u = MINUS ∨ u = SLASH) with
    | [low, high, step] =>
      if [low, high, step].any (fun s => s = [] ∨ ¬s.all isDigit) then .error (.illegalRangeStepping input)
      else .ok (Double.add (integer low) (offset field), Double.add (integer high) (offset field), some (integer step))
    | _ => .error (.illegalRangeStepping input)
  else if MINUS ∈ input then
    match value.splitOn MINUS with
    | [low, high] =>
      let low := Double.add (integer low) (offset field)
      let high := Double.add (integer high) (offset field)
      if low = .nan then .error .lowerNaN else if high = .nan then .error .upperNaN else .ok (low, high, none)
    | _ => .error (.illegalRange input)
  else
    match value.splitOn SLASH with
    | [star, step] =>
      if star ≠ [STAR] then .error (.steppingPrefix (star = []) input)
      else if integer step = .nan then .error .steppingNaN
      else .ok (.int 0, .int (LENGTHS field - 1), some (integer step))
    | _ => .error (.illegalStepping input)

/-- A part without a comma. -/
def piece (field : Field) (p : Pattern) (input : Utf16) : Except CronError Pattern :=
  if input = [] ∧ ¬(field = .day ∧ (p.last ∨ p.lastWeekday)) then .error (.emptyEntry field input)
  else if input = [STAR] then .ok (p.fill field (if field = .dayOfWeek then 63 else 1))
  else if MINUS ∈ input ∨ SLASH ∈ input then
    if input.any isW then .error (.weekdayNotAllowed (MINUS ∈ input) (SLASH ∈ input))
    else do
      let (value, nth) ← nth input field
      let (low, high, step) ← bounds field input value
      range low high step field input
      setRange field high (step.getD (.int 1)) nth (LENGTHS field + 2) low p
  else if input ≠ [] then do
    let (value, nth) ← nth input field
    let nearest := input.any isW
    if nearest ∧ field ≠ .day then .error .nearestOnlyDay
    else
      let value := Double.add (integer value) (offset field)
      let field := if nearest then .nearestWeekdays else field
      if value = .nan then .error (.notNumber field input) else p.set field value nth
  else .ok p

def part (field : Field) (p : Pattern) (input : Utf16) : Except CronError Pattern :=
  if COMMA ∈ input then (input.splitOn COMMA).foldlM (piece field) p else piece field p input

/-! ## The parser -/

def nickname (value : Utf16) : Except CronError Utf16 :=
  let name := lowercase (trim value)
  if name = units "@yearly" ∨ name = units "@annually" then .ok (units "0 0 1 1 *")
  else if name = units "@monthly" then .ok (units "0 0 1 * *")
  else if name = units "@weekly" then .ok (units "0 0 * * 0")
  else if name = units "@daily" ∨ name = units "@midnight" then .ok (units "0 0 * * *")
  else if name = units "@hourly" then .ok (units "0 * * * *")
  else if name = units "@reboot" then .error .reboot
  else .ok value

def MONTHS : List (String × String) :=
  [("jan", "1"), ("feb", "2"), ("mar", "3"), ("apr", "4"), ("may", "5"), ("jun", "6"), ("jul", "7"), ("aug", "8"),
    ("sep", "9"), ("oct", "10"), ("nov", "11"), ("dec", "12")]

def WEEKDAYS : List (String × String) :=
  [("-sun", "-7"), ("sun", "0"), ("mon", "1"), ("tue", "2"), ("wed", "3"), ("thu", "4"), ("fri", "5"), ("sat", "6")]

def numbered (names : List (String × String)) (part : Utf16) : Utf16 :=
  names.foldl (fun part name => replaceCi part name.1 name.2) part

def legal (field : Field) (u : UInt16) : Bool :=
  isDigit u ∨ u = SLASH ∨ u = STAR ∨ u = COMMA ∨ u = MINUS ∨ field = .day ∧ (isW u ∨ isL u) ∨
    field = .dayOfWeek ∧ (u = HASH ∨ isL u)

def legalParts : Nat → List (Field × Utf16) → Except CronError Unit
  | _, [] => .ok ()
  | entry, (field, part) :: rest =>
    if part.all (legal field) then legalParts (entry + 1) rest else .error (.illegalCharacters entry part)

def empty (last lastWeekday starDom starDow and : Bool) : Pattern where
  mask field := List.replicate (LENGTHS field) 0
  sized _ := List.length_replicate
  last := last
  lastWeekday := lastWeekday
  starDom := starDom
  starDow := starDow
  and := and

/-- Whether the weekdays are added to the days with a `+`, and the rest. -/
def splitPlus (dayOfWeek : Utf16) : Except CronError (Bool × Utf16) :=
  if dayOfWeek.head? = some PLUS then
    if dayOfWeek.tail = [] then .error .emptyAfterPlus else .ok (true, dayOfWeek.tail)
  else .ok (false, dayOfWeek)

def wildcards (part : Utf16) : Utf16 := part.map fun u => if u = QUESTION then STAR else u

def readParts (parts : List (Field × Utf16)) (p : Pattern) : Except CronError Pattern := do
  legalParts 0 parts
  parts.foldlM (fun p (field, input) => part field p input) p

def parseParts (minute hour day month dayOfWeek : Utf16) : Except CronError Pattern := do
  let lastWeekday := lowercase day = units "lw"
  let last := ¬lastWeekday ∧ day.any isL
  let day := if lastWeekday then [] else day.filter (fun u => ¬isL u)
  let (and, dayOfWeek) ← splitPlus (numbered WEEKDAYS dayOfWeek)
  readParts
    [(.second, wildcards (units "0")), (.minute, wildcards minute), (.hour, wildcards hour), (.day, wildcards day),
      (.month, wildcards (numbered MONTHS month)), (.dayOfWeek, wildcards dayOfWeek), (.year, wildcards (units "*"))]
    (empty last lastWeekday (day = [STAR]) (dayOfWeek = [STAR]) and)

def parse (input : Utf16) : Except CronError Pattern := do
  let value ← nickname input
  match (value.splitOnP isSpace).filter (· ≠ []) with
  | [minute, hour, day, month, dayOfWeek] => parseParts minute hour day month dayOfWeek
  | parts => if parts.length = 6 ∨ parts.length = 7 then .error (.mode value parts.length) else .error (.format value)

/-! ## What an accepted part sets -/

def Pattern.Marked (p : Pattern) (field : Field) : Prop := ∃ bits ∈ p.mask field, bits ≠ 0

theorem modify_self (p : Pattern) (field : Field) (f : List Nat → List Nat) (hf : ∀ l, (f l).length = l.length) :
    (p.modify field f hf).mask field = f (p.mask field) :=
  Function.update_self ..

variable {high value : Double} {field : Field} {nth : Option Utf16} {p p' : Pattern} {input : Utf16}

theorem modify_of_ne (p : Pattern) {g : Field} (f : List Nat → List Nat) (hf : ∀ l, (f l).length = l.length)
    (h : g ≠ field) : (p.modify field f hf).mask g = p.mask g :=
  Function.update_of_ne h ..

/-- A part of a field sets a bit of the field's mask and leaves the other masks alone. -/
structure Marks (field : Field) (p p' : Pattern) : Prop where
  marked : p'.Marked field
  others : ∀ g, g ≠ field → p'.mask g = p.mask g

theorem Marks.trans {p'' : Pattern} (h : Marks field p p') (h' : Marks field p' p'') : Marks field p p'' :=
  ⟨h'.marked, fun g hg => (h'.others g hg).trans (h.others g hg)⟩

theorem setBits_marks (p : Pattern) {index : Nat} {f : Nat → Nat} (hindex : index < LENGTHS field)
    (hf : ∀ bits, f bits ≠ 0) : Marks field p (p.setBits field index f) := by
  have hlt : index < (p.mask field).length := by
    rw [p.sized]
    exact hindex
  refine ⟨⟨f (p.mask field)[index], ?_, hf _⟩, fun g hg => modify_of_ne p _ _ hg⟩
  unfold Pattern.setBits
  rw [modify_self]
  apply List.mem_iff_getElem.mpr
  refine ⟨index, ?_, ?_⟩
  · rw [List.length_modify]
    exact hlt
  · rw [List.getElem_modify_eq]

theorem fill_marks (p : Pattern) (field : Field) {bits : Nat} (hbits : bits ≠ 0) : Marks field p (p.fill field bits) := by
  refine ⟨⟨bits, ?_, hbits⟩, fun g hg => modify_of_ne p _ _ hg⟩
  unfold Pattern.fill
  rw [modify_self]
  have hpos : 0 < (p.mask field).length := by
    rw [p.sized]
    cases field <;> decide
  obtain ⟨first, hfirst⟩ := List.exists_mem_of_length_pos hpos
  exact List.mem_map.mpr ⟨first, hfirst, rfl⟩

theorem nthBits_ne_zero {f : Nat → Nat} (h : Pattern.nthBits nth = .ok f) (bits : Nat) : f bits ≠ 0 := by
  unfold Pattern.nthBits at h
  split at h
  · cases h
    exact Nat.succ_ne_zero 62
  · split at h
    · cases h
      exact fun hzero => absurd (Nat.or_eq_zero_iff.mp hzero).2 (by decide)
    · split at h
      · split at h
        · cases h
          intro hzero
          have hone := (Nat.or_eq_zero_iff.mp hzero).2
          rw [Nat.shiftLeft_eq, Nat.one_mul] at hone
          exact absurd hone (Nat.two_pow_pos _).ne'
        · cases h
      · cases h

theorem index_lt (hlow : ¬Double.lt value (.int (if field = .year then 1 else 0)) = true)
    (hhigh : ¬Double.le (.int (LENGTHS field)) value = true) : value.toNat < LENGTHS field := by
  have hpos : 0 < LENGTHS field := by cases field <;> decide
  cases value with
  | int n =>
    simp only [Double.le, decide_eq_true_eq, Int.not_le] at hhigh
    change n.toNat < _
    omega
  | nan => exact hpos
  | other => exact absurd rfl hhigh

theorem setValue_marks (h : p.setValue field value nth = .ok p') : Marks field p p' := by
  unfold Pattern.setValue at h
  by_cases hrange : Double.lt value (.int (if field = .year then 1 else 0)) = true ∨ Double.le (.int (LENGTHS field)) value = true
  · rw [if_pos hrange] at h
    cases h
  · rw [if_neg hrange] at h
    obtain ⟨hlow, hhigh⟩ := not_or.mp hrange
    have hindex := index_lt hlow hhigh
    split at h
    · obtain ⟨bits, hbits, hp⟩ := bind_eq_ok.mp h
      cases hp
      exact setBits_marks p hindex (nthBits_ne_zero hbits)
    · cases h
      exact setBits_marks p hindex (fun _ => Nat.one_ne_zero)

theorem set_marks (h : p.set field value nth = .ok p') : Marks field p p' :=
  setValue_marks h

theorem setRange_keeps {step : Double} (left : Nat) :
    ∀ {value : Double} {p p' : Pattern}, setRange field high step nth left value p = .ok p' → p' = p ∨ Marks field p p' := by
  induction left with
  | zero =>
    intro value p p' h
    cases h
    exact .inl rfl
  | succ left ih =>
    intro value p p' h
    rw [setRange] at h
    split at h
    · obtain ⟨next, hset, hrest⟩ := bind_eq_ok.mp h
      have hmarks := set_marks hset
      obtain heq | hmore := ih hrest
      · rw [heq]
        exact .inr hmarks
      · exact .inr (hmarks.trans hmore)
    · cases h
      exact .inl rfl

theorem setRange_marks {step : Double} {left : Nat}
    (hle : Double.le value high = true) (h : setRange field high step nth (left + 1) value p = .ok p') : Marks field p p' := by
  rw [setRange, if_pos hle] at h
  obtain ⟨next, hset, hrest⟩ := bind_eq_ok.mp h
  have hmarks := set_marks hset
  obtain heq | hmore := setRange_keeps left hrest
  · rw [heq]
    exact hmarks
  · exact hmarks.trans hmore

/-! ## The bounds of a range -/

theorem rounded_ne_nan (n : Int) : rounded n ≠ .nan := by
  unfold rounded
  split
  · exact Double.noConfusion
  · next hlarge =>
    have hbits : ∃ m sign, float64Bits (.int n) = sign * 2 ^ 63 + m ∧ m ≤ 2047 * 2 ^ 52 := by
      have hlog : 53 ≤ Nat.log 2 n.natAbs := Nat.le_log_of_pow_le (by omega) (by omega)
      have hm : magnitudeBits n.natAbs ≤ 2047 * 2 ^ 52 := by
        unfold magnitudeBits
        rw [if_neg (by omega), if_neg (by omega)]
        exact Nat.min_le_right _ _
      refine ⟨magnitudeBits n.natAbs, if n < 0 then 1 else 0, ?_, hm⟩
      rw [float64Bits]
      split <;> omega
    obtain ⟨m, sign, hsum, hm⟩ := hbits
    intro hnan
    rw [readFloat64, hsum] at hnan
    by_cases hexp : (sign * 2 ^ 63 + m) / 2 ^ 52 % 2048 = 2047
    · have hzero : (sign * 2 ^ 63 + m) % 2 ^ 52 = 0 := by omega
      rw [if_pos hexp, if_pos hzero] at hnan
      cases hnan
    · rw [if_neg hexp] at hnan
      split at hnan
      · cases hnan
      · cases hnan

theorem integer_ne_nan {value : Utf16} (hne : value ≠ []) (hdigits : value.all isDigit = true) : integer value ≠ .nan := by
  have htake : value.takeWhile isDigit = value := List.takeWhile_eq_self_iff.mpr (List.all_eq_true.mp hdigits)
  unfold integer
  rw [htake, if_neg hne]
  exact rounded_ne_nan _

theorem add_offset_ne_nan {x : Double} (hx : x ≠ .nan) (field : Field) : Double.add x (offset field) ≠ .nan := by
  obtain ⟨c, hc⟩ : ∃ c, offset field = .int c := by
    unfold offset
    split
    · exact ⟨_, rfl⟩
    · exact ⟨_, rfl⟩
  rw [hc]
  cases x with
  | int n => exact rounded_ne_nan _
  | nan => exact absurd rfl hx
  | other => exact Double.noConfusion

theorem le_of_not_lt {low : Double} (hlow : low ≠ .nan) (hhigh : high ≠ .nan) (h : ¬Double.lt high low = true) :
    Double.le low high = true := by
  cases low with
  | int a =>
    cases high with
    | int b =>
      simp only [Double.lt, decide_eq_true_eq, Int.not_lt] at h
      exact decide_eq_true h
    | nan => exact absurd rfl hhigh
    | other => rfl
  | nan => exact absurd rfl hlow
  | other =>
    cases high with
    | int b => exact absurd rfl h
    | nan => exact absurd rfl hhigh
    | other => rfl

theorem bounds_ne_nan {value : Utf16} {low : Double} {step : Option Double}
    (h : bounds field input value = .ok (low, high, step)) : low ≠ .nan ∧ high ≠ .nan := by
  unfold bounds at h
  split at h
  · split at h
    · next l u st heq =>
      split at h
      · cases h
      · next hdigits =>
        have hall : ∀ text ∈ [l, u, st], integer text ≠ .nan := by
          intro text htext
          have hgood : ¬(text = [] ∨ ¬text.all isDigit = true) :=
            fun hbad => hdigits (List.any_eq_true.mpr ⟨text, htext, decide_eq_true hbad⟩)
          rw [not_or, not_not] at hgood
          exact integer_ne_nan hgood.1 hgood.2
        cases h
        exact ⟨add_offset_ne_nan (hall l (by simp)) field, add_offset_ne_nan (hall u (by simp)) field⟩
    · cases h
  · split at h
    · split at h
      · dsimp only at h
        split at h
        · cases h
        · split at h
          · cases h
          · next hlow hhigh =>
            cases h
            exact ⟨hlow, hhigh⟩
      · cases h
    · split at h
      · split at h
        · cases h
        · split at h
          · cases h
          · cases h
            exact ⟨Double.noConfusion, Double.noConfusion⟩
      · cases h

/-! ## Accepted patterns -/

theorem piece_marks (hfield : field ≠ .day) (h : piece field p input = .ok p') : Marks field p p' := by
  unfold piece at h
  split at h
  · cases h
  · next hentry =>
    split at h
    · cases h
      apply fill_marks
      split <;> decide
    · split at h
      · split at h
        · cases h
        · obtain ⟨⟨value, nth⟩, -, h⟩ := bind_eq_ok.mp h
          obtain ⟨⟨low, high, step⟩, hbounds, h⟩ := bind_eq_ok.mp h
          obtain ⟨_, hrange, h⟩ := bind_eq_ok.mp h
          have hnan := bounds_ne_nan hbounds
          have hordered : ¬Double.lt high low = true := by
            intro hlt
            unfold range at hrange
            rw [if_pos hlt] at hrange
            cases hrange
          exact setRange_marks (le_of_not_lt hnan.1 hnan.2 hordered) h
      · split at h
        · obtain ⟨⟨value, nth⟩, -, h⟩ := bind_eq_ok.mp h
          dsimp only at h
          split at h
          · cases h
          · next hnearest =>
            have hplain : ¬input.any isW = true := fun hw => hnearest ⟨hw, hfield⟩
            simp only [if_neg hplain] at h
            split at h
            · cases h
            · exact set_marks h
        · next hempty =>
          rw [not_not] at hempty
          exact absurd ⟨hempty, fun hday => hfield hday.1⟩ hentry

theorem pieces_marks (hfield : field ≠ .day) (inputs : List Utf16) :
    ∀ {p p' : Pattern}, inputs.foldlM (piece field) p = .ok p' → inputs = [] ∧ p' = p ∨ Marks field p p' := by
  induction inputs with
  | nil =>
    intro p p' h
    cases h
    exact .inl ⟨rfl, rfl⟩
  | cons input inputs ih =>
    intro p p' h
    rw [List.foldlM_cons] at h
    obtain ⟨next, hpiece, hrest⟩ := bind_eq_ok.mp h
    have hmarks := piece_marks hfield hpiece
    obtain ⟨-, heq⟩ | hmore := ih hrest
    · rw [heq]
      exact .inr hmarks
    · exact .inr (hmarks.trans hmore)

theorem part_marks (hfield : field ≠ .day) (h : part field p input = .ok p') : Marks field p p' := by
  unfold part at h
  split at h
  · obtain ⟨hnil, -⟩ | hmarks := pieces_marks hfield _ h
    · exact absurd hnil (List.splitOn_ne_nil _ _)
    · exact hmarks
  · exact piece_marks hfield h

theorem readParts_months {second minute hour day month dayOfWeek year : Utf16}
    (h : readParts [(.second, second), (.minute, minute), (.hour, hour), (.day, day), (.month, month),
      (.dayOfWeek, dayOfWeek), (.year, year)] p = .ok p') : p'.Marked .month := by
  obtain ⟨_, -, h⟩ := bind_eq_ok.mp h
  simp only [List.foldlM_cons, List.foldlM_nil] at h
  obtain ⟨p1, -, h⟩ := bind_eq_ok.mp h
  obtain ⟨p2, -, h⟩ := bind_eq_ok.mp h
  obtain ⟨p3, -, h⟩ := bind_eq_ok.mp h
  obtain ⟨p4, -, h⟩ := bind_eq_ok.mp h
  obtain ⟨p5, hmonth, h⟩ := bind_eq_ok.mp h
  obtain ⟨p6, hdays, h⟩ := bind_eq_ok.mp h
  obtain ⟨p7, hyear, h⟩ := bind_eq_ok.mp h
  cases h
  obtain ⟨bits, hbits, hne⟩ := (part_marks (by decide) hmonth).marked
  refine ⟨bits, ?_, hne⟩
  rw [(part_marks (by decide) hyear).others .month (by decide), (part_marks (by decide) hdays).others .month (by decide)]
  exact hbits

theorem parse_months (h : parse input = .ok p) : p.Marked .month := by
  unfold parse at h
  obtain ⟨value, -, h⟩ := bind_eq_ok.mp h
  split at h
  · obtain ⟨⟨and, rest⟩, -, h⟩ := bind_eq_ok.mp h
    exact readParts_months h
  · split at h
    · cases h
    · cases h

theorem set_large (p : Pattern) {n : Int} (nth : Option Utf16) (h : (LENGTHS field : Int) < n) :
    p.set field (.int n) nth = .error (.invalidValue field (.int n)) := by
  have hkept : ¬(field = .dayOfWeek ∧ Double.int n = .int 7) := by
    rintro ⟨rfl, hseven⟩
    cases hseven
    exact absurd h (by decide)
  unfold Pattern.set Pattern.setValue
  rw [if_neg hkept, if_pos (.inr (decide_eq_true (le_of_lt h)))]

theorem setRange_enough {k : Int} (hk : 1 ≤ k) (hk' : k ≤ 10000) (left : Nat) :
    ∀ {n : Int} {p : Pattern}, 0 ≤ n → LENGTHS field + 1 ≤ left + n →
      setRange field high (.int k) nth (left + 2) (.int n) p = setRange field high (.int k) nth (left + 1) (.int n) p := by
  induction left with
  | zero =>
    intro n p hn hleft
    rw [setRange, setRange, set_large p nth (by omega)]
    rfl
  | succ left ih =>
    intro n p hn hleft
    rw [setRange, setRange]
    by_cases hle : Double.le (.int n) high = true
    · rw [if_pos hle, if_pos hle]
      by_cases hlarge : (LENGTHS field : Int) < n
      · rw [set_large p nth hlarge]
        rfl
      · have hbound : LENGTHS field ≤ 10000 := by cases field <;> decide
        have hadd : Double.add (.int n) (.int k) = .int (n + k) := if_pos (by omega)
        rw [hadd]
        congr 1
        funext p'
        exact ih (by omega) (by omega)
    · rw [if_neg hle, if_neg hle]

end Cantrip.Cron
