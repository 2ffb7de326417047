import Cantrip.Cron.Civil
import Mathlib.Data.Int.ConditionallyCompleteOrder
import Mathlib.Order.Bounds.Basic
import Mathlib.Order.Monotone.Basic

/-!
# Interval schedules (`project_automations/schedule.rs`)

Occurrence `k` of an interval schedule is `k * every` units after its start; a month or a year keeps the start's day,
or the last one of a shorter month. `interval` guesses the number of the next occurrence from the time gone by and
then tries four occurrences in a row. The guess is never past the least occurrence after the instant, and at most one
before it (`guess_first`, `guess_second`), so two tries are enough.
-/

namespace Cantrip.Cron

open Lib Option

inductive IntervalUnit
  | minute
  | hour
  | day
  | week
  | month
  | year
  deriving DecidableEq, Repr

/-- A schedule that has passed its contract: `start` is the instant that `startsAt` reads as. -/
structure Schedule where
  start : Option Int
  every : Int
  unit : IntervalUnit
  deriving DecidableEq, Repr

def IntervalUnit.fixed : IntervalUnit → Option Int
  | .minute => some 60000
  | .hour => some 3600000
  | .day => some DAY
  | .week => some (7 * DAY)
  | .month | .year => none

def clipped (value : Int) : Option Int := if value.natAbs ≤ timeClip then some value else none

def addCalendar (start count : Int) (yearUnit : Bool) : Option Int := do
  let (year, month, day) ← dateUtcFields start
  let targetMonth := month - 1 + count * if yearUnit then 12 else 1
  let targetYear := year + targetMonth / 12
  let normalizedMonth := targetMonth % 12
  if targetYear > 275000 then none
  else
    let lastDay ← dateUtcMilliseconds targetYear (normalizedMonth + 1) 0
    let (_, _, lastDay) ← dateUtcFields lastDay
    let midnight ← dateUtcMilliseconds targetYear normalizedMonth (min day lastDay)
    clipped (midnight + start % DAY)

/-- The retries of `interval`: so many occurrences from this one on. -/
def tries (start every : Int) (yearUnit : Bool) (after : Int) : Nat → Int → Option Int
  | 0, _ => none
  | left + 1, occurrence =>
    match addCalendar start (occurrence * every) yearUnit with
    | none => none
    | some candidate => if candidate > after then some candidate else tries start every yearUnit after left (occurrence + 1)

/-- `next` of an interval schedule. -/
def interval (s : Schedule) (after : Int) : Option Int := do
  let start ← s.start
  if after < start then some start
  else
    match s.unit.fixed with
    | some fixed =>
      let interval := fixed * s.every
      let occurrence := max ((after - start).tdiv interval + 1) 1
      clipped (start + occurrence * interval)
    | none =>
      let yearUnit := s.unit = .year
      let (startYear, startMonth, _) ← dateUtcFields start
      let (afterYear, afterMonth, _) ← dateUtcFields after
      let rough := if yearUnit then afterYear - startYear else (afterYear - startYear) * 12 + afterMonth - startMonth
      tries start s.every yearUnit after 4 (max (rough / s.every) 1)

def first (s : Schedule) (now : Int) : Option Int :=
  match s.start.filter (· ≥ now) with
  | some start => some start
  | none => interval s now

/-- What `first` and then so many calls of `next`, each after the instant before it, return. -/
def upcoming (s : Schedule) (now : Int) : Nat → Option Int
  | 0 => first s now
  | n + 1 => upcoming s now n >>= interval s

/-! ## Occurrences -/

structure Anchor (start : Int) where
  month : Int
  day : Int
  date : IsDate month day
  same : dayNumber month day = start / DAY

def Anchor.dayIn {start : Int} (c : Anchor start) (month : Int) : Int := min c.day (monthLength month)

def Anchor.at {start : Int} (c : Anchor start) (month : Int) : Int :=
  dayNumber month (c.dayIn month) * DAY + start % DAY

def Anchor.target {start : Int} (c : Anchor start) (yearUnit : Bool) (count : Int) : Int :=
  c.month + count * if yearUnit then 12 else 1

def occurrence {start : Int} (c : Anchor start) (every : Int) (unit : IntervalUnit) (k : Nat) : Int :=
  match unit.fixed with
  | some fixed => start + k * (fixed * every)
  | none => c.at (c.target (unit = .year) (k * every))

/-- The years after 275000 are not computed, and no date is past the limit of the dates. -/
def Reaches {start : Int} (c : Anchor start) (every : Int) (unit : IntervalUnit) (k : Nat) : Prop :=
  k = 0 ∨ (occurrence c every unit k).natAbs ≤ timeClip ∧
    (unit.fixed = none → c.target (unit = .year) (k * every) / 12 ≤ 275000)

instance {start : Int} (c : Anchor start) (every : Int) (unit : IntervalUnit) (k : Nat) :
    Decidable (Reaches c every unit k) :=
  inferInstanceAs (Decidable (_ ∨ _))

/-! ## The calendar step -/

theorem dayIn_isDate {start : Int} (c : Anchor start) (month : Int) : IsDate month (c.dayIn month) := by
  have hlen := monthLength_le month
  obtain ⟨hd, -⟩ := c.date
  unfold Anchor.dayIn
  refine ⟨?_, ?_⟩
  · omega
  · omega

theorem dateUtcFields_eq {value month day : Int} (h : value.natAbs ≤ timeClip) (hdate : IsDate month day)
    (hday : dayNumber month day = value / DAY) : dateUtcFields value = some (month / 12, month % 12 + 1, day) := by
  obtain ⟨y, m, d, hfields, hm, hm', hdate', hday'⟩ := dateUtcFields_spec h
  obtain ⟨hn, hd⟩ := date_unique hdate hdate' (hday.trans hday'.symm)
  have hy : y = month / 12 := by omega
  have hmod : m = month % 12 + 1 := by omega
  rw [hfields, hy, hmod, hd]

theorem dateUtcMilliseconds_full {year : Int} (month day : Int) (hyear : 100 ≤ year) :
    dateUtcMilliseconds year month day = clipped (dayNumber (12 * year + month) day * DAY) := by
  have hfull : fullYear year = year := if_neg (by omega)
  rw [dateUtcMilliseconds_eq, hfull, clipped]

theorem within_limit {month day time : Int} (hdate : IsDate month day) (hlo : 1200 ≤ month) (hhi : month / 12 ≤ 275000)
    (htime : 0 ≤ time) (htime' : time < DAY) : (dayNumber month day * DAY + time).natAbs ≤ timeClip := by
  have hfirst : monthStart 1200 = -683003 := by decide
  have hlast : monthStart (12 * 275001) = 99722525 := by decide
  have hafter : monthStart 1200 ≤ monthStart month := by
    obtain heq | hlt := Int.le_iff_eq_or_lt.mp hlo
    · rw [heq]
    · have := monthStart_mono hlt
      have := monthLength_le 1200
      omega
  have hbefore := monthStart_mono (show month < 12 * 275001 by omega)
  obtain ⟨hd, hd'⟩ := hdate
  unfold dayNumber timeClip DAY at *
  omega

theorem dayNumber_zero (month : Int) : dayNumber (month + 1) 0 = dayNumber month (monthLength month) := by
  unfold dayNumber
  rw [monthStart_succ]
  omega

variable {yearUnit : Bool} {after fixed : Int} {k : Nat} {s : Schedule}

theorem addCalendar_spec {start : Int} (c : Anchor start) (hstart : start.natAbs ≤ timeClip) {count : Int}
    (hlo : 1200 ≤ c.target yearUnit count) :
    addCalendar start count yearUnit =
      if c.target yearUnit count / 12 > 275000 then none else some (c.at (c.target yearUnit count)) := by
  obtain ⟨n, hn⟩ : ∃ n, n = c.target yearUnit count := ⟨_, rfl⟩
  have htarget : n = c.month + count * if yearUnit then 12 else 1 := hn
  have hyear : c.month / 12 + (c.month % 12 + 1 - 1 + count * if yearUnit then 12 else 1) / 12 = n / 12 := by omega
  have hmonth : (c.month % 12 + 1 - 1 + count * if yearUnit then 12 else 1) % 12 = n % 12 := by omega
  rw [← hn] at hlo ⊢
  unfold addCalendar
  simp only [dateUtcFields_eq hstart c.date c.same, bind_eq_bind, bind_some, hyear, hmonth]
  by_cases hlate : n / 12 > 275000
  · rw [if_pos hlate, if_pos hlate]
  · rw [if_neg hlate, if_neg hlate]
    have hwithin : ∀ day time, IsDate n day → 0 ≤ time → time < DAY → (dayNumber n day * DAY + time).natAbs ≤ timeClip :=
      fun day time hdate => within_limit hdate hlo (by omega)
    have hlen := monthLength_le n
    have hlastDate : IsDate n (monthLength n) := ⟨by omega, le_refl _⟩
    have hlastMs : dateUtcMilliseconds (n / 12) (n % 12 + 1) 0 = some (dayNumber n (monthLength n) * DAY) := by
      have hclip := hwithin _ 0 hlastDate (by omega) (by decide)
      rw [Int.add_zero] at hclip
      have hnext : 12 * (n / 12) + (n % 12 + 1) = n + 1 := by omega
      rw [dateUtcMilliseconds_full _ _ (by omega), hnext, dayNumber_zero, clipped, if_pos hclip]
    have hlastDay : dateUtcFields (dayNumber n (monthLength n) * DAY) = some (n / 12, n % 12 + 1, monthLength n) := by
      have hclip := hwithin _ 0 hlastDate (by omega) (by decide)
      rw [Int.add_zero] at hclip
      apply dateUtcFields_eq hclip hlastDate
      unfold DAY
      omega
    have hmidnight : dateUtcMilliseconds (n / 12) (n % 12) (min c.day (monthLength n)) =
        some (dayNumber n (c.dayIn n) * DAY) := by
      have hclip := hwithin _ 0 (dayIn_isDate c n) (by omega) (by decide)
      rw [Int.add_zero] at hclip
      have hsame : 12 * (n / 12) + n % 12 = n := by omega
      rw [dateUtcMilliseconds_full _ _ (by omega), hsame, ← Anchor.dayIn, clipped, if_pos hclip]
    have htime : 0 ≤ start % DAY ∧ start % DAY < DAY := by
      unfold DAY
      omega
    simp only [hlastMs, hlastDay, hmidnight, bind_some]
    rw [clipped, if_pos (hwithin _ _ (dayIn_isDate c n) htime.1 htime.2), Anchor.at]

/-! ## The order of the occurrences -/

def Anchor.moved {start : Int} (c : Anchor start) (month : Int) : Anchor (c.at month) where
  month := month
  day := c.dayIn month
  date := dayIn_isDate c month
  same := by
    unfold Anchor.at DAY
    omega

theorem Anchor.lt {x y : Int} (a : Anchor x) (b : Anchor y) (h : a.month < b.month) : x < y := by
  have hdays : x / DAY < y / DAY := by
    rw [← a.same, ← b.same]
    exact (dayNumber_lt a.date b.date).mpr (.inl h)
  unfold DAY at hdays
  omega

theorem Anchor.at_month {start : Int} (c : Anchor start) : c.at c.month = start := by
  have hday : c.dayIn c.month = c.day := by
    unfold Anchor.dayIn
    exact min_eq_left c.date.2
  unfold Anchor.at
  rw [hday, c.same]
  unfold DAY
  omega

variable {start every : Int} {unit : IntervalUnit}

theorem occurrence_fixed (c : Anchor start) (h : unit.fixed = some fixed) (k : Nat) :
    occurrence c every unit k = start + k * (fixed * every) := by
  rw [occurrence, h]

theorem occurrence_calendar (c : Anchor start) (h : unit.fixed = none) (k : Nat) :
    occurrence c every unit k = c.at (c.target (unit = .year) (k * every)) := by
  rw [occurrence, h]

theorem fixed_pos (h : unit.fixed = some fixed) : 0 < fixed := by
  cases unit with
  | minute | hour | day | week =>
    cases h
    decide
  | month | year => cases h

theorem occurrence_zero (c : Anchor start) : occurrence c every unit 0 = start := by
  obtain hfix | ⟨fixed, hfix⟩ := eq_none_or_eq_some unit.fixed
  · rw [occurrence_calendar c hfix, Anchor.target]
    norm_num [c.at_month]
  · rw [occurrence_fixed c hfix]
    norm_num

theorem target_lt (c : Anchor start) {m n : Int} (h : m < n) : c.target yearUnit m < c.target yearUnit n := by
  unfold Anchor.target
  split <;> omega

variable (unit) in
theorem occurrence_strictMono (c : Anchor start) (hevery : 1 ≤ every) : StrictMono (occurrence c every unit) := by
  intro j k hjk
  have hlt : (j : Int) < k := by omega
  obtain hfix | ⟨fixed, hfix⟩ := eq_none_or_eq_some unit.fixed
  · rw [occurrence_calendar c hfix, occurrence_calendar c hfix]
    apply (c.moved _).lt (c.moved _)
    apply target_lt
    exact Int.mul_lt_mul_of_pos_right hlt (by omega)
  · rw [occurrence_fixed c hfix, occurrence_fixed c hfix]
    have hpos : 0 < fixed * every := Int.mul_pos (fixed_pos hfix) (by omega)
    have := Int.mul_lt_mul_of_pos_right hlt hpos
    omega

def rough (yearUnit : Bool) (startMonth afterMonth : Int) : Int :=
  if yearUnit then afterMonth / 12 - startMonth / 12 else afterMonth - startMonth

theorem guess_first (c : Anchor start) (a : Anchor after) (hevery : 1 ≤ every) (hafter : start ≤ after)
    {j : Int} (h0 : 0 ≤ j) (hj : j < max (rough yearUnit c.month a.month / every) 1) :
    c.at (c.target yearUnit (j * every)) ≤ after := by
  obtain hzero | hpos := Int.le_iff_eq_or_lt.mp h0
  · rw [← hzero, Int.zero_mul, Anchor.target, Int.zero_mul, Int.add_zero, c.at_month]
    exact hafter
  · have hstep : (j + 1) * every ≤ rough yearUnit c.month a.month :=
      Int.mul_le_of_le_ediv (by omega) (by omega)
    rw [Int.add_mul, Int.one_mul] at hstep
    have hmonth : c.target yearUnit (j * every) < a.month := by
      unfold Anchor.target
      unfold rough at hstep
      split at hstep <;> split <;> first | omega | contradiction
    have := (c.moved (c.target yearUnit (j * every))).lt a hmonth
    omega

theorem guess_second (c : Anchor start) (a : Anchor after) (hevery : 1 ≤ every) {k : Int}
    (hk : max (rough yearUnit c.month a.month / every) 1 < k) : after < c.at (c.target yearUnit (k * every)) := by
  have hstep : rough yearUnit c.month a.month < k * every :=
    Int.lt_mul_of_ediv_lt (by omega) (by omega)
  have hmonth : a.month < c.target yearUnit (k * every) := by
    unfold Anchor.target
    unfold rough at hstep
    split at hstep <;> split <;> first | omega | contradiction
  exact a.lt (c.moved _) hmonth

/-! ## The next occurrence -/

theorem exists_anchor {value : Int} (h : value.natAbs ≤ timeClip) : Nonempty (Anchor value) := by
  obtain ⟨y, m, d, -, -, -, hdate, hday⟩ := dateUtcFields_spec h
  exact ⟨⟨_, d, hdate, hday⟩⟩

theorem month_le_target (c : Anchor start) {count : Int} (h : 0 ≤ count) : c.month ≤ c.target yearUnit count := by
  unfold Anchor.target
  split <;> omega

theorem reaches_calendar (c : Anchor start) (hyear : 100 ≤ c.month / 12) (hevery : 1 ≤ every) (hfix : unit.fixed = none)
    (hk : 0 < k) :
    Reaches c every unit k ↔ c.target (unit = .year) (k * every) / 12 ≤ 275000 := by
  unfold Reaches
  rw [occurrence_calendar c hfix]
  constructor
  · rintro (hzero | ⟨-, h⟩)
    · omega
    · exact h hfix
  · intro h
    refine .inr ⟨?_, fun _ => h⟩
    have hmonth : c.month ≤ c.target (unit = .year) (k * every) :=
      month_le_target c (Int.mul_nonneg (by omega) (by omega))
    have htime : 0 ≤ start % DAY ∧ start % DAY < DAY := by
      unfold DAY
      omega
    exact within_limit (dayIn_isDate c _) (by omega) h htime.1 htime.2

theorem reaches_antitone (c : Anchor start) (hclip : start.natAbs ≤ timeClip) (hevery : 1 ≤ every) {j : Nat} (hjk : j ≤ k)
    (h : Reaches c every unit k) : Reaches c every unit j := by
  obtain hzero | ⟨hlimit, hyears⟩ := h
  · exact .inl (by omega)
  · refine .inr ⟨?_, fun hfix => ?_⟩
    · have hmono := (occurrence_strictMono unit c hevery).monotone
      have hlo := hmono (Nat.zero_le j)
      have hhi := hmono hjk
      rw [occurrence_zero] at hlo
      unfold timeClip at *
      omega
    · have hcount : (j : Int) * every ≤ k * every := Int.mul_le_mul_of_nonneg_right (by omega) (by omega)
      have hlast := hyears hfix
      unfold Anchor.target at *
      split at hlast <;> split <;> first | omega | contradiction

theorem tries_succ (c : Anchor start) (hclip : start.natAbs ≤ timeClip) (hyear : 100 ≤ c.month / 12) (hevery : 1 ≤ every)
    (hfix : unit.fixed = none) (after : Int) (left : Nat) (hk : 0 < k) :
    tries start every (unit = .year) after (left + 1) k =
      if Reaches c every unit k then
        if after < occurrence c every unit k then some (occurrence c every unit k)
        else tries start every (unit = .year) after left (k + 1 : Nat)
      else none := by
  have hmonth : c.month ≤ c.target (unit = .year) (k * every) :=
    month_le_target c (Int.mul_nonneg (by omega) (by omega))
  have hreach := reaches_calendar c hyear hevery hfix hk
  rw [tries, addCalendar_spec c hclip (by omega), ← occurrence_calendar c hfix]
  by_cases hlate : c.target (unit = .year) (k * every) / 12 > 275000
  · rw [if_pos hlate, if_neg (fun h => absurd (hreach.mp h) (by omega))]
  · rw [if_neg hlate, if_pos (hreach.mpr (by omega))]
    rfl

theorem interval_calendar (c : Anchor start) (hs : s.start = some start) (hclip : start.natAbs ≤ timeClip)
    (hyear : 100 ≤ c.month / 12) (hevery : 1 ≤ s.every) (hfix : s.unit.fixed = none)
    (hafter : after.natAbs ≤ timeClip) (hle : start ≤ after) :
    ∃ k, IsLeast {k | after < occurrence c s.every s.unit k} k ∧
      interval s after = if Reaches c s.every s.unit k then some (occurrence c s.every s.unit k) else none := by
  obtain ⟨a⟩ := exists_anchor hafter
  obtain ⟨guess, hguess⟩ := Int.eq_ofNat_of_zero_le
    (show 0 ≤ max (rough (s.unit = .year) c.month a.month / s.every) 1 by omega)
  have hpos : 0 < guess := by omega
  have hrun : interval s after = tries start s.every (s.unit = .year) after 4 guess := by
    have hrough : (if s.unit = .year then a.month / 12 - c.month / 12
        else (a.month / 12 - c.month / 12) * 12 + (a.month % 12 + 1) - (c.month % 12 + 1)) =
          rough (s.unit = .year) c.month a.month := by
      unfold rough
      simp only [decide_eq_true_eq]
      split <;> omega
    unfold interval
    simp only [hs, bind_eq_bind, bind_some, if_neg (Int.not_lt.mpr hle), hfix,
      dateUtcFields_eq hclip c.date c.same, dateUtcFields_eq hafter a.date a.same]
    rw [hrough, hguess]
  have hbefore : ∀ j < guess, occurrence c s.every s.unit j ≤ after := by
    intro j hj
    rw [occurrence_calendar c hfix]
    exact guess_first c a hevery hle (by omega) (by omega)
  have hpast : after < occurrence c s.every s.unit (guess + 1) := by
    rw [occurrence_calendar c hfix]
    exact guess_second c a hevery (by omega)
  rw [hrun, tries_succ c hclip hyear hevery hfix after 3 hpos]
  by_cases hnow : after < occurrence c s.every s.unit guess
  · refine ⟨guess, ⟨hnow, fun j hj => ?_⟩, ?_⟩
    · by_contra hlt
      exact absurd hj (Int.not_lt.mpr (hbefore j (by omega)))
    · rw [if_pos hnow]
  · refine ⟨guess + 1, ⟨hpast, fun j hj => ?_⟩, ?_⟩
    · by_contra hlt
      obtain hlt | heq : j < guess ∨ j = guess := by omega
      · exact absurd hj (Int.not_lt.mpr (hbefore j hlt))
      · rw [heq] at hj
        exact hnow hj
    · rw [if_neg hnow, tries_succ c hclip hyear hevery hfix after 2 (Nat.succ_pos guess), if_pos hpast]
      by_cases hreach : Reaches c s.every s.unit guess
      · rw [if_pos hreach]
      · have hnext : ¬Reaches c s.every s.unit (guess + 1) :=
          fun h => hreach (reaches_antitone c hclip hevery (by omega) h)
        rw [if_neg hreach, if_neg hnext]

theorem interval_fixed (c : Anchor start) (hs : s.start = some start) (hevery : 1 ≤ s.every)
    (hfix : s.unit.fixed = some fixed) (hle : start ≤ after) :
    ∃ k, IsLeast {k | after < occurrence c s.every s.unit k} k ∧
      interval s after = if Reaches c s.every s.unit k then some (occurrence c s.every s.unit k) else none := by
  have hpos : 0 < fixed * s.every := Int.mul_pos (fixed_pos hfix) (by omega)
  obtain ⟨past, hpast⟩ := Int.eq_ofNat_of_zero_le (Int.ediv_nonneg (show 0 ≤ after - start by omega) hpos.le)
  have hoccurrence : ∀ k, occurrence c s.every s.unit k = start + k * (fixed * s.every) := occurrence_fixed c hfix
  have hbelow : (past : Int) * (fixed * s.every) ≤ after - start := by
    rw [← hpast]
    exact Int.ediv_mul_le _ (by omega)
  have habove : after - start < ((past + 1 : Nat) : Int) * (fixed * s.every) := by
    apply Int.lt_mul_of_ediv_lt hpos
    omega
  refine ⟨past + 1, ⟨?_, fun j hj => ?_⟩, ?_⟩
  · change after < _
    rw [hoccurrence]
    omega
  · by_contra hlt
    have hj' : after < start + j * (fixed * s.every) := by
      rw [← hoccurrence]
      exact hj
    have : (j : Int) * (fixed * s.every) ≤ past * (fixed * s.every) :=
      Int.mul_le_mul_of_nonneg_right (by omega) (by omega)
    omega
  · have hcount : max ((after - start).tdiv (fixed * s.every) + 1) 1 = ((past + 1 : Nat) : Int) := by
      rw [Int.tdiv_eq_ediv_of_nonneg (by omega), hpast]
      omega
    have hreach : Reaches c s.every s.unit (past + 1) ↔ (occurrence c s.every s.unit (past + 1)).natAbs ≤ timeClip := by
      constructor
      · rintro (hzero | ⟨hlimit, -⟩)
        · omega
        · exact hlimit
      · intro hlimit
        refine .inr ⟨hlimit, fun hnone => ?_⟩
        rw [hfix] at hnone
        cases hnone
    unfold interval
    simp only [hs, bind_eq_bind, bind_some, if_neg (Int.not_lt.mpr hle), hfix]
    rw [hcount, ← hoccurrence, clipped]
    exact if_congr hreach.symm rfl rfl

theorem interval_least (c : Anchor start) (hs : s.start = some start) (hclip : start.natAbs ≤ timeClip)
    (hyear : 100 ≤ c.month / 12) (hevery : 1 ≤ s.every) (hafter : after.natAbs ≤ timeClip) :
    ∃ k, IsLeast {k | after < occurrence c s.every s.unit k} k ∧
      interval s after = if Reaches c s.every s.unit k then some (occurrence c s.every s.unit k) else none := by
  by_cases hlt : after < start
  · refine ⟨0, ⟨?_, fun j _ => Nat.zero_le j⟩, ?_⟩
    · change after < _
      rw [occurrence_zero]
      exact hlt
    · unfold interval
      rw [hs, occurrence_zero, if_pos (.inl rfl)]
      simp only [bind_eq_bind, bind_some, if_pos hlt]
  · obtain hfix | ⟨fixed, hfix⟩ := eq_none_or_eq_some s.unit.fixed
    · exact interval_calendar c hs hclip hyear hevery hfix hafter (by omega)
    · exact interval_fixed c hs hevery hfix (by omega)

/-! ## Runs of `next` -/

/-- The occurrence that `first` starts from: the first of all, or the first after now. -/
def StartsAt (c : Anchor start) (every : Int) (unit : IntervalUnit) (now : Int) (k : Nat) : Prop :=
  if now ≤ start then k = 0 else IsLeast {k | now < occurrence c every unit k} k

theorem first_spec (c : Anchor start) (hs : s.start = some start) (hclip : start.natAbs ≤ timeClip)
    (hyear : 100 ≤ c.month / 12) (hevery : 1 ≤ s.every) {now : Int} (hnow : now.natAbs ≤ timeClip) :
    ∃ k, StartsAt c s.every s.unit now k ∧
      first s now = if Reaches c s.every s.unit k then some (occurrence c s.every s.unit k) else none := by
  unfold first StartsAt
  rw [hs]
  by_cases hle : now ≤ start
  · refine ⟨0, ?_, ?_⟩
    · rw [if_pos hle]
    · have hkept : (some start).filter (· ≥ now) = some start := by
        simp only [filter_some, ge_iff_le, hle, decide_true, if_true]
      rw [hkept, occurrence_zero, if_pos (.inl rfl)]
  · obtain ⟨k, hleast, hnext⟩ := interval_least c hs hclip hyear hevery hnow
    refine ⟨k, ?_, ?_⟩
    · rw [if_neg hle]
      exact hleast
    · have hpassed : (some start).filter (· ≥ now) = none := by
        simp only [filter_some, ge_iff_le, hle, decide_false, if_false, Bool.false_eq_true]
      rw [hpassed]
      exact hnext

theorem interval_occurrence (c : Anchor start) (hs : s.start = some start) (hclip : start.natAbs ≤ timeClip)
    (hyear : 100 ≤ c.month / 12) (hevery : 1 ≤ s.every) (hreach : Reaches c s.every s.unit k) :
    interval s (occurrence c s.every s.unit k) =
      if Reaches c s.every s.unit (k + 1) then some (occurrence c s.every s.unit (k + 1)) else none := by
  have hmono := occurrence_strictMono s.unit c hevery
  have hlimit : (occurrence c s.every s.unit k).natAbs ≤ timeClip := by
    obtain rfl | ⟨hlimit, -⟩ := hreach
    · rw [occurrence_zero]
      exact hclip
    · exact hlimit
  obtain ⟨next, ⟨hafter, hleast⟩, hnext⟩ := interval_least c hs hclip hyear hevery hlimit
  have hlow : k < next := hmono.lt_iff_lt.mp hafter
  have hhigh : next ≤ k + 1 := hleast (hmono (Nat.lt_succ_self k))
  rw [hnext, show next = k + 1 by omega]

theorem upcoming_spec (c : Anchor start) (hs : s.start = some start) (hclip : start.natAbs ≤ timeClip)
    (hyear : 100 ≤ c.month / 12) (hevery : 1 ≤ s.every) {now : Int}
    (hfirst : first s now = if Reaches c s.every s.unit k then some (occurrence c s.every s.unit k) else none) (n : Nat) :
    upcoming s now n =
      if Reaches c s.every s.unit (k + n) then some (occurrence c s.every s.unit (k + n)) else none := by
  induction n with
  | zero => exact hfirst
  | succ n ih =>
    rw [upcoming, ih]
    by_cases hreach : Reaches c s.every s.unit (k + n)
    · rw [if_pos hreach]
      exact interval_occurrence c hs hclip hyear hevery hreach
    · have hnext : ¬Reaches c s.every s.unit (k + (n + 1)) :=
        fun h => hreach (reaches_antitone c hclip hevery (by omega) h)
      rw [if_neg hreach, if_neg hnext]
      rfl

/-- `next` returns the least occurrence after an instant, and nothing only when this one is not reached: it is past
the limit of the dates, or in a year after 275000. From `first` on it goes through all the occurrences in their order. -/
theorem interval_occurrences {s : Schedule} {start : Int} (c : Anchor start) (hs : s.start = some start)
    (hclip : start.natAbs ≤ timeClip) (hyear : 100 ≤ c.month / 12) (hevery : 1 ≤ s.every) :
    StrictMono (occurrence c s.every s.unit) ∧
    (∀ after : Int, after.natAbs ≤ timeClip → ∃ k, IsLeast {k | after < occurrence c s.every s.unit k} k ∧
      interval s after = if Reaches c s.every s.unit k then some (occurrence c s.every s.unit k) else none) ∧
    (∀ now : Int, now.natAbs ≤ timeClip → ∃ k, StartsAt c s.every s.unit now k ∧ ∀ n, upcoming s now n =
      if Reaches c s.every s.unit (k + n) then some (occurrence c s.every s.unit (k + n)) else none) := by
  refine ⟨occurrence_strictMono _ c hevery, fun after hafter => ?_, fun now hnow => ?_⟩
  · exact interval_least c hs hclip hyear hevery hafter
  · obtain ⟨k, hstarts, hfirst⟩ := first_spec c hs hclip hyear hevery hnow
    exact ⟨k, hstarts, upcoming_spec c hs hclip hyear hevery hfirst⟩

def endOfJanuary : Anchor 1706695200000 := ⟨24288, 31, by decide, by decide⟩

/-- Every month from the end of January: the leap day, the end of March, the end of April. -/
theorem interval_occurrences_january : (interval ⟨some 1706695200000, 1, .month⟩ 1706695200000 = some 1709200800000 ∧
      upcoming ⟨some 1706695200000, 1, .month⟩ 1706695200000 2 = some 1711879200000 ∧
      upcoming ⟨some 1706695200000, 1, .month⟩ 1706695200000 3 = some 1714471200000) ∧
    (∃ k, IsLeast {k | 1706695200000 < occurrence endOfJanuary 1 .month k} k ∧
      interval ⟨some 1706695200000, 1, .month⟩ 1706695200000 =
        if Reaches endOfJanuary 1 .month k then some (occurrence endOfJanuary 1 .month k) else none) := by
  refine ⟨by decide, ?_⟩
  have hrun := @interval_occurrences ⟨some 1706695200000, 1, .month⟩ _ endOfJanuary rfl (by decide) (by decide)
    (by decide)
  exact hrun.2.1 1706695200000 (by decide)

/-- 1 January 1970. -/
def epoch : Anchor 0 := ⟨23640, 1, by decide, by decide⟩

/-- A date within the limit that is not returned: the occurrence of January 275001 of a monthly schedule. -/
theorem interval_late_none : ∃ (after : Int) (k : Nat), after.natAbs ≤ timeClip ∧
    IsLeast {k | after < occurrence epoch 1 .month k} k ∧ (occurrence epoch 1 .month k).natAbs ≤ timeClip ∧
    interval ⟨some 0, 1, .month⟩ after = none := by
  have hmono : StrictMono (occurrence epoch 1 .month) := occurrence_strictMono _ epoch (by decide)
  refine ⟨8616026159999999, 3276372, by decide, ⟨?_, fun j hj => ?_⟩, by decide, by decide⟩
  · change (8616026159999999 : Int) < _
    decide
  · by_contra hlt
    have hle : occurrence epoch 1 .month j ≤ occurrence epoch 1 .month 3276371 := hmono.monotone (by omega)
    have hlast : occurrence epoch 1 .month 3276371 ≤ 8616026159999999 := by decide
    have hj' : 8616026159999999 < occurrence epoch 1 .month j := hj
    omega

end Cantrip.Cron
