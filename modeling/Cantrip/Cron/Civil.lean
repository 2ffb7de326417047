import Cantrip.Cron.Date
import Mathlib.Tactic.NormNum

/-!
# The date functions follow the calendar

`days` counts the days of the proleptic Gregorian calendar and `dateUtcFields` is its inverse. Every instant has
one valid civil date (`utcFields_spec`), and a valid date is that of its instant (`Valid.eq_of_seconds`).
-/

namespace Cantrip.Cron

open Lib

/-! ## Day numbers -/

theorem days_eq {m : Int} (y d : Int) (hlo : 1 ≤ m) (hhi : m ≤ 12) : days y m d = dayNumber (12 * y + (m - 1)) d := by
  have hdiv : (12 * y + (m - 1)) / 12 = y := by omega
  have hmod : (12 * y + (m - 1)) % 12 = m - 1 := by omega
  unfold days dayNumber monthStart yearStart leapYear
  rw [hdiv, hmod]
  obtain h | h | h | h | h | h | h | h | h | h | h | h : m = 1 ∨ m = 2 ∨ m = 3 ∨ m = 4 ∨ m = 5 ∨ m = 6 ∨ m = 7 ∨
      m = 8 ∨ m = 9 ∨ m = 10 ∨ m = 11 ∨ m = 12 := by omega
  all_goals
    rw [h]
    simp only [daysBefore, decide_eq_true_eq]
    norm_num
    try split
    all_goals omega

theorem year_of_era {a b c doy doe : Int} (ha : 0 ≤ a) (ha' : a ≤ 3) (hb : 0 ≤ b) (hb' : b ≤ 24) (hc : 0 ≤ c) (hc' : c ≤ 3)
    (hdoy : 0 ≤ doy) (hdoy' : doy ≤ 365) (hleap : doy = 365 → c = 3 ∧ (b ≠ 24 ∨ a = 3))
    (hdoe : doe = 36524 * a + 1461 * b + 365 * c + doy) :
    (doe - doe / 1460 + doe / 36524 - doe / 146096) / 365 = 100 * a + 4 * b + c := by
  have hcent : doe / 36524 - doe / 146096 = a := by
    by_cases hlast : doe = 146096
    · rw [hlast]
      norm_num
      omega
    · have hdiv : doe / 36524 = a := by omega
      have hzero : doe / 146096 = 0 := by omega
      omega
  have hfour : doe / 1460 = 25 * a + b ∨ doe / 1460 = 25 * a + b + 1 := by omega
  have hsum : doe - doe / 1460 + doe / 36524 - doe / 146096 = doe - doe / 1460 + a := by omega
  rw [hsum]
  obtain h | h := hfour
  · omega
  · omega

theorem day_of_year {a b c doy doe : Int} (hb : 0 ≤ b) (hb' : b ≤ 24) (hc : 0 ≤ c) (hc' : c ≤ 3)
    (hdoe : doe = 36524 * a + 1461 * b + 365 * c + doy) :
    doe - (365 * (100 * a + 4 * b + c) + (100 * a + 4 * b + c) / 4 - (100 * a + 4 * b + c) / 100) = doy := by
  have hfour : (100 * a + 4 * b + c) / 4 = 25 * a + b := by omega
  have hhundred : (100 * a + 4 * b + c) / 100 = a := by omega
  rw [hfour, hhundred]
  omega

theorem era_split {doe : Int} (hlo : 0 ≤ doe) (hhi : doe ≤ 146096) :
    ∃ a b c doy, 0 ≤ a ∧ a ≤ 3 ∧ 0 ≤ b ∧ b ≤ 24 ∧ 0 ≤ c ∧ c ≤ 3 ∧ 0 ≤ doy ∧ doy ≤ 365 ∧
      (doy = 365 → c = 3 ∧ (b ≠ 24 ∨ a = 3)) ∧ doe = 36524 * a + 1461 * b + 365 * c + doy := by
  let a := min (doe / 36524) 3
  let r := doe - 36524 * a
  let b := r / 1461
  let q := r - 1461 * b
  let c := min (q / 365) 3
  have ha : a = min (doe / 36524) 3 := rfl
  have hr : r = doe - 36524 * a := rfl
  have hb : b = r / 1461 := rfl
  have hq : q = r - 1461 * b := rfl
  have hc : c = min (q / 365) 3 := rfl
  refine ⟨a, b, c, q - 365 * c, ?_, ?_, ?_, ?_, ?_, ?_, ?_, ?_, ?_, ?_⟩
  all_goals omega

theorem march_month {doy : Int} (hlo : 0 ≤ doy) (hhi : doy ≤ 365) :
    let mp := (5 * doy + 2) / 153
    let d := doy - (153 * mp + 2) / 5 + 1
    0 ≤ mp ∧ mp ≤ 11 ∧ 1 ≤ d ∧ d ≤ (if mp = 11 then 29 else commonLength ((mp + 2) % 12)) ∧ (mp = 11 → d = 29 → doy = 365) := by
  intro mp d
  have hmp : mp = (5 * doy + 2) / 153 := rfl
  have hd : d = doy - (153 * mp + 2) / 5 + 1 := rfl
  obtain h | h | h | h | h | h | h | h | h | h | h | h : mp = 0 ∨ mp = 1 ∨ mp = 2 ∨ mp = 3 ∨ mp = 4 ∨ mp = 5 ∨ mp = 6 ∨
      mp = 7 ∨ mp = 8 ∨ mp = 9 ∨ mp = 10 ∨ mp = 11 := by omega
  all_goals
    rw [h] at hd ⊢
    norm_num [commonLength]
    omega

theorem march_isDate {a b c doy era : Int} (hb : 0 ≤ b) (hb' : b ≤ 24)
    (hlo : 0 ≤ doy) (hhi : doy ≤ 365) (hleap : doy = 365 → c = 3 ∧ (b ≠ 24 ∨ a = 3)) :
    let mp := (5 * doy + 2) / 153
    IsDate (12 * (100 * a + 4 * b + c + 400 * era) + (mp + 2)) (doy - (153 * mp + 2) / 5 + 1) := by
  intro mp
  obtain ⟨hmp, hmp', hd, hd', hlast⟩ := march_month hlo hhi
  refine ⟨hd, ?_⟩
  change 0 ≤ mp at hmp
  change mp ≤ 11 at hmp'
  change _ ≤ (if mp = 11 then 29 else commonLength ((mp + 2) % 12)) at hd'
  change mp = 11 → doy - (153 * mp + 2) / 5 + 1 = 29 → doy = 365 at hlast
  unfold monthLength
  by_cases heq : mp = 11
  · rw [if_pos heq] at hd'
    have hmod : (12 * (100 * a + 4 * b + c + 400 * era) + (mp + 2)) % 12 = 1 := by omega
    have hdiv : (12 * (100 * a + 4 * b + c + 400 * era) + (mp + 2)) / 12 = 100 * a + 4 * b + c + 400 * era + 1 := by omega
    rw [hmod, hdiv]
    simp only [commonLength, leapYear, decide_eq_true_eq]
    by_cases hday : doy = 365
    · obtain ⟨hc3, hcent⟩ := hleap hday
      have hfour : (100 * a + 4 * b + c + 400 * era + 1) % 4 = 0 := by omega
      have hhundred : (100 * a + 4 * b + c + 400 * era + 1) % 100 ≠ 0 ∨ (100 * a + 4 * b + c + 400 * era + 1) % 400 = 0 := by
        omega
      rw [if_pos ⟨trivial, hfour, hhundred⟩]
      omega
    · have : doy - (153 * mp + 2) / 5 + 1 ≠ 29 := fun h => hday (hlast heq h)
      split <;> omega
  · rw [if_neg heq] at hd'
    have hmod : (12 * (100 * a + 4 * b + c + 400 * era) + (mp + 2)) % 12 = (mp + 2) % 12 := by omega
    rw [hmod]
    split <;> omega

theorem march_shift {mp m : Int} (hmp : 0 ≤ mp) (hmp' : mp ≤ 11) (hm : m = mp + if mp < 10 then 3 else -9) :
    1 ≤ m ∧ m ≤ 12 := by
  split at hm <;> omega

theorem march_number {mp m y year era : Int} (hmp : 0 ≤ mp) (hmp' : mp ≤ 11) (hm : m = mp + if mp < 10 then 3 else -9)
    (hy : y = year + era * 400 + if m ≤ 2 then 1 else 0) : 12 * (year + 400 * era) + (mp + 2) = 12 * y + (m - 1) := by
  split at hm <;> split at hy <;> omega

theorem days_march {mp m y year era d : Int} (hlo : 0 ≤ year) (hhi : year ≤ 399) (hmp : 0 ≤ mp) (hmp' : mp ≤ 11)
    (hm : m = mp + if mp < 10 then 3 else -9) (hy : y = year + era * 400 + if m ≤ 2 then 1 else 0) :
    days y m d = era * 146097 + year * 365 + year / 4 - year / 100 + (153 * mp + 2) / 5 + d - 1 - 719468 := by
  have hyear : (y - if m ≤ 2 then 1 else 0) = year + era * 400 := by omega
  have hera : (year + era * 400) / 400 = era := by omega
  have hpart : year + era * 400 - era * 400 = year := by omega
  have hback : (m + if m > 2 then -3 else 9) = mp := by
    split at hm <;> split <;> omega
  unfold days
  simp only [hyear, hera, hpart, hback]

/-- The year that `Date.UTC` reads: 0 to 99 are the years of the twentieth century. -/
def fullYear (year : Int) : Int := if 0 ≤ year ∧ year ≤ 99 then year + 1900 else year

theorem dateUtcMilliseconds_eq (year month day : Int) : dateUtcMilliseconds year month day =
      if (dayNumber (12 * fullYear year + month) day * DAY).natAbs ≤ timeClip then
        some (dayNumber (12 * fullYear year + month) day * DAY)
      else none := by
  have hdays : days (fullYear year + month / 12) (month % 12 + 1) day = dayNumber (12 * fullYear year + month) day := by
    have hn : 12 * (fullYear year + month / 12) + (month % 12 + 1 - 1) = 12 * fullYear year + month := by omega
    rw [days_eq _ _ (by omega) (by omega), hn]
  rw [← hdays]
  rfl

theorem dateUtcFields_spec {value : Int} (h : value.natAbs ≤ timeClip) :
    ∃ y m d, dateUtcFields value = some (y, m, d) ∧ 1 ≤ m ∧ m ≤ 12 ∧ IsDate (12 * y + (m - 1)) d ∧
      dayNumber (12 * y + (m - 1)) d = value / 86400000 := by
  obtain ⟨era, doe, hera, hdoe⟩ : ∃ era doe, era = (value / 86400000 + 719468) / 146097 ∧
      doe = value / 86400000 + 719468 - era * 146097 := ⟨_, _, rfl, rfl⟩
  obtain ⟨a, b, c, doy, ha, ha', hb, hb', hc, hc', hlo, hhi, hleap, hsum⟩ := @era_split doe (by omega) (by omega)
  have hyoe := year_of_era ha ha' hb hb' hc hc' hlo hhi hleap hsum
  have hdoy : doe - (365 * (100 * a + 4 * b + c) + (100 * a + 4 * b + c) / 4 - (100 * a + 4 * b + c) / 100) = doy :=
    day_of_year hb hb' hc hc' hsum
  have hdate := @march_isDate a b c doy era hb hb' hlo hhi hleap
  obtain ⟨hmp, hmp', -, -, -⟩ := march_month hlo hhi
  obtain ⟨mp, hmpeq⟩ : ∃ mp, mp = (5 * doy + 2) / 153 := ⟨_, rfl⟩
  simp only [← hmpeq] at hdate hmp hmp'
  obtain ⟨yoe, hyoeq⟩ : ∃ yoe, yoe = 100 * a + 4 * b + c := ⟨_, rfl⟩
  have hera' : 0 ≤ yoe ∧ yoe ≤ 399 := by omega
  rw [← hyoeq] at hdoy hyoe hdate
  have hz : value / 86400000 = era * 146097 + yoe * 365 + yoe / 4 - yoe / 100 + doy - 719468 := by
    clear hdate hyoe hsum hleap hmpeq hyoeq hera
    omega
  clear hyoeq hsum hleap
  obtain ⟨m, y, hm, hy⟩ : ∃ m y, m = mp + (if mp < 10 then 3 else -9) ∧
      y = yoe + era * 400 + if m ≤ 2 then 1 else 0 := ⟨_, _, rfl, rfl⟩
  have hm1 : 1 ≤ m ∧ m ≤ 12 := march_shift hmp hmp' hm
  have hn : 12 * (yoe + 400 * era) + (mp + 2) = 12 * y + (m - 1) := march_number hmp hmp' hm hy
  rw [hn] at hdate
  refine ⟨y, m, _, ?_, hm1.1, hm1.2, hdate, ?_⟩
  · unfold dateUtcFields
    rw [if_neg (by omega)]
    simp only [← hera, ← hdoe, hyoe, hdoy, ← hmpeq, ← hm, ← hy]
  · rw [← days_eq y _ hm1.1 hm1.2, days_march hera'.1 hera'.2 hmp hmp' hm hy, hz]
    omega

namespace Fields

def monthNumber (f : Fields) : Int := 12 * f.year + f.month

/-- The seconds since the start of 1970, also of a date that has run over. -/
def seconds (f : Fields) : Int :=
  dayNumber f.monthNumber f.day * 86400 + (f.hour * 3600 + f.minute * 60 + f.second)

structure Valid (f : Fields) : Prop where
  month : 0 ≤ f.month ∧ f.month ≤ 11
  date : IsDate f.monthNumber f.day
  hour : 0 ≤ f.hour ∧ f.hour ≤ 23
  minute : 0 ≤ f.minute ∧ f.minute ≤ 59
  second : 0 ≤ f.second ∧ f.second ≤ 59

end Fields

theorem utcFields_spec {ms : Int} (h : ms.natAbs ≤ timeClip) :
    ∃ f, utcFields ms = .ok f ∧ f.Valid ∧ f.seconds = ms / 1000 := by
  obtain ⟨y, m, d, hfields, hm, hm', hdate, hday⟩ := dateUtcFields_spec h
  refine ⟨⟨y, m - 1, d, ms % DAY / 3600000, ms % DAY / 60000 % 60, ms % DAY / 1000 % 60⟩, ?_, ⟨?_, hdate, ?_, ?_, ?_⟩, ?_⟩
  · rw [utcFields, hfields]
  · simp only
    omega
  · simp only [DAY]
    omega
  · simp only [DAY]
    omega
  · simp only [DAY]
    omega
  · simp only [Fields.seconds, Fields.monthNumber, hday, DAY]
    omega

end Cantrip.Cron
