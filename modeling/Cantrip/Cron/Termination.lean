import Cantrip.Cron.Search

/-!
# The search of the next date ends

Every turn of the loop either leaves the date as it is and goes on to the next field, or moves the date forward. The
one date that is not moved by a turn that counts up is midnight written as 24:00, which becomes 0:00 of the next day:
`potential` orders it before. Dates are looked for below the year 3000 only, so the loop ends (`next_ends`).
-/

namespace Cantrip.Cron

open Lib List

/-! ## Months and years -/

theorem monthStart_le {n n' : Int} (h : n ≤ n') : monthStart n ≤ monthStart n' := by
  obtain heq | hlt := Int.le_iff_eq_or_lt.mp h
  · rw [heq]
  · have := monthStart_mono hlt
    have := monthLength_le n
    omega

theorem isDate_bounds {n d : Int} (h : IsDate n d) : monthStart n ≤ dayNumber n d ∧ dayNumber n d < monthStart (n + 1) := by
  obtain ⟨hd, hd'⟩ := h
  rw [monthStart_succ]
  unfold dayNumber
  omega

theorem Fields.Valid.le_year {f : Fields} (h : f.Valid) {year : Int} (hle : monthStart (12 * year) * 86400 ≤ f.seconds) :
    year ≤ f.year := by
  obtain ⟨hm, hdate, hh, hi, hs⟩ := h
  by_contra hlt
  obtain ⟨-, hday⟩ := isDate_bounds hdate
  have hmonth := monthStart_le (show f.monthNumber + 1 ≤ 12 * year by unfold Fields.monthNumber; omega)
  unfold Fields.seconds at hle
  omega

theorem Fields.Valid.year_le {f : Fields} (h : f.Valid) {year : Int} (hlt : f.seconds < monthStart (12 * (year + 1)) * 86400) :
    f.year ≤ year := by
  obtain ⟨hm, hdate, hh, hi, hs⟩ := h
  by_contra hge
  obtain ⟨hday, -⟩ := isDate_bounds hdate
  have hmonth := monthStart_le (show 12 * (year + 1) ≤ f.monthNumber by unfold Fields.monthNumber; omega)
  unfold Fields.seconds at hlt
  omega

theorem seconds_bounds (f : Fields) (hm : 0 ≤ f.month ∧ f.month ≤ 11) (hd : 1 ≤ f.day ∧ f.day ≤ 31)
    (hh : 0 ≤ f.hour ∧ f.hour ≤ 23) (hi : 0 ≤ f.minute ∧ f.minute ≤ 59) (hs : 0 ≤ f.second ∧ f.second ≤ 59) :
    monthStart (12 * f.year) * 86400 ≤ f.seconds ∧ f.seconds < monthStart (12 * (f.year + 1)) * 86400 := by
  have hlow := monthStart_le (show 12 * f.year ≤ f.monthNumber by unfold Fields.monthNumber; omega)
  have hhigh : monthStart f.monthNumber + 31 ≤ monthStart (12 * (f.year + 1)) := by
    by_cases hdec : f.month = 11
    · have hlength : monthLength f.monthNumber = 31 := by
        have hmod : f.monthNumber % 12 = 11 := by
          unfold Fields.monthNumber
          omega
        unfold monthLength
        rw [hmod]
        rfl
      have hnext : f.monthNumber + 1 = 12 * (f.year + 1) := by
        unfold Fields.monthNumber
        omega
      rw [← hnext, monthStart_succ, hlength]
    · have hnext := monthStart_mono (show f.monthNumber < f.monthNumber + 1 by omega)
      have hlength := monthLength_le f.monthNumber
      have hlater := monthLength_le (f.monthNumber + 1)
      have hyear := monthStart_mono (show f.monthNumber + 1 < 12 * (f.year + 1) by unfold Fields.monthNumber; omega)
      omega
  unfold Fields.seconds dayNumber
  omega

/-! ## Conversions -/

/-- The date whose instant `Date.UTC` gives. -/
def Fields.full (f : Fields) : Fields := { f with year := fullYear f.year }

theorem Fields.seconds_le_full (f : Fields) : f.seconds ≤ f.full.seconds := by
  have hmonth : monthStart f.monthNumber ≤ monthStart f.full.monthNumber := by
    apply monthStart_le
    unfold Fields.monthNumber Fields.full fullYear
    dsimp only
    split <;> omega
  unfold Fields.seconds dayNumber
  change _ ≤ (monthStart f.full.monthNumber + f.day - 1) * 86400 + (f.hour * 3600 + f.minute * 60 + f.second)
  omega

theorem utc_eq {f : Fields} {t : Int} (h : utc f = .ok t) : t = f.full.seconds * 1000 ∧ t.natAbs ≤ timeClip := by
  unfold utc at h
  rw [dateUtcMilliseconds_eq] at h
  by_cases hday : (dayNumber (12 * fullYear f.year + f.month) f.day * DAY).natAbs ≤ timeClip
  · simp only [if_pos hday] at h
    split at h
    · next hclip =>
      cases h
      refine ⟨?_, hclip⟩
      unfold Fields.seconds Fields.full Fields.monthNumber DAY
      dsimp only
      omega
    · cases h
  · simp only [if_neg hday] at h
    cases h

/-- A date that has run over by one at most, of a year that is far from the limit. -/
structure Loose (f : Fields) : Prop where
  year : -200000 ≤ f.year ∧ f.year ≤ 200000
  month : 0 ≤ f.month ∧ f.month ≤ 12
  day : 0 ≤ f.day ∧ f.day ≤ 32
  hour : 0 ≤ f.hour ∧ f.hour ≤ 24
  minute : 0 ≤ f.minute ∧ f.minute ≤ 60
  second : 0 ≤ f.second ∧ f.second ≤ 60

theorem Loose.utc_ok {f : Fields} (h : Loose f) : utc f = .ok (f.full.seconds * 1000) := by
  obtain ⟨⟨hy, hy'⟩, ⟨hm, hm'⟩, ⟨hd, hd'⟩, ⟨hh, hh'⟩, ⟨hi, hi'⟩, ⟨hs, hs'⟩⟩ := h
  have hfirst : monthStart (-2400000) = -73768028 := by decide
  have hlast : monthStart 2400012 = 72329338 := by decide
  have hfull : -200000 ≤ fullYear f.year ∧ fullYear f.year ≤ 200000 := by
    unfold fullYear
    split <;> omega
  have hlow := monthStart_le (show -2400000 ≤ 12 * fullYear f.year + f.month by omega)
  have hhigh := monthStart_le (show 12 * fullYear f.year + f.month ≤ 2400012 by omega)
  have hday : (dayNumber (12 * fullYear f.year + f.month) f.day * DAY).natAbs ≤ timeClip := by
    unfold dayNumber DAY timeClip
    omega
  have hvalue : dayNumber (12 * fullYear f.year + f.month) f.day * DAY + (f.hour * 3600 + f.minute * 60 + f.second) * 1000 =
      f.full.seconds * 1000 := by
    unfold Fields.seconds Fields.full Fields.monthNumber DAY
    dsimp only
    omega
  have hclip : (f.full.seconds * 1000).natAbs ≤ timeClip := by
    rw [← hvalue]
    unfold dayNumber DAY timeClip
    omega
  unfold utc
  rw [dateUtcMilliseconds_eq]
  simp only [if_pos hday, hvalue, if_pos hclip]

theorem normalize_of_carried {f : Fields} (h : ¬(0 ≤ f.month ∧ f.month ≤ 11) ∨ f.day < 1 ∨ f.day > MONTH f.month ∨
    f.hour > 59 ∨ f.minute > 59 ∨ f.second > 59 ∨ f.hour < 0 ∨ f.minute < 0 ∨ f.second < 0) :
    normalize f = (do pure (← utcFields (← utc f), true)) := by
  rw [normalize, if_pos h]

theorem normalize_cases {f f' : Fields} {changed : Bool} (h : normalize f = .ok (f', changed)) :
    (changed = false ∧ f' = f ∧ (0 ≤ f.month ∧ f.month ≤ 11) ∧ IsDate f.monthNumber f.day ∧ 0 ≤ f.hour ∧
      (0 ≤ f.minute ∧ f.minute ≤ 59) ∧ (0 ≤ f.second ∧ f.second ≤ 59)) ∨
    (changed = true ∧ f'.Valid ∧ f'.seconds = f.full.seconds) := by
  by_cases hcarried : ¬(0 ≤ f.month ∧ f.month ≤ 11) ∨ f.day < 1 ∨ f.day > MONTH f.month ∨
    f.hour > 59 ∨ f.minute > 59 ∨ f.second > 59 ∨ f.hour < 0 ∨ f.minute < 0 ∨ f.second < 0
  · rw [normalize_of_carried hcarried] at h
    obtain ⟨t, ht, h⟩ := bind_eq_ok.mp h
    obtain ⟨g, hg, h⟩ := bind_eq_ok.mp h
    cases h
    obtain ⟨hvalue, hclip⟩ := utc_eq ht
    obtain ⟨g', hg', hvalid, hseconds⟩ := utcFields_spec hclip
    rw [hg] at hg'
    cases hg'
    refine .inr ⟨rfl, hvalid, ?_⟩
    rw [hseconds, hvalue]
    omega
  · rw [normalize, if_neg hcarried] at h
    cases h
    have hlength : monthLength f.monthNumber ≥ MONTH f.month := by
      have hmod : f.monthNumber % 12 = f.month := by
        unfold Fields.monthNumber
        omega
      unfold monthLength MONTH
      rw [hmod]
      split <;> omega
    refine .inl ⟨rfl, rfl, by omega, ⟨by omega, by omega⟩, by omega, by omega, by omega⟩

theorem Loose.normalize_ok {f : Fields} (h : Loose f) : ∃ r, normalize f = .ok r := by
  by_cases hcarried : ¬(0 ≤ f.month ∧ f.month ≤ 11) ∨ f.day < 1 ∨ f.day > MONTH f.month ∨
    f.hour > 59 ∨ f.minute > 59 ∨ f.second > 59 ∨ f.hour < 0 ∨ f.minute < 0 ∨ f.second < 0
  · obtain ⟨-, hclip⟩ := utc_eq h.utc_ok
    obtain ⟨g, hg, -⟩ := utcFields_spec hclip
    rw [normalize_of_carried hcarried, h.utc_ok]
    refine ⟨(g, true), ?_⟩
    change (do pure (← utcFields (f.full.seconds * 1000), true)) = Except.ok (g, true)
    rw [hg]
    rfl
  · rw [normalize, if_neg hcarried]
    exact ⟨_, rfl⟩

theorem normalize_first (year : Int) {month : Int} (hlo : 0 ≤ month) (hhi : month ≤ 11) :
    normalize ⟨year, month, 1, 0, 0, 0⟩ = .ok (⟨year, month, 1, 0, 0, 0⟩, false) := by
  have hlength : 28 ≤ MONTH month := by
    have hmod : month % 12 = month := by omega
    rcases month_cases month with h | h | h | h | h | h | h | h | h | h | h | h
    all_goals
      rw [hmod] at h
      rw [h]
      decide
  unfold normalize
  dsimp only
  exact if_neg (by omega)

/-! ## Matching a day -/

theorem loose_date {year month day : Int} (hy : -200000 ≤ year) (hy' : year ≤ 200000) (hm : 0 ≤ month) (hm' : month ≤ 12)
    (hd : 0 ≤ day) (hd' : day ≤ 32) : Loose ⟨year, month, day, 0, 0, 0⟩ := by
  constructor
  all_goals
    dsimp only
    omega

theorem weekday_ok {year month : Int} (day : Int) (hy : 1 ≤ year) (hy' : year ≤ 200000) (hm : 0 ≤ month) (hm' : month ≤ 11)
    (hd : 1 ≤ day) (hd' : day ≤ 31) : ∃ w, weekday year month day = .ok w := by
  have hloose : Loose ⟨year, month, day, 0, 0, 0⟩ := loose_date (by omega) hy' hm (by omega) (by omega) (by omega)
  unfold weekday
  rw [hloose.utc_ok]
  exact ⟨_, rfl⟩

theorem MONTH_le {month : Int} (hlo : 0 ≤ month) (hhi : month ≤ 11) : 28 ≤ MONTH month ∧ MONTH month ≤ 31 := by
  have hmod : month % 12 = month := by omega
  rcases month_cases month with h | h | h | h | h | h | h | h | h | h | h | h
  all_goals
    rw [hmod] at h
    rw [h]
    decide

theorem lastDay_ok {year month : Int} (hy : 1 ≤ year) (hy' : year ≤ 200000) (hm : 0 ≤ month) (hm' : month ≤ 11) :
    ∃ last, lastDay year month = .ok last ∧ 1 ≤ last ∧ last ≤ 31 := by
  unfold lastDay
  by_cases hfeb : month ≠ 1
  · have hlength := MONTH_le hm hm'
    rw [if_pos hfeb]
    exact ⟨_, rfl, by omega, by omega⟩
  · have hloose : Loose ⟨year, month + 1, 0, 0, 0, 0⟩ :=
      loose_date (by omega) hy' (by omega) (by omega) (by omega) (by omega)
    have hutc := hloose.utc_ok
    rw [if_neg hfeb]
    unfold utc at hutc
    cases hms : dateUtcMilliseconds year (month + 1) 0 with
    | none =>
      simp only [hms] at hutc
      cases hutc
    | some ms =>
      simp only [hms] at hutc
      have hclip : ms.natAbs ≤ timeClip := by
        by_contra hlarge
        rw [if_neg (by simpa using hlarge)] at hutc
        cases hutc
      obtain ⟨f, hf, hvalid, -⟩ := utcFields_spec hclip
      have hlength := monthLength_le f.monthNumber
      obtain ⟨hday, hday'⟩ := hvalid.date
      refine ⟨f.day, ?_, hday, by omega⟩
      simp only [hf]
      rfl

theorem nearestMatch_ok {f : Fields} {last day : Int} (hy : 1 ≤ f.year) (hy' : f.year ≤ 200000) (hm : 0 ≤ f.month)
    (hm' : f.month ≤ 11) (hlast : last ≤ 31) (masks : List Nat) :
    ∀ {i : Int}, 0 ≤ i → ∃ b, nearestMatch f last day i masks = .ok b := by
  induction masks with
  | nil => exact fun _ => ⟨false, rfl⟩
  | cons bits masks ih =>
    intro i hi
    unfold nearestMatch
    by_cases hskip : bits = 0 ∨ i + 1 > last
    · rw [if_pos hskip]
      exact ih (by omega)
    · obtain ⟨w, hw⟩ := weekday_ok (i + 1) hy hy' hm hm' (by omega) (by omega)
      rw [if_neg hskip, hw]
      change ∃ b, (if day = nearestWeekday w (i + 1) last then pure true else nearestMatch f last day (i + 1) masks) = .ok b
      split
      · exact ⟨true, rfl⟩
      · exact ih (by omega)

theorem dayMatch_ok {p : Pattern} {f : Fields} {day : Int} (hy : 1 ≤ f.year) (hy' : f.year ≤ 200000) (hm : 0 ≤ f.month)
    (hm' : f.month ≤ 11) : ∃ b, dayMatch p f day = .ok b := by
  obtain ⟨last, hlast, hlo, hhi⟩ := lastDay_ok hy hy' hm hm'
  have hmarked : ∃ b, markedMatch p f last day = .ok b := by
    unfold markedMatch
    split
    · exact ⟨true, rfl⟩
    · exact nearestMatch_ok hy hy' hm hm' hhi _ (le_refl 0)
  have hworking : ∃ b, lastWeekdayMatch p f last day = .ok b := by
    obtain ⟨w, hw⟩ := weekday_ok _ hy hy' hm hm' hlo hhi
    unfold lastWeekdayMatch
    split
    · exact ⟨_, bind_eq_ok.mpr ⟨w, hw, rfl⟩⟩
    · exact ⟨false, rfl⟩
  have hweekday : ∀ matched, ∃ b, weekdayMatch p f last day matched = .ok b := by
    intro matched
    obtain ⟨w, hw⟩ := weekday_ok 1 hy hy' hm hm' (by decide) (by decide)
    unfold weekdayMatch
    split
    · exact ⟨matched, rfl⟩
    · exact ⟨_, bind_eq_ok.mpr ⟨w, hw, rfl⟩⟩
  obtain ⟨marked, hmarked⟩ := hmarked
  obtain ⟨working, hworking⟩ := hworking
  obtain ⟨b, hb⟩ := hweekday (marked || working || (p.last && day = last))
  exact ⟨b, bind_eq_ok.mpr ⟨last, hlast, bind_eq_ok.mpr ⟨marked, hmarked, bind_eq_ok.mpr ⟨working, hworking, hb⟩⟩⟩⟩

theorem firstMatch_spec {test : Int → Except String Bool} (htest : ∀ v, ∃ b, test v = .ok b) (left : Nat) :
    ∀ low : Int, (∃ v, firstMatch test left low = .ok (some v) ∧ low ≤ v ∧ v < low + left) ∨
      (firstMatch test left low = .ok none ∧ ∀ v, 0 ≤ v → low ≤ v → v < low + left → test v = .ok false) := by
  induction left with
  | zero =>
    intro low
    exact .inr ⟨rfl, fun v _ hlo hhi => by omega⟩
  | succ left ih =>
    intro low
    unfold firstMatch
    by_cases hneg : low < 0
    · rw [if_pos hneg]
      obtain ⟨v, hv, hlo, hhi⟩ | ⟨hnone, hall⟩ := ih (low + 1)
      · exact .inl ⟨v, hv, by omega, by omega⟩
      · exact .inr ⟨hnone, fun v hv hlo hhi => hall v hv (by omega) (by omega)⟩
    · obtain ⟨b, hb⟩ := htest low
      rw [if_neg hneg, hb]
      cases b with
      | true => exact .inl ⟨low, rfl, le_refl _, by omega⟩
      | false =>
        change (∃ v, firstMatch test left (low + 1) = .ok (some v) ∧ _) ∨ (firstMatch test left (low + 1) = .ok none ∧ _)
        obtain ⟨v, hv, hlo, hhi⟩ | ⟨hnone, hall⟩ := ih (low + 1)
        · exact .inl ⟨v, hv, by omega, by omega⟩
        · refine .inr ⟨hnone, fun v hv hlo hhi => ?_⟩
          obtain heq | hlt := Int.le_iff_eq_or_lt.mp hlo
          · rw [← heq]
            exact hb
          · exact hall v hv (by omega) (by omega)

/-- The highest value of a field. -/
def Stage.high : Stage → Int
  | month => 11
  | day => 31
  | hour => 23
  | minute => 59
  | second => 59

theorem Stage.length_mask (p : Pattern) (stage : Stage) : ((p.mask stage.mask).length : Int) - stage.offset = stage.high + 1 := by
  rw [p.sized]
  cases stage <;> rfl

theorem select_spec {p : Pattern} {f : Fields} {stage : Stage} (hp : p.Marked .month) (hy : 1 ≤ f.year) (hm : 0 ≤ f.month)
    (hm' : f.month ≤ 11) (hyear : stage = .month ∨ f.year < 3000) :
    ∃ selected, stage.select p f = .ok selected ∧ (∀ v, selected = some v → stage.get f ≤ v ∧ v ≤ stage.high) ∧
      (stage = .month → selected = none → f.month ≠ 0) := by
  have htest : ∀ v, ∃ b, stage.test p f v = .ok b := by
    intro v
    unfold Stage.test
    by_cases hday : stage = .day
    · rw [if_pos hday]
      have hlt : f.year < 3000 := hyear.resolve_left (by rw [hday]; decide)
      exact dayMatch_ok hy (by omega) hm hm'
    · rw [if_neg hday]
      exact ⟨_, rfl⟩
  have hlength := stage.length_mask p
  obtain ⟨low, hlow⟩ : ∃ low, low = stage.get f + stage.offset := ⟨_, rfl⟩
  obtain ⟨v, hv, hlo, hhi⟩ | ⟨hnone, hall⟩ :=
    firstMatch_spec htest ((p.mask stage.mask).length - low).toNat low
  · refine ⟨some (v - stage.offset), ?_, ?_, ?_⟩
    · rw [hlow] at hv
      exact bind_eq_ok.mpr ⟨some v, hv, rfl⟩
    · intro w hw
      cases hw
      omega
    · intro _ hnone
      cases hnone
  · refine ⟨none, ?_, ?_, ?_⟩
    · rw [hlow] at hnone
      exact bind_eq_ok.mpr ⟨none, hnone, rfl⟩
    · intro w hw
      cases hw
    · intro hmonth _ hzero
      obtain ⟨bits, hbits, hne⟩ := hp
      obtain ⟨i, hi, hget⟩ := mem_iff_getElem.mp hbits
      subst hmonth
      have hlow0 : low = 0 := by
        rw [hlow]
        change f.month + 0 = 0
        omega
      have hfalse := hall i (by omega) (by omega) (by
        change (i : Int) < low + (((p.mask .month).length : Int) - low).toNat
        omega)
      have hmask : (p.mask .month).getD i 0 = bits := by
        rw [getD_eq_getElem _ _ hi, hget]
      have htrue : Stage.test p f .month i = .ok (decide ((p.mask .month).getD i 0 ≠ 0)) := rfl
      rw [htrue, hmask, decide_eq_true hne] at hfalse
      cases hfalse

/-! ## The last conversion -/

structure Zone.Civil (zone : Zone) : Prop where
  shows : ∀ ms, monthStart (12 * -9998) * DAY ≤ ms → ms < monthStart (12 * 9999) * DAY →
    ∃ f, zone.civil ms = .ok f ∧ f.Valid ∧ -9999 ≤ f.year ∧ f.year ≤ 9999

/-- A local date: that of the zone, with its year counted from 1. -/
structure Local (f : Fields) (bound : Int) : Prop where
  year : 1 ≤ f.year ∧ f.year ≤ bound
  month : 0 ≤ f.month ∧ f.month ≤ 11
  day : 1 ≤ f.day ∧ f.day ≤ 31
  hour : 0 ≤ f.hour ∧ f.hour ≤ 23
  minute : 0 ≤ f.minute ∧ f.minute ≤ 59
  second : 0 ≤ f.second ∧ f.second ≤ 59

theorem Local.loose {f : Fields} {bound : Int} (h : Local f bound) (hb : bound ≤ 200000) : Loose f := by
  obtain ⟨hy, hm, hd, hh, hi, hs⟩ := h
  constructor
  all_goals omega

theorem Fields.Valid.day_le {f : Fields} (h : f.Valid) : 1 ≤ f.day ∧ f.day ≤ 31 := by
  obtain ⟨hd, hd'⟩ := h.date
  have := monthLength_le f.monthNumber
  omega

theorem Fields.Valid.bounds {f : Fields} (h : f.Valid) :
    monthStart (12 * f.year) * 86400 ≤ f.seconds ∧ f.seconds < monthStart (12 * (f.year + 1)) * 86400 :=
  seconds_bounds f h.month h.day_le h.hour h.minute h.second

theorem localFields_ok {zone : Zone} (hzone : zone.Civil) (bound : Int) {ms : Int} (hclip : ms.natAbs ≤ timeClip)
    (hlo : monthStart (12 * -bound) * 86400 ≤ ms / 1000) (hhi : ms / 1000 < monthStart (12 * (bound + 1)) * 86400)
    (hbound : 0 ≤ bound) :
    ∃ f, localFields ms zone true = .ok f ∧ Local f (bound + 20000) := by
  obtain ⟨f, hf, hvalid, hseconds⟩ := utcFields_spec hclip
  have hlow : -bound ≤ f.year := hvalid.le_year (by rw [hseconds]; exact hlo)
  have hhigh : f.year ≤ bound := hvalid.year_le (by rw [hseconds]; exact hhi)
  obtain ⟨year, hyear⟩ : ∃ year, year = if f.year > 9998 then f.year % 400 + 2400
      else if f.year < -9998 then f.year % 400 - 9600 else f.year := ⟨_, rfl⟩
  have hnear : -9998 ≤ year ∧ year ≤ 9998 := by
    split at hyear
    · omega
    · split at hyear <;> omega
  -- the instant that the zone is asked about is one of its own
  have hasked : ∃ representative, (if year = f.year then (pure ms : Except String Int) else utc { f with year }) =
      .ok representative ∧ monthStart (12 * -9998) * DAY ≤ representative ∧ representative < monthStart (12 * 9999) * DAY := by
    have hfirst := monthStart_le (show 12 * -9998 ≤ 12 * year by omega)
    have hlast := monthStart_le (show 12 * (year + 1) ≤ 12 * 9999 by omega)
    by_cases hsame : year = f.year
    · rw [if_pos hsame]
      have hbounds := hvalid.bounds
      rw [← hsame] at hbounds
      refine ⟨ms, rfl, ?_, ?_⟩
      · unfold DAY
        omega
      · unfold DAY
        omega
    · rw [if_neg hsame]
      have hloose : Loose { f with year } := by
        have hd := hvalid.day_le
        obtain ⟨hm, -, hh, hi, hs⟩ := hvalid
        constructor
        all_goals
          dsimp only
          omega
      have hfull : ({ f with year } : Fields).full = { f with year } := by
        have hkept : fullYear year = year := by
          unfold fullYear
          split <;> split at hyear <;> omega
        unfold Fields.full
        rw [hkept]
      have hbounds := seconds_bounds { f with year } hvalid.month hvalid.day_le hvalid.hour hvalid.minute hvalid.second
      dsimp only at hbounds
      refine ⟨_, hloose.utc_ok, ?_, ?_⟩
      · rw [hfull]
        unfold DAY
        omega
      · rw [hfull]
        unfold DAY
        omega
  obtain ⟨representative, hrep, hrlo, hrhi⟩ := hasked
  obtain ⟨g, hg, hgvalid, hglo, hghi⟩ := hzone.shows representative hrlo hrhi
  obtain ⟨shown, hshown⟩ : ∃ shown, shown = g.year + f.year - year := ⟨_, rfl⟩
  have hrange : -9999 - bound ≤ shown ∧ shown ≤ bound + 20000 := by
    split at hyear
    · omega
    · split at hyear <;> omega
  have hrun : localFields ms zone true = .ok { g with year := if shown ≤ 0 then 1 - shown else shown } := by
    unfold localFields
    refine bind_eq_ok.mpr ⟨f, hf, ?_⟩
    simp only [← hyear]
    by_cases hsame : year = f.year
    · rw [if_pos hsame] at hrep ⊢
      refine bind_eq_ok.mpr ⟨representative, hrep, bind_eq_ok.mpr ⟨g, hg, ?_⟩⟩
      simp only [true_and, ← hshown]
      rfl
    · rw [if_neg hsame] at hrep ⊢
      refine bind_eq_ok.mpr ⟨representative, hrep, bind_eq_ok.mpr ⟨g, hg, ?_⟩⟩
      simp only [true_and, ← hshown]
      rfl
  refine ⟨_, hrun, ⟨?_, hgvalid.month, hgvalid.day_le, hgvalid.hour, hgvalid.minute, hgvalid.second⟩⟩
  by_cases hflip : shown ≤ 0
  · simp only [if_pos hflip]
    omega
  · simp only [if_neg hflip]
    omega

theorem Local.utc_ok {f : Fields} {bound : Int} (h : Local f bound) (hb : bound ≤ 200000) :
    utc f = .ok (f.full.seconds * 1000) ∧ monthStart (12 * 100) * 86400 ≤ f.full.seconds ∧
      f.full.seconds < monthStart (12 * (max bound 1999 + 1)) * 86400 := by
  have hbounds := seconds_bounds f.full h.month h.day h.hour h.minute h.second
  have hfull : 100 ≤ f.full.year ∧ f.full.year ≤ max bound 1999 := by
    have hy := h.year
    unfold Fields.full fullYear
    dsimp only
    split <;> omega
  have hlow := monthStart_le (show 12 * 100 ≤ 12 * f.full.year by omega)
  have hhigh := monthStart_le (show 12 * (f.full.year + 1) ≤ 12 * (max bound 1999 + 1) by omega)
  exact ⟨(h.loose hb).utc_ok, by omega, by omega⟩

theorem localFields_seconds {zone : Zone} (hzone : zone.Civil) (v bound : Int) (hlo : monthStart (12 * -bound) * 86400 ≤ v)
    (hhi : v < monthStart (12 * (bound + 1)) * 86400) (h0 : 0 ≤ bound) (hbound : bound ≤ 100000) :
    ∃ f, localFields (v * 1000) zone true = .ok f ∧ Local f (bound + 20000) := by
  have hfirst : monthStart (-2400000) = -73768028 := by decide
  have hlast : monthStart 2400012 = 72329338 := by decide
  have hlow := monthStart_le (show -2400000 ≤ 12 * -bound by omega)
  have hhigh := monthStart_le (show 12 * (bound + 1) ≤ 2400012 by omega)
  have hclip : (v * 1000).natAbs ≤ timeClip := by
    unfold timeClip
    omega
  exact localFields_ok hzone _ hclip (by omega) (by omega) h0

theorem fromTz_ok {zone : Zone} (hzone : zone.Civil) {f : Fields} (hf : Local f 2999) : ∃ t, fromTz f zone = .ok t := by
  have h100 : monthStart (12 * 100) = -683003 := by decide
  have h3000 : monthStart (12 * (2999 + 1)) = 376200 := by decide
  have h23000 : monthStart (12 * (2999 + 20000 + 1)) = 7681050 := by decide
  have h43000 : monthStart (12 * (23000 + 20000 + 1)) = 14986265 := by decide
  have hneg3000 : monthStart (12 * -2999) ≤ -683003 := by decide
  have hneg23000 : monthStart (12 * -23000) = -9120105 := by decide
  have hpos23000 : 7681050 ≤ monthStart (12 * (23000 + 1)) := by decide
  have hneg66000 : monthStart (12 * -66000) = -24825533 := by decide
  have hpos66000 : 7681050 ≤ monthStart (12 * (66000 + 1)) := by decide
  obtain ⟨hutc, hlo, hhi⟩ := hf.utc_ok (by decide)
  rw [max_eq_left (by decide)] at hhi
  obtain ⟨r, hr, hrlocal⟩ := localFields_seconds hzone f.full.seconds 2999 (by omega) hhi (by decide) (by decide)
  obtain ⟨hrutc, hrlo, hrhi⟩ := hrlocal.utc_ok (by decide)
  rw [max_eq_left (by decide)] at hrhi
  have hfirst : f.full.seconds * 1000 + f.full.seconds * 1000 - r.full.seconds * 1000 =
      (2 * f.full.seconds - r.full.seconds) * 1000 := by omega
  obtain ⟨h, hh, hhlocal⟩ := localFields_seconds hzone (2 * f.full.seconds - r.full.seconds) 23000 (by omega)
    (by omega) (by decide) (by decide)
  obtain ⟨hhutc, hhlo, hhhi⟩ := hhlocal.utc_ok (by decide)
  rw [max_eq_left (by decide)] at hhhi
  unfold fromTz
  by_cases hsame : h = f
  · have hearlier : (2 * f.full.seconds - r.full.seconds) * 1000 - 3600000 =
        (2 * f.full.seconds - r.full.seconds - 3600) * 1000 := by omega
    obtain ⟨e, he, -⟩ := localFields_seconds hzone (2 * f.full.seconds - r.full.seconds - 3600) 23000
      (by omega) (by omega) (by decide) (by decide)
    refine ⟨if e = f then (2 * f.full.seconds - r.full.seconds - 3600) * 1000
      else (2 * f.full.seconds - r.full.seconds) * 1000, ?_⟩
    refine bind_eq_ok.mpr ⟨_, hutc, bind_eq_ok.mpr ⟨r, hr, bind_eq_ok.mpr ⟨_, hutc, bind_eq_ok.mpr ⟨_, hrutc, ?_⟩⟩⟩⟩
    dsimp only
    rw [hfirst]
    refine bind_eq_ok.mpr ⟨h, hh, ?_⟩
    rw [if_pos hsame, hearlier]
    exact bind_eq_ok.mpr ⟨e, he, rfl⟩
  · have hsecond : (2 * f.full.seconds - r.full.seconds) * 1000 + f.full.seconds * 1000 - h.full.seconds * 1000 =
        (3 * f.full.seconds - r.full.seconds - h.full.seconds) * 1000 := by omega
    obtain ⟨e, he, -⟩ := localFields_seconds hzone (3 * f.full.seconds - r.full.seconds - h.full.seconds) 66000
      (by omega) (by omega) (by decide) (by decide)
    refine ⟨if e = f then (3 * f.full.seconds - r.full.seconds - h.full.seconds) * 1000
      else max ((2 * f.full.seconds - r.full.seconds) * 1000) ((3 * f.full.seconds - r.full.seconds - h.full.seconds) * 1000), ?_⟩
    refine bind_eq_ok.mpr ⟨_, hutc, bind_eq_ok.mpr ⟨r, hr, bind_eq_ok.mpr ⟨_, hutc, bind_eq_ok.mpr ⟨_, hrutc, ?_⟩⟩⟩⟩
    dsimp only
    rw [hfirst]
    refine bind_eq_ok.mpr ⟨h, hh, ?_⟩
    rw [if_neg hsame]
    refine bind_eq_ok.mpr ⟨_, hutc, bind_eq_ok.mpr ⟨_, hhutc, ?_⟩⟩
    rw [hsecond]
    exact bind_eq_ok.mpr ⟨e, he, rfl⟩

/-! ## What one turn moves -/

/-- A date of the search: valid, or the midnight after a valid one. -/
structure Ready (f : Fields) : Prop where
  year : 1 ≤ f.year
  month : 0 ≤ f.month ∧ f.month ≤ 11
  date : IsDate f.monthNumber f.day
  hour : 0 ≤ f.hour ∧ f.hour ≤ 24
  minute : 0 ≤ f.minute ∧ f.minute ≤ 59
  second : 0 ≤ f.second ∧ f.second ≤ 59
  midnight : f.hour = 24 → f.minute = 0 ∧ f.second = 0

theorem Ready.day_le {f : Fields} (h : Ready f) : 1 ≤ f.day ∧ f.day ≤ 31 := by
  obtain ⟨hd, hd'⟩ := h.date
  have := monthLength_le f.monthNumber
  omega

/-- Twice the seconds of a date; a midnight written as 24:00 comes just before the same one of the next day. -/
def Fields.potential (f : Fields) : Int := 2 * f.seconds - if f.hour = 24 then 1 else 0

theorem Fields.potential_le (f : Fields) : 2 * f.seconds - 1 ≤ f.potential ∧ f.potential ≤ 2 * f.seconds := by
  unfold Fields.potential
  split <;> omega

theorem Fields.potential_of_ne {f : Fields} (h : f.hour ≠ 24) : f.potential = 2 * f.seconds := by
  unfold Fields.potential
  rw [if_neg h]
  omega

theorem Ready.potential_lt {f g : Fields} (h : Ready f) (hday : dayNumber f.monthNumber f.day < dayNumber g.monthNumber g.day)
    (hh : g.hour = 0) (hi : g.minute = 0) (hs : g.second = 0) : f.potential < g.potential := by
  have hg : g.potential = 2 * g.seconds := Fields.potential_of_ne (by omega)
  obtain ⟨-, -, -, hhour, hminute, hsecond, hmidnight⟩ := h
  rw [hg]
  unfold Fields.potential Fields.seconds
  by_cases h24 : f.hour = 24
  · obtain ⟨hm0, hs0⟩ := hmidnight h24
    rw [if_pos h24]
    omega
  · rw [if_neg h24]
    omega

theorem Ready.potential_lt_time {f g : Fields} (hf : f.hour ≤ 23)
    (hday : dayNumber f.monthNumber f.day = dayNumber g.monthNumber g.day)
    (htime : f.hour * 3600 + f.minute * 60 + f.second < g.hour * 3600 + g.minute * 60 + g.second) :
    f.potential < g.potential := by
  have hlow := g.potential_le
  rw [Fields.potential_of_ne (show f.hour ≠ 24 by omega)]
  unfold Fields.seconds at *
  omega

/-- What a field above counts to, or the field itself moves to, before the date is normalized. -/
structure Moved (f g : Fields) : Prop where
  loose : Loose g
  year : 1 ≤ g.year
  day : 1 ≤ g.day
  midnight : g.hour = 24 → g.minute = 0 ∧ g.second = 0
  later : f.potential < g.potential

theorem nextMonth_day {f : Fields} (h : Ready f) : dayNumber f.monthNumber f.day < dayNumber (f.monthNumber + 1) 1 := by
  obtain ⟨-, hlt⟩ := isDate_bounds h.date
  unfold dayNumber at hlt ⊢
  omega

/-- The date when the field above is counted up. -/
def Stage.over (f : Fields) : Stage → Fields
  | month => ⟨f.year + 1, 0, 1, 0, 0, 0⟩
  | day => ⟨f.year, f.month + 1, 1, 0, 0, 0⟩
  | hour => ⟨f.year, f.month, f.day + 1, 0, 0, 0⟩
  | minute => ⟨f.year, f.month, f.day, f.hour + 1, 0, 0⟩
  | second => ⟨f.year, f.month, f.day, f.hour, f.minute + 1, 0⟩

def Stage.put (f : Fields) (value : Int) : Stage → Fields
  | month => ⟨f.year, value, 1, 0, 0, 0⟩
  | day => ⟨f.year, f.month, value, 0, 0, 0⟩
  | hour => ⟨f.year, f.month, f.day, value, 0, 0⟩
  | minute => ⟨f.year, f.month, f.day, f.hour, value, 0⟩
  | second => ⟨f.year, f.month, f.day, f.hour, f.minute, value⟩

theorem carry_reset (f : Fields) (stage : Stage) : stage.carry (stage.set (stage.reset f) (-stage.offset)) = stage.over f := by
  cases stage <;> rfl

theorem set_reset (f : Fields) (value : Int) (stage : Stage) : stage.set (stage.reset f) value = stage.put f value := by
  cases stage <;> rfl

theorem over_loose {f : Fields} (h : Ready f) (hyear : f.year ≤ 2999) {stage : Stage}
    (hstage : stage = .minute ∨ stage = .second → f.hour ≤ 23) : Loose (stage.over f) := by
  have hd := h.day_le
  obtain ⟨hy, hm, -, hh, hi, hs, -⟩ := h
  have hlow : stage = .minute → f.hour ≤ 23 := fun heq => hstage (.inl heq)
  constructor
  all_goals
    cases stage <;> simp only [Stage.over] <;> grind

theorem put_loose {f : Fields} (h : Ready f) (hyear : f.year ≤ 2999) {stage : Stage} {value : Int}
    (hlo : stage.get f ≤ value) (hhi : value ≤ stage.high) : Loose (stage.put f value) := by
  have hd := h.day_le
  obtain ⟨hy, hm, -, hh, hi, hs, -⟩ := h
  constructor
  all_goals
    cases stage <;> simp only [Stage.put, Stage.get, Stage.high] at * <;> grind

theorem over_later {f : Fields} (h : Ready f) {stage : Stage} (hstage : stage = .minute ∨ stage = .second → f.hour ≤ 23) :
    f.potential < (stage.over f).potential := by
  have hnext := nextMonth_day h
  cases stage with
  | month =>
    apply h.potential_lt _ rfl rfl rfl
    have hm := h.month
    have hle := monthStart_le (show f.monthNumber + 1 ≤ 12 * (f.year + 1) + 0 by unfold Fields.monthNumber; omega)
    change _ < dayNumber (12 * (f.year + 1) + 0) 1
    unfold dayNumber at hnext ⊢
    omega
  | day =>
    apply h.potential_lt _ rfl rfl rfl
    change _ < dayNumber (12 * f.year + (f.month + 1)) 1
    rw [← Int.add_assoc]
    exact hnext
  | hour =>
    apply h.potential_lt _ rfl rfl rfl
    change dayNumber f.monthNumber f.day < dayNumber f.monthNumber (f.day + 1)
    unfold dayNumber
    omega
  | minute =>
    have hi := h.minute
    have hs := h.second
    apply Ready.potential_lt_time (hstage (.inl rfl))
    · rfl
    · simp only [Stage.over]
      omega
  | second =>
    have hs := h.second
    apply Ready.potential_lt_time (hstage (.inr rfl))
    · rfl
    · simp only [Stage.over]
      omega

theorem over_moved {f : Fields} (h : Ready f) (hyear : f.year ≤ 2999) {stage : Stage}
    (hstage : stage = .minute ∨ stage = .second → f.hour ≤ 23) : Moved f (stage.over f) := by
  refine ⟨over_loose h hyear hstage, ?_, ?_, ?_, over_later h hstage⟩
  · have := h.year
    cases stage <;> simp only [Stage.over] <;> omega
  · have := h.day_le
    cases stage <;> simp only [Stage.over] <;> omega
  · intro h24
    cases stage with
    | month | day | hour => exact absurd (show (0 : Int) = 24 from h24) (by decide)
    | minute => exact ⟨rfl, rfl⟩
    | second =>
      have := hstage (.inr rfl)
      simp only [Stage.over] at h24
      omega

theorem put_moved {f : Fields} (h : Ready f) (hyear : f.year ≤ 2999) {stage : Stage} {value : Int}
    (hstage : stage = .minute ∨ stage = .second → f.hour ≤ 23) (hlt : stage.get f < value) (hhi : value ≤ stage.high) :
    Moved f (stage.put f value) := by
  refine ⟨put_loose h hyear (le_of_lt hlt) hhi, ?_, ?_, ?_, ?_⟩
  · have := h.year
    cases stage <;> exact this
  · have := h.day_le
    cases stage <;> simp only [Stage.put, Stage.get] at * <;> omega
  · intro h24
    have hlow := fun heq => hstage heq
    cases stage with
    | month | day => exact absurd (show (0 : Int) = 24 from h24) (by decide)
    | hour =>
      simp only [Stage.put, Stage.high] at *
      omega
    | minute =>
      have := hstage (.inl rfl)
      simp only [Stage.put] at h24
      omega
    | second =>
      have := hstage (.inr rfl)
      simp only [Stage.put] at h24
      omega
  · cases stage with
    | month =>
      have hnext := nextMonth_day h
      simp only [Stage.get] at hlt
      apply h.potential_lt _ rfl rfl rfl
      have hle := monthStart_le (show f.monthNumber + 1 ≤ 12 * f.year + value by unfold Fields.monthNumber; omega)
      change _ < dayNumber (12 * f.year + value) 1
      unfold dayNumber at hnext ⊢
      omega
    | day =>
      simp only [Stage.get] at hlt
      apply h.potential_lt _ rfl rfl rfl
      change dayNumber f.monthNumber f.day < dayNumber f.monthNumber value
      unfold dayNumber
      omega
    | hour =>
      have hi := h.minute
      have hs := h.second
      simp only [Stage.get, Stage.high] at hlt hhi
      apply Ready.potential_lt_time (by omega)
      · rfl
      · simp only [Stage.put]
        omega
    | minute =>
      have hs := h.second
      simp only [Stage.get] at hlt
      apply Ready.potential_lt_time (hstage (.inl rfl))
      · rfl
      · simp only [Stage.put]
        omega
    | second =>
      simp only [Stage.get] at hlt
      apply Ready.potential_lt_time (hstage (.inr rfl))
      · rfl
      · simp only [Stage.put]
        omega

theorem year_le_seconds {g : Fields} {year : Int} (hy : year ≤ g.year) (hm : 0 ≤ g.month) (hd : 1 ≤ g.day) (hh : 0 ≤ g.hour)
    (hi : 0 ≤ g.minute) (hs : 0 ≤ g.second) : monthStart (12 * year) * 86400 ≤ g.seconds := by
  have hle := monthStart_le (show 12 * year ≤ g.monthNumber by unfold Fields.monthNumber; omega)
  unfold Fields.seconds dayNumber
  omega

theorem Moved.normalize {f g : Fields} (h : Moved f g) :
    ∃ g' changed, Cron.normalize g = .ok (g', changed) ∧ Ready g' ∧ f.potential < g'.potential ∧
      (changed = true → g'.Valid ∧ g'.seconds = g.full.seconds) ∧ (changed = false → g' = g) := by
  obtain ⟨hloose, hy, hd, hmid, hlater⟩ := h
  obtain ⟨⟨g', changed⟩, hr⟩ := hloose.normalize_ok
  refine ⟨g', changed, hr, ?_⟩
  obtain ⟨hc, hg, hmonth, hdate, hhour, hminute, hsecond⟩ | ⟨hc, hvalid, hseconds⟩ := normalize_cases hr
  · subst hg hc
    have hh := hloose.hour
    refine ⟨⟨hy, hmonth, hdate, ⟨hhour, hh.2⟩, hminute, hsecond, hmid⟩, hlater, ?_, fun _ => rfl⟩
    exact fun hfalse => absurd hfalse Bool.false_ne_true
  · subst hc
    have hfull := g.seconds_le_full
    have hpot := g.potential_le
    have hpot' : g'.potential = 2 * g'.seconds := Fields.potential_of_ne (by have := hvalid.hour; omega)
    have hfirst : monthStart (12 * 1) * 86400 ≤ g.seconds :=
      year_le_seconds hy hloose.month.1 hd hloose.hour.1 hloose.minute.1 hloose.second.1
    have hyear : 1 ≤ g'.year := hvalid.le_year (by omega)
    obtain ⟨hm, hdate, hh, hi, hs⟩ := hvalid
    refine ⟨⟨hyear, hm, hdate, by omega, hi, hs, fun h24 => by omega⟩, by omega, fun _ => ⟨⟨hm, hdate, hh, hi, hs⟩, hseconds⟩, ?_⟩
    exact fun hfalse => absurd hfalse.symm Bool.false_ne_true

/-! ## Turns -/

/-- What the search keeps: a year that is past the last one is seen before any field below the month, and 24:00 before
the minutes. -/
structure Inv (s : Search) : Prop where
  ready : Ready s.fields
  year : s.stage = .month ∨ s.fields.year ≤ 2999
  hour : s.stage = .minute ∨ s.stage = .second → s.fields.hour ≤ 23

def Moves (s s' : Search) : Prop :=
  (s'.fields = s.fields ∧ s.stage.next = some s'.stage) ∨ s.fields.potential < s'.fields.potential

/-- What a turn does: it leaves, or it goes on as `Moves` says. Past the last year it starts over in a January. -/
def Turned (s : Search) : Turn Search (Option Int) → Prop
  | .leave _ => True
  | .again s' => Inv s' ∧ Moves s s' ∧
      (2999 < s.fields.year → 2999 < s'.fields.year ∧ s.fields.month ≠ 0 ∧ s'.fields.month = 0 ∧ s'.stage = .month)

theorem settle_spec {zone : Zone} (hzone : zone.Civil) (s : Search) {f : Fields} (stage : Stage)
    (hready : Ready f) (hstage : stage = .hour ∨ stage = .minute ∨ stage = .second → f.hour ≤ 23)
    (hyear : stage = .second → f.year ≤ 2999) (hsame : s.fields.year = f.year)
    (hmoves : ∀ next, stage.next = some next → Moves s ⟨f, next⟩) :
    ∃ t, settle zone f stage = .ok t ∧ Turned s t := by
  unfold settle
  cases hnext : stage.next with
  | none =>
    have hsecond : stage = .second := by cases stage <;> first | rfl | cases hnext
    have hlocal : Local f 2999 := by
      have hd := hready.day_le
      have hlow := hstage (.inr (.inr hsecond))
      have hlast := hyear hsecond
      obtain ⟨hy, hm, -, hh, hi, hs, -⟩ := hready
      exact ⟨⟨hy, hlast⟩, hm, hd, ⟨hh.1, hlow⟩, hi, hs⟩
    obtain ⟨t, ht⟩ := fromTz_ok hzone hlocal
    exact ⟨.leave (some t), bind_eq_ok.mpr ⟨t, ht, rfl⟩, trivial⟩
  | some next =>
    by_cases hlate : f.year ≥ 3000
    · exact ⟨.leave none, if_pos hlate, trivial⟩
    · refine ⟨.again ⟨f, next⟩, if_neg hlate, ⟨hready, .inr ?_, ?_⟩, hmoves next hnext, ?_⟩
      · change f.year ≤ 2999
        omega
      · intro hlow
        apply hstage
        cases stage with
        | month | day =>
          cases hnext
          obtain hlow | hlow := hlow <;> cases hlow
        | hour => exact .inl rfl
        | minute => exact .inr (.inl rfl)
        | second => exact .inr (.inr rfl)
      · intro hpast
        omega

theorem ready_first {year month : Int} (hy : 1 ≤ year) (hm : 0 ≤ month) (hm' : month ≤ 11) : Ready ⟨year, month, 1, 0, 0, 0⟩ := by
  have hlength := monthLength_le (12 * year + month)
  refine ⟨hy, ⟨hm, hm'⟩, ⟨le_refl _, ?_⟩, ?_, ?_, ?_, fun _ => ⟨rfl, rfl⟩⟩
  · change 1 ≤ monthLength (12 * year + month)
    omega
  all_goals exact ⟨le_refl _, show (0 : Int) ≤ _ by decide⟩

theorem move_none {zone : Zone} {s : Search} (hs : Inv s) (hzero : s.stage = .month → s.fields.month ≠ 0) :
    ∃ t, move zone s.fields s.stage none = .ok t ∧ Turned s t := by
  have hmove : move zone s.fields s.stage none =
      (normalize (s.stage.over s.fields) >>= fun r => pure (.again ⟨r.1, .month⟩)) := by
    unfold move
    rw [if_neg (Option.some_ne_none _).symm, carry_reset]
  have hmonth : ¬(Stage.month = .minute ∨ Stage.month = .second) := by decide
  rw [hmove]
  by_cases hlate : s.fields.year ≤ 2999
  · obtain ⟨g, changed, hg, hready, hlater, -, -⟩ := (over_moved hs.ready hlate hs.hour).normalize
    refine ⟨.again ⟨g, .month⟩, bind_eq_ok.mpr ⟨_, hg, rfl⟩, ⟨hready, .inl rfl, fun h => absurd h hmonth⟩, .inr hlater, ?_⟩
    exact fun hpast => absurd hlate (Int.not_le.mpr hpast)
  · have hstage : s.stage = .month := hs.year.resolve_right hlate
    have hover : s.stage.over s.fields = ⟨s.fields.year + 1, 0, 1, 0, 0, 0⟩ := by rw [hstage]; rfl
    have hlater := over_later hs.ready hs.hour
    have hy := hs.ready.year
    rw [hover] at hlater ⊢
    refine ⟨.again ⟨_, .month⟩, bind_eq_ok.mpr ⟨_, normalize_first _ (by decide) (by decide), rfl⟩,
      ⟨ready_first (by omega) (by decide) (by decide), .inl rfl, fun h => absurd h hmonth⟩, .inr hlater, fun _ => ?_⟩
    refine ⟨?_, hzero hstage, rfl, rfl⟩
    change 2999 < s.fields.year + 1
    omega

theorem put_year (f : Fields) (value : Int) (stage : Stage) : (stage.put f value).year = f.year := by
  cases stage <;> rfl

theorem put_hour_le {f : Fields} {value : Int} {stage : Stage} (hstage : stage = .minute ∨ stage = .second → f.hour ≤ 23)
    (hhi : value ≤ stage.high) (h : stage = .hour ∨ stage = .minute ∨ stage = .second) : (stage.put f value).hour ≤ 23 := by
  obtain rfl | rfl | rfl := h
  · exact hhi
  · exact hstage (.inl rfl)
  · exact hstage (.inr rfl)

theorem put_full_lt {f : Fields} (h : Ready f) (hyear : f.year ≤ 2999) {stage : Stage} {value : Int} (hmonth : stage ≠ .month)
    (hday : stage ≠ .day) (hstage : stage = .minute ∨ stage = .second → f.hour ≤ 23) (hhi : value ≤ stage.high)
    (hlo : stage.get f ≤ value) : (stage.put f value).full.seconds < monthStart (12 * (2999 + 1)) * 86400 := by
  have hd := h.day_le
  have hfull : (stage.put f value).full.year ≤ 2999 := by
    unfold Fields.full fullYear
    rw [put_year]
    dsimp only
    split <;> omega
  have hlast := monthStart_le (show 12 * ((stage.put f value).full.year + 1) ≤ 12 * (2999 + 1) by omega)
  obtain ⟨-, hm, -, hh, hi, hs, -⟩ := h
  have hbounds : (stage.put f value).full.seconds < monthStart (12 * ((stage.put f value).full.year + 1)) * 86400 := by
    apply (seconds_bounds _ ?_ ?_ ?_ ?_ ?_).2
    all_goals
      cases stage <;> simp only [Fields.full, Stage.put, Stage.get, Stage.high] at * <;> grind
  omega

theorem move_some {zone : Zone} (hzone : zone.Civil) {s : Search} (hs : Inv s) {value : Int}
    (hlt : s.stage.get s.fields < value) (hhi : value ≤ s.stage.high) :
    ∃ t, move zone s.fields s.stage (some value) = .ok t ∧ Turned s t := by
  have hmove : move zone s.fields s.stage (some value) = (normalize (s.stage.put s.fields value) >>= fun r =>
        if r.2 then pure (.again ⟨r.1, s.stage.back⟩) else settle zone r.1 s.stage) := by
    have hne : some value ≠ some (s.stage.get s.fields) := fun h => by
      have := Option.some.inj h
      omega
    rw [← set_reset]
    unfold move
    rw [if_neg hne]
  rw [hmove]
  by_cases hlate : s.fields.year ≤ 2999
  · obtain ⟨g, changed, hg, hready, hlater, hchanged, hkept⟩ := (put_moved hs.ready hlate hs.hour hlt hhi).normalize
    cases changed with
    | true =>
      obtain ⟨hvalid, hseconds⟩ := hchanged rfl
      have hlast : s.stage.back = .month ∨ g.year ≤ 2999 := by
        by_cases hback : s.stage.back = .month
        · exact .inl hback
        · exact .inr (hvalid.year_le (hseconds ▸ put_full_lt hs.ready hlate (fun h => hback (by rw [h]; rfl))
            (fun h => hback (by rw [h]; rfl)) hs.hour hhi (le_of_lt hlt)))
      exact ⟨.again ⟨g, s.stage.back⟩, bind_eq_ok.mpr ⟨_, hg, rfl⟩,
        ⟨hready, hlast, fun _ => hvalid.hour.2⟩, .inr hlater, fun hpast => absurd hlate (Int.not_le.mpr hpast)⟩
    | false =>
      have hgeq := hkept rfl
      obtain ⟨t, ht, hturned⟩ := settle_spec hzone s s.stage hready
        (fun hstage => by rw [hgeq]; exact put_hour_le hs.hour hhi hstage)
        (fun hstage => by rw [hgeq, put_year]; exact hlate) (by rw [hgeq, put_year])
        (fun next _ => .inr hlater)
      exact ⟨t, bind_eq_ok.mpr ⟨_, hg, ht⟩, hturned⟩
  · have hstage : s.stage = .month := hs.year.resolve_right hlate
    have hput : s.stage.put s.fields value = ⟨s.fields.year, value, 1, 0, 0, 0⟩ := by rw [hstage]; rfl
    have hfirst : normalize ⟨s.fields.year, value, 1, 0, 0, 0⟩ = .ok (⟨s.fields.year, value, 1, 0, 0, 0⟩, false) := by
      have hm := hs.ready.month
      rw [hstage] at hlt hhi
      simp only [Stage.get, Stage.high] at hlt hhi
      exact normalize_first _ (by omega) hhi
    rw [hput]
    refine ⟨.leave none, bind_eq_ok.mpr ⟨_, hfirst, ?_⟩, trivial⟩
    rw [hstage]
    exact if_pos (show 3000 ≤ s.fields.year by omega)

theorem turn_spec {p : Pattern} {zone : Zone} (hp : p.Marked .month) (hzone : zone.Civil) {s : Search} (hs : Inv s) :
    ∃ t, turn p zone s = .ok t ∧ Turned s t := by
  have hyear : s.stage = .month ∨ s.fields.year < 3000 := by
    obtain h | h := hs.year
    · exact .inl h
    · exact .inr (by omega)
  obtain ⟨selected, hselect, hbound, hzero⟩ :=
    select_spec hp hs.ready.year hs.ready.month.1 hs.ready.month.2 hyear
  have hmove : ∃ t, move zone s.fields s.stage selected = .ok t ∧ Turned s t := by
    cases selected with
    | none => exact move_none hs (fun h => hzero h rfl)
    | some value =>
      obtain ⟨hlo, hhi⟩ := hbound value rfl
      obtain heq | hlt := Int.le_iff_eq_or_lt.mp hlo
      · have hsettle : move zone s.fields s.stage (some value) = settle zone s.fields s.stage := if_pos (by rw [heq])
        rw [hsettle]
        refine settle_spec hzone _ _ hs.ready ?_ (fun h => ?_) rfl (fun next hnext => .inl ⟨rfl, hnext⟩)
        · rintro (h | h)
          · rw [h] at heq hhi
            simp only [Stage.get, Stage.high] at heq hhi
            omega
          · exact hs.hour h
        · obtain hmonth | hlast := hs.year
          · rw [h] at hmonth
            cases hmonth
          · exact hlast
      · exact move_some hzone hs hlt hhi
  obtain ⟨t, ht, hturned⟩ := hmove
  exact ⟨t, bind_eq_ok.mpr ⟨selected, hselect, ht⟩, hturned⟩

/-! ## The loop -/

def Stage.index : Stage → Int
  | month => 0
  | day => 1
  | hour => 2
  | minute => 3
  | second => 4

theorem Stage.index_next {stage next : Stage} (h : stage.next = some next) : next.index = stage.index + 1 := by
  cases stage <;> cases h <;> rfl

theorem Stage.index_le (stage : Stage) : 0 ≤ stage.index ∧ stage.index ≤ 4 := by
  cases stage <;> decide

/-- The turns left: ten for each step of the date before the year 3000, less one for each field that is done. -/
def Search.left (s : Search) : Nat :=
  if 2999 < s.fields.year then s.fields.month.toNat
  else (12 + 10 * (2 * (monthStart (12 * 3000) * 86400) - s.fields.potential + 1) - s.stage.index).toNat

theorem Ready.potential_le_limit {f : Fields} (h : Ready f) (hyear : f.year ≤ 2999) :
    f.potential ≤ 2 * (monthStart (12 * 3000) * 86400) := by
  obtain ⟨-, hm, hdate, hh, hi, hs, hmid⟩ := h
  obtain ⟨-, hday⟩ := isDate_bounds hdate
  have hlast := monthStart_le (show f.monthNumber + 1 ≤ 12 * 3000 by unfold Fields.monthNumber; omega)
  have hpot := f.potential_le
  unfold Fields.seconds at hpot
  by_cases h24 : f.hour = 24
  · have := hmid h24
    omega
  · omega

theorem Turned.left_lt {s s' : Search} (hs : Inv s) (h : Turned s (.again s')) : s'.left < s.left := by
  obtain ⟨hinv, hmoves, hpast⟩ := h
  have hm := hs.ready.month
  have hm' := hinv.ready.month
  have hindex := s.stage.index_le
  have hindex' := s'.stage.index_le
  unfold Search.left
  by_cases hlate : 2999 < s.fields.year
  · obtain ⟨hlate', hne, hzero, -⟩ := hpast hlate
    rw [if_pos hlate, if_pos hlate']
    omega
  · have hlimit := hs.ready.potential_le_limit (by omega)
    rw [if_neg hlate]
    by_cases hlate' : 2999 < s'.fields.year
    · rw [if_pos hlate']
      omega
    · have hlimit' := hinv.ready.potential_le_limit (by omega)
      rw [if_neg hlate']
      obtain ⟨hsame, hnext⟩ | hlater := hmoves
      · have := Stage.index_next hnext
        rw [hsame]
        omega
      · omega

theorem searchStart_ready {zone : Zone} (hzone : zone.Civil) {after : Int} (hafter : after.natAbs ≤ timeClip) {f : Fields}
    (h : searchStart zone after = .ok f) : Inv ⟨f, .month⟩ := by
  have hfirst : monthStart (12 * -300000) = -110292278 := by decide
  have hlast : monthStart (12 * (300000 + 1)) = 108853588 := by decide
  unfold timeClip at hafter
  obtain ⟨g, hg, hlocal⟩ := localFields_ok hzone 300000 hafter (by omega) (by omega) (by decide)
  obtain ⟨g', hg', h⟩ := bind_eq_ok.mp h
  rw [hg] at hg'
  cases hg'
  obtain ⟨⟨f', changed⟩, hnormal, h⟩ := bind_eq_ok.mp h
  cases h
  obtain ⟨hy, hm, hd, hh, hi, hs⟩ := hlocal
  have hmonth : ¬(Stage.month = .minute ∨ Stage.month = .second) := by decide
  refine ⟨?_, .inl rfl, fun hstage => absurd hstage hmonth⟩
  obtain ⟨-, rfl, hmonth, hdate, -, hminute, hsecond⟩ | ⟨-, hvalid, hseconds⟩ := normalize_cases hnormal
  · refine ⟨hy.1, hmonth, hdate, ⟨hh.1, ?_⟩, hminute, hsecond, fun h24 => ?_⟩
    · change g.hour ≤ 24
      omega
    · change g.hour = 24 at h24
      omega
  · have hstart : monthStart (12 * 1) * 86400 ≤ ({ g with second := g.second + 1 } : Fields).seconds :=
      year_le_seconds hy.1 hm.1 hd.1 hh.1 hi.1 (by change 0 ≤ g.second + 1; omega)
    have hfull := ({ g with second := g.second + 1 } : Fields).seconds_le_full
    have hyear : 1 ≤ f.year := hvalid.le_year (by omega)
    obtain ⟨hm, hdate, hh, hi, hs⟩ := hvalid
    exact ⟨hyear, hm, hdate, ⟨hh.1, by change f.hour ≤ 24; omega⟩, hi, hs, fun h24 => by change f.hour = 24 at h24; omega⟩

theorem reaches_inv {p : Pattern} {zone : Zone} (hp : p.Marked .month) (hzone : zone.Civil) {n : Nat} :
    ∀ {s s' : Search}, Inv s → Lib.Reaches (turn p zone) n s s' → Inv s' := by
  induction n with
  | zero =>
    intro s s' hs h
    cases h
    exact hs
  | succ n ih =>
    intro s s' hs h
    obtain ⟨next, hturn, hrest⟩ := h
    obtain ⟨t, ht, hturned⟩ := turn_spec hp hzone hs
    rw [hturn] at ht
    cases ht
    exact ih hturned.1 hrest

theorem loop_ends {p : Pattern} {zone : Zone} (hp : p.Marked .month) (hzone : zone.Civil) {s : Search} (hs : Inv s) :
    ∃ turns date, loop (turn p zone) turns s = some (.ok date) := by
  have hstep : ∀ s, Inv s → ∃ t, turn p zone s = .ok t ∧ t.Steps Inv Search.left (fun _ => True) s := by
    intro s hs
    obtain ⟨t, ht, hturned⟩ := turn_spec hp hzone hs
    refine ⟨t, ht, ?_⟩
    cases t with
    | leave date => trivial
    | again s' => exact ⟨hturned.1, hturned.left_lt hs⟩
  obtain ⟨turns, date, hloop, -⟩ := loop_total hstep hs
  exact ⟨turns, date, hloop⟩

/-- What a turn that goes on does to the date: it moves it forward, or it keeps it and goes on to the next field, or it
writes a midnight as that of the next day. -/
def Advances (s s' : Search) : Prop :=
  s.fields.seconds < s'.fields.seconds ∨ (s'.fields = s.fields ∧ s.stage.next = some s'.stage) ∨
    (s.fields.hour = 24 ∧ s'.fields.hour ≠ 24 ∧ s'.fields.seconds = s.fields.seconds)

theorem Moves.advances {s s' : Search} (h : Moves s s') : Advances s s' := by
  obtain hsame | hlater := h
  · exact .inr (.inl hsame)
  · obtain hlt | hge := Int.lt_or_le s.fields.seconds s'.fields.seconds
    · exact .inl hlt
    · unfold Fields.potential at hlater
      split at hlater <;> split at hlater <;> first | omega | exact .inr (.inr ⟨‹_›, ‹_›, by omega⟩)

/-- The search of an accepted pattern ends with an instant or with none, from the local date of every instant. Every
turn that goes on moves the date forward, or goes on to the next field, or renames a midnight. -/
theorem next_ends {zone : Zone} (hzone : zone.Civil) {expression : Utf16} {p : Pattern} (hp : parse expression = .ok p)
    {after : Int} (hafter : after.natAbs ≤ timeClip) :
    (∃ turns result, next p zone after turns = some result ∧
      ∀ f, searchStart zone after = .ok f → ∃ date, result = .ok date) ∧
    ∀ f, searchStart zone after = .ok f → ∀ n s s', Lib.Reaches (turn p zone) n ⟨f, .month⟩ s →
      turn p zone s = .ok (.again s') → Advances s s' := by
  have hmonths := parse_months hp
  refine ⟨?_, fun f hf n s s' hreach hturn => ?_⟩
  · unfold next
    cases hstart : searchStart zone after with
    | error e => exact ⟨0, .error e, rfl, fun f hf => by cases hf⟩
    | ok f =>
      obtain ⟨turns, date, hloop⟩ := loop_ends hmonths hzone (searchStart_ready hzone hafter hstart)
      exact ⟨turns, .ok date, hloop, fun _ _ => ⟨date, rfl⟩⟩
  · have hs := reaches_inv hmonths hzone (searchStart_ready hzone hafter hf) hreach
    obtain ⟨t, ht, hturned⟩ := turn_spec hmonths hzone hs
    rw [hturn] at ht
    cases ht
    exact hturned.2.1.advances

def utcZone : Zone := ⟨utcFields⟩

theorem utcZone_civil : utcZone.Civil := by
  refine ⟨fun ms hlo hhi => ?_⟩
  have hfirst : monthStart (12 * -9998) = -4371222 := by decide
  have hlast : monthStart (12 * 9999) = 2932532 := by decide
  have hclip : ms.natAbs ≤ timeClip := by
    unfold DAY at hlo hhi
    unfold timeClip
    omega
  obtain ⟨f, hf, hvalid, hseconds⟩ := utcFields_spec hclip
  unfold DAY at hlo hhi
  have hyear : -9998 ≤ f.year := hvalid.le_year (by omega)
  have hyear' : f.year ≤ 9998 := hvalid.year_le (by change _ < monthStart (12 * 9999) * 86400; omega)
  exact ⟨f, hf, hvalid, by omega, by omega⟩

/-- The 30th of February is looked for in every year and not found. -/
theorem next_ends_february : ∃ p, parse (units "0 0 30 2 *") = .ok p ∧
    ∃ turns result, next p utcZone 0 turns = some result ∧ ∀ f, searchStart utcZone 0 = .ok f → ∃ date, result = .ok date := by
  have haccepted : ∃ p, parse (units "0 0 30 2 *") = .ok p := by
    cases hparse : parse (units "0 0 30 2 *") with
    | ok p => exact ⟨p, rfl⟩
    | error e =>
      have hok : (parse (units "0 0 30 2 *")).isOk = true := by decide +kernel
      rw [hparse] at hok
      cases hok
  obtain ⟨p, hp⟩ := haccepted
  exact ⟨p, hp, (next_ends utcZone_civil hp (by decide)).1⟩

/-- A turn that does not move the date: the month is already one of the pattern. -/
theorem turn_keeps_date : ∃ p f s', parse (units "* * * * *") = .ok p ∧ searchStart utcZone 0 = .ok f ∧
    turn p utcZone ⟨f, .month⟩ = .ok (.again s') ∧ ¬f.seconds < s'.fields.seconds := by
  exact ⟨_, _, _, by rfl, by rfl, by rfl, by decide⟩

end Cantrip.Cron
