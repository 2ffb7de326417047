import Cantrip.Cron.Civil
import Cantrip.Lib.JsonGrammar
import Cantrip.Wire.JsDate

/-!
# What `isoMilliseconds` writes, `parse` reads

The text of an instant is scanned token by token, each stage of `iso` takes its own, and the looser form is not
reached.
-/

namespace Cantrip.Wire.JsDate

open Lib Cron List

section Padded

theorem digit_unit {c : Char} (h : c.isDigit) : (UInt16.ofNat c.toNat).toNat = c.toNat ∧ 48 ≤ c.toNat ∧ c.toNat ≤ 57 := by
  obtain ⟨hlow, hhigh⟩ := Char.isDigit_iff_toNat.mp h
  change 48 ≤ c.toNat at hlow
  change c.toNat ≤ 57 at hhigh
  refine ⟨?_, hlow, hhigh⟩
  rw [UInt16.toNat_ofNat']
  omega

theorem decimal_isDigit {n : Nat} {unit : UInt16} (h : unit ∈ decimal n) : Scanner.isDigit unit = true := by
  obtain ⟨c, hc, rfl⟩ := mem_map.mp h
  obtain ⟨hunit, hlow, hhigh⟩ := digit_unit (Nat.isDigit_of_mem_toDigits (by decide) (by decide) hc)
  simp only [Scanner.isDigit, Bool.and_eq_true, decide_eq_true_eq, UInt16.le_iff_toNat_le, hunit]
  exact ⟨hlow, hhigh⟩

theorem decimal_value (n : Nat) : (decimal n).foldl (fun (value : Int) unit => value * 10 + (unit.toNat - 48)) 0 = n := by
  have hfold : ∀ (cs : List Char) (k : Nat), (∀ c ∈ cs, c.isDigit) →
      (cs.map fun c => UInt16.ofNat c.toNat).foldl (fun (value : Int) unit => value * 10 + (unit.toNat - 48)) k =
        (Nat.ofDigitChars 10 cs k : Nat) := by
    intro cs
    induction cs with
    | nil =>
      intro k _
      rfl
    | cons c cs ih =>
      intro k hcs
      obtain ⟨hunit, hlow, -⟩ := digit_unit (hcs c mem_cons_self)
      have hstep : (k : Int) * 10 + ((UInt16.ofNat c.toNat).toNat - 48) = (10 * k + (c.toNat - '0'.toNat) : Nat) := by
        change _ = ((10 * k + (c.toNat - 48) : Nat) : Int)
        rw [hunit]
        omega
      rw [map_cons, foldl_cons, hstep, Nat.ofDigitChars_cons]
      exact ih _ fun d hd => hcs d (mem_cons_of_mem _ hd)
  have hvalue := hfold (Nat.toDigits 10 n) 0 fun c hc => Nat.isDigit_of_mem_toDigits (by decide) (by decide) hc
  rw [Nat.ofDigitChars_ten_toDigits] at hvalue
  exact hvalue

theorem padded_length {width n : Nat} (hwidth : 0 < width) (h : n < 10 ^ width) : (padded width n).length = width := by
  have hlength : (decimal n).length ≤ width := by
    rw [decimal, length_map]
    exact (Nat.length_toDigits_le_iff (by decide) hwidth).mpr h
  unfold padded
  rw [length_append, length_replicate]
  omega

theorem padded_isDigit {width n : Nat} {unit : UInt16} (h : unit ∈ padded width n) : Scanner.isDigit unit = true := by
  obtain h | h := mem_append.mp h
  · rw [eq_of_mem_replicate h]
    rfl
  · exact decimal_isDigit h

theorem foldl_dropWhile (units : Utf16) :
    (units.dropWhile (· = 48)).foldl (fun (value : Int) unit => value * 10 + (unit.toNat - 48)) 0 =
      units.foldl (fun (value : Int) unit => value * 10 + (unit.toNat - 48)) 0 := by
  induction units with
  | nil => rfl
  | cons unit units ih =>
    by_cases hzero : unit = 48
    · subst hzero
      exact ih
    · rw [dropWhile_cons_of_neg (by simpa using hzero)]

theorem number_padded {width n : Nat} (hwidth : 0 < width) (hnine : width ≤ 9) (h : n < 10 ^ width) :
    Scanner.number (padded width n) = .number n width := by
  have hlength := padded_length hwidth h
  have hall : ((padded width n).dropWhile (· = 48)).length ≤ 9 := by
    have hle := (dropWhile_sublist (l := padded width n) (· = 48)).length_le
    omega
  have hzeros : ∀ k : Nat,
      (replicate k (48 : UInt16)).foldl (fun (value : Int) unit => value * 10 + (unit.toNat - 48)) 0 = 0 := by
    intro k
    induction k with
    | zero => rfl
    | succ k ih =>
      rw [replicate_succ, foldl_cons]
      exact ih
  unfold Scanner.number
  rw [take_of_length_le hall, foldl_dropWhile, hlength]
  unfold padded
  rw [foldl_append, hzeros, decimal_value]

end Padded

section Tokens

variable {width n : Nat} {unit : UInt16} {rest : Utf16}

theorem padded_cons (hwidth : 0 < width) (h : n < 10 ^ width) :
    ∃ d ds, padded width n = d :: ds ∧ Scanner.isDigit d = true := by
  obtain ⟨d, ds, hcons⟩ : ∃ d ds, padded width n = d :: ds := by
    apply exists_cons_of_ne_nil
    intro hnil
    have hlength := padded_length hwidth h
    rw [hnil] at hlength
    exact hwidth.ne hlength
  have hd : d ∈ padded width n := by
    rw [hcons]
    exact mem_cons_self
  exact ⟨d, ds, hcons, padded_isDigit hd⟩

theorem scan_padded (hwidth : 0 < width) (hnine : width ≤ 9) (h : n < 10 ^ width) (hunit : Scanner.isDigit unit = false) :
    Scanner.scan (padded width n ++ unit :: rest) = ⟨.number n width, unit :: rest⟩ := by
  have hdigits : ∀ c ∈ padded width n, Scanner.isDigit c = true := fun c hc => padded_isDigit hc
  have htake : (padded width n ++ unit :: rest).takeWhile Scanner.isDigit = padded width n := by
    rw [takeWhile_append_of_pos hdigits, takeWhile_cons_of_neg (Bool.eq_false_iff.mp hunit), append_nil]
  have hdrop : (padded width n ++ unit :: rest).dropWhile Scanner.isDigit = unit :: rest := by
    rw [dropWhile_append_of_pos hdigits, dropWhile_cons_of_neg (Bool.eq_false_iff.mp hunit)]
  obtain ⟨d, ds, hcons, hd⟩ := padded_cons hwidth h
  have hzero : d ≠ 0 := by
    rintro rfl
    cases hd
  have hfirst : (padded width n ++ unit :: rest).headD 0 = d := by
    rw [hcons]
    rfl
  unfold Scanner.scan
  rw [hfirst, if_neg hzero, if_pos hd, htake, hdrop, number_padded hwidth hnine h]

theorem scan_symbol (h : unit ∈ [45, 58, 43, 46]) : Scanner.scan (unit :: rest) = ⟨.symbol unit, rest⟩ := by
  simp only [mem_cons, not_mem_nil, or_false] at h
  obtain rfl | rfl | rfl | rfl := h <;> rfl

theorem isWord_of_isDigit (h : Scanner.isDigit unit = true) : Scanner.isWord unit = false := by
  simp only [Scanner.isDigit, Bool.and_eq_true, decide_eq_true_eq, UInt16.le_iff_toNat_le] at h
  have hlow : ¬ (65 : UInt16) ≤ unit := by
    rw [UInt16.le_iff_toNat_le]
    exact Nat.not_le_of_lt (Nat.lt_of_le_of_lt h.2 (by decide))
  rw [Scanner.isWord, decide_eq_false hlow, Bool.false_and]

theorem scan_separator (h : ∀ d ∈ rest.head?, Scanner.isDigit d = true) :
    Scanner.scan (84 :: rest) = ⟨.word .separator 0 1, rest⟩ := by
  have hfront : rest.takeWhile Scanner.isWord = [] ∧ rest.dropWhile Scanner.isWord = rest := by
    cases rest with
    | nil => exact ⟨rfl, rfl⟩
    | cons d ds =>
      have hd := isWord_of_isDigit (h d rfl)
      rw [takeWhile_cons_of_neg (Bool.eq_false_iff.mp hd), dropWhile_cons_of_neg (Bool.eq_false_iff.mp hd)]
      exact ⟨rfl, rfl⟩
  have hT : Scanner.isWord 84 = true := by decide
  have hscan : Scanner.scan (84 :: rest) =
      ⟨Scanner.word ((84 :: rest).takeWhile Scanner.isWord), (84 :: rest).dropWhile Scanner.isWord⟩ := rfl
  rw [hscan, takeWhile_cons_of_pos hT, dropWhile_cons_of_pos hT, hfront.1, hfront.2]
  have hword : Scanner.word [84] = .word .separator 0 1 := by decide +kernel
  rw [hword]

theorem scan_z : Scanner.scan [90] = ⟨.word .zone 0 1, []⟩ := by
  have hword : Scanner.word [90] = .word .zone 0 1 := by decide +kernel
  have hscan : Scanner.scan [90] = ⟨Scanner.word [90], []⟩ := rfl
  rw [hscan, hword]

end Tokens

section Stages

theorem isoYear_text {year : Int} (hlow : -999999 ≤ year) (hhigh : year ≤ 999999) (rest : Utf16) :
    isoYear { scanner := .scan (isoYearText year ++ 45 :: rest) } =
      .ok { scanner := ⟨.symbol 45, rest⟩, day := { parts := [year] } } := by
  unfold isoYearText
  split
  · rw [scan_padded (by decide) (by decide) (by omega) rfl]
    have hyear : ((year.toNat : Nat) : Int) = year := by omega
    simp [isoYear, Parse.next, Token.sign, Token.fixed, Parse.take, Parse.addDay, Day.add, scan_symbol, hyear]
  split
  · rw [cons_append, scan_symbol (by decide)]
    have hyear : (((-year).toNat : Nat) : Int) = -year := by omega
    have hscan : Scanner.scan (padded 6 (-year).toNat ++ 45 :: rest) = ⟨.number ((-year).toNat : Nat) 6, 45 :: rest⟩ :=
      scan_padded (by decide) (by decide) (by omega) rfl
    have hne : year ≠ 0 := by omega
    simp [isoYear, Parse.next, Token.sign, Token.fixed, Parse.take, Parse.addDay, Day.add, hscan, scan_symbol, hyear, hne]
  · rw [cons_append, scan_symbol (by decide)]
    have hyear : ((year.toNat : Nat) : Int) = year := by omega
    have hscan : Scanner.scan (padded 6 year.toNat ++ 45 :: rest) = ⟨.number (year.toNat : Nat) 6, 45 :: rest⟩ :=
      scan_padded (by decide) (by decide) (by omega) rfl
    simp [isoYear, Parse.next, Token.sign, Token.fixed, Parse.take, Parse.addDay, Day.add, hscan, scan_symbol, hyear]

variable {n : Nat} {unit : UInt16} {rest : Utf16} {day : Day} {time : Time} {zone : Zone}

theorem within_some {low high : Int} {k : Int} (hlow : low ≤ k) (hhigh : k ≤ high) : within low high (some k) = some k := by
  unfold within Day.within
  rw [Option.filter_some, decide_eq_true hlow, decide_eq_true hhigh]
  rfl

theorem isoPart_text {high : Int} (hlow : 1 ≤ n) (hhigh : (n : Int) ≤ high) (hwidth : n < 100)
    (hunit : Scanner.isDigit unit = false) :
    isoPart high ⟨.scan (padded 2 n ++ unit :: rest), day, time, zone⟩ =
      .ok (Parse.addDay ⟨.scan (unit :: rest), day, time, zone⟩ n) := by
  unfold isoPart
  rw [scan_padded (by decide) (by decide) hwidth hunit]
  simp only [Parse.next, Token.fixed, if_pos, within_some (show (1 : Int) ≤ n by omega) hhigh, Parse.take, Parse.addDay]

theorem isoSixtieth_text {hour : Int} (hhour : hour ≠ 24) (h : n < 60) (hunit : Scanner.isDigit unit = false) :
    isoSixtieth hour ⟨.scan (padded 2 n ++ unit :: rest), day, time, zone⟩ =
      .ok (Parse.addTime ⟨.scan (unit :: rest), day, time, zone⟩ n) := by
  unfold isoSixtieth
  rw [scan_padded (by decide) (by decide) (by omega) hunit]
  simp only [Parse.next, Token.fixed, if_pos, within_some (show (0 : Int) ≤ n by omega) (show (n : Int) ≤ 59 by omega),
    Parse.take, Parse.addTime, Option.filter_some, ne_eq, hhour, not_false_eq_true, decide_true, Bool.true_or]

theorem isoFraction_text {hour : Int} (hhour : hour ≠ 24) (h : n < 1000) (hunit : Scanner.isDigit unit = false) :
    isoFraction hour ⟨.scan (padded 3 n ++ unit :: rest), day, time, zone⟩ =
      .ok (Parse.addTime ⟨.scan (unit :: rest), day, time, zone⟩ n) := by
  unfold isoFraction
  rw [scan_padded (by decide) (by decide) (by omega) hunit]
  simp [Parse.next, Parse.take, Parse.addTime, hhour, milliseconds]

theorem isoDate_text {year : Int} {month date : Nat} (hmonth : 1 ≤ month ∧ month ≤ 12) (hdate : 1 ≤ date ∧ date ≤ 31)
    (hunit : Scanner.isDigit unit = false) :
    isoDate ⟨⟨.symbol 45, padded 2 month ++ 45 :: (padded 2 date ++ unit :: rest)⟩, ⟨[year], none, false⟩, time, zone⟩ =
      .ok ⟨.scan (unit :: rest), ⟨[year, month, date], none, false⟩, time, zone⟩ := by
  have hdatePart : isoPart 31 ⟨.scan (padded 2 date ++ unit :: rest), ⟨[year, month], none, false⟩, time, zone⟩ = .ok _ :=
    isoPart_text hdate.1 (by omega) (by omega) hunit
  unfold isoDate
  rw [if_pos (show Parse.atSymbol _ 45 = true from rfl)]
  simp only [Parse.take]
  rw [isoPart_text hmonth.1 (by omega) (by omega) rfl, scan_symbol (by decide)]
  simp [Parse.addDay, Day.add, Parse.atSymbol, Parse.next, hdatePart, bind, Except.bind]

theorem isoTime_text {hour minute second millis : Nat} (hhour : hour < 24) (hminute : minute < 60) (hsecond : second < 60)
    (hmillis : millis < 1000) (hunit : Scanner.isDigit unit = false) :
    isoTime ⟨.scan (padded 2 hour ++ 58 :: (padded 2 minute ++ 58 :: (padded 2 second ++ 46 ::
      (padded 3 millis ++ unit :: rest)))), day, {}, zone⟩ = .ok ⟨.scan (unit :: rest), day, ⟨[hour, minute, second, millis], none⟩, zone⟩ := by
  have hne : ((hour : Nat) : Int) ≠ 24 := by omega
  unfold isoTime
  rw [scan_padded (by decide) (by decide) (by omega) rfl]
  simp [Parse.next, Token.fixed, within_some (show (0 : Int) ≤ hour by omega) (show (hour : Int) ≤ 24 by omega), Parse.take,
    Parse.addTime, Time.add, Parse.atSymbol, scan_symbol, isoSixtieth_text hne hminute, isoSixtieth_text hne hsecond,
    isoFraction_text hne hmillis hunit, Scanner.isDigit, bind, Except.bind]

theorem isoClock_text {hour minute second millis : Nat} (hhour : hour < 24) (hminute : minute < 60) (hsecond : second < 60)
    (hmillis : millis < 1000) :
    isoClock ⟨.scan (84 :: (padded 2 hour ++ 58 :: (padded 2 minute ++ 58 :: (padded 2 second ++ 46 ::
      (padded 3 millis ++ [90]))))), day, {}, {}⟩ = .ok ⟨⟨.end_, []⟩, day, ⟨[hour, minute, second, millis], none⟩, .set 0⟩ := by
  have hhead : ∀ d ∈ (padded 2 hour ++ 58 :: (padded 2 minute ++ 58 :: (padded 2 second ++ 46 ::
      (padded 3 millis ++ [90])))).head?, Scanner.isDigit d = true := by
    obtain ⟨d, ds, hcons, hd⟩ : ∃ d ds, padded 2 hour = d :: ds ∧ Scanner.isDigit d = true := padded_cons (by decide) (by omega)
    rw [hcons]
    rintro d' ⟨⟩
    exact hd
  have hzone : isoZone ⟨.scan [90], day, ⟨[hour, minute, second, millis], none⟩, {}⟩ =
      .ok ⟨⟨.end_, []⟩, day, ⟨[hour, minute, second, millis], none⟩, .set 0⟩ := by
    rw [scan_z]
    rfl
  have htime : isoTime ⟨.scan (padded 2 hour ++ 58 :: (padded 2 minute ++ 58 :: (padded 2 second ++ 46 ::
      (padded 3 millis ++ [90])))), day, {}, {}⟩ = .ok _ := isoTime_text hhour hminute hsecond hmillis rfl
  unfold isoClock
  rw [scan_separator hhead]
  simp only [Parse.next, isSeparator, if_true, Parse.take, htime, bind, Except.bind, hzone]

theorem iso_text {year : Int} {month date hour minute second millis : Nat} (hlow : -999999 ≤ year) (hhigh : year ≤ 999999)
    (hmonth : 1 ≤ month ∧ month ≤ 12) (hdate : 1 ≤ date ∧ date ≤ 31) (hhour : hour < 24) (hminute : minute < 60)
    (hsecond : second < 60) (hmillis : millis < 1000) :
    iso { scanner := .scan (isoYearText year ++ 45 :: (padded 2 month ++ 45 :: (padded 2 date ++ 84 :: (padded 2 hour ++ 58 ::
      (padded 2 minute ++ 58 :: (padded 2 second ++ 46 :: (padded 3 millis ++ [90]))))))) } =
      .ok ⟨⟨.end_, []⟩, ⟨[year, month, date], none, true⟩, ⟨[hour, minute, second, millis], none⟩, .set 0⟩ := by
  have hdays : isoDate ⟨⟨.symbol 45, padded 2 month ++ 45 :: (padded 2 date ++ 84 :: (padded 2 hour ++ 58 ::
      (padded 2 minute ++ 58 :: (padded 2 second ++ 46 :: (padded 3 millis ++ [90])))))⟩, ⟨[year], none, false⟩, {}, {}⟩ = .ok _ :=
    isoDate_text hmonth hdate rfl
  unfold iso
  rw [isoYear_text hlow hhigh]
  simp only [bind, Except.bind, hdays, isoClock_text hhour hminute hsecond hmillis]
  rfl

theorem finish_text (offsetAt : Int → Option Int) {year : Int} {month date hour minute second millis : Nat} {scanner : Scanner}
    (hmonth : 1 ≤ month ∧ month ≤ 12) (hdate : 1 ≤ date ∧ date ≤ 31) (hhour : hour < 24) (hminute : minute < 60)
    (hsecond : second < 60) (hmillis : millis < 1000)
    (hclip : (days year month date * 86400000 + (hour * 3600000 + minute * 60000 + second * 1000 + millis)).natAbs ≤ timeClip) :
    finish offsetAt ⟨scanner, ⟨[year, month, date], none, true⟩, ⟨[hour, minute, second, millis], none⟩, .set 0⟩ =
      some (days year month date * 86400000 + (hour * 3600000 + minute * 60000 + second * 1000 + millis)) := by
  have hfields : Day.fields ⟨[year, month, date], none, true⟩ = some (year, (month : Int), (date : Int)) := by
    have hwithin : (Day.within 1 12 month && Day.within 1 31 date) = true := by
      simp only [Day.within, Bool.and_eq_true, decide_eq_true_eq]
      omega
    simp [Day.fields, hwithin]
  have hclock : Time.fields ⟨[(hour : Int), minute, second, millis], none⟩ = some ⟨hour, minute, second, millis⟩ := by
    have hwithin : (Day.within 0 23 hour && Day.within 0 59 minute && Day.within 0 59 second &&
        Day.within 0 999 millis) = true := by
      simp only [Day.within, Bool.and_eq_true, decide_eq_true_eq]
      omega
    simp [Time.fields, hwithin]
  obtain ⟨value, hvalue⟩ : ∃ value, value =
      days year month date * 86400000 + (hour * 3600000 + minute * 60000 + second * 1000 + millis) := ⟨_, rfl⟩
  rw [← hvalue] at hclip ⊢
  have hfits : inI64 value = true := by
    simp only [inI64, Bool.and_eq_true, decide_eq_true_eq]
    unfold timeClip at hclip
    omega
  have hzone : (Zone.set 0).seconds = some (some 0) := rfl
  unfold finish
  simp only [hfields, hclock, bind, Option.bind, hzone, Clock.milliseconds, ← hvalue, zero_mul, sub_zero, hfits, if_true]
  rw [if_pos hclip]

end Stages

/-! ## Dates and texts -/

theorem year_bounds {value y m d : Int} (h : value.natAbs ≤ timeClip) (hm : 1 ≤ m) (hm' : m ≤ 12)
    (hdate : IsDate (12 * y + (m - 1)) d) (hday : dayNumber (12 * y + (m - 1)) d = value / 86400000) : -999999 ≤ y ∧ y ≤ 999999 := by
  obtain ⟨hd, hd'⟩ := hdate
  have hlength := (monthLength_le (12 * y + (m - 1))).2
  have hdays := days_eq y d hm hm'
  rw [← hdays] at hday
  unfold days at hday
  unfold timeClip at h
  simp only at hday
  constructor <;> split at hday <;> split at hday <;> omega

theorem parse_isoMilliseconds (offsetAt : Int → Option Int) {value : Int} (h : value.natAbs ≤ timeClip) :
    ∃ text, isoMilliseconds value = some text ∧ parse offsetAt text = some (some value) := by
  obtain ⟨y, m, d, hfields, hm, hm', hdate, hday⟩ := dateUtcFields_spec h
  obtain ⟨hlow, hhigh⟩ := year_bounds h hm hm' hdate hday
  have hlength := (monthLength_le (12 * y + (m - 1))).2
  obtain ⟨month, rfl⟩ := Int.eq_ofNat_of_zero_le (show 0 ≤ m by omega)
  obtain ⟨date, rfl⟩ := Int.eq_ofNat_of_zero_le (show 0 ≤ d from (by decide : (0 : Int) ≤ 1).trans hdate.1)
  obtain ⟨hd, hd'⟩ := hdate
  obtain ⟨hour, hhour⟩ : ∃ hour : Nat, value % 86400000 / 3600000 = hour := Int.eq_ofNat_of_zero_le (by omega)
  obtain ⟨minute, hminute⟩ : ∃ minute : Nat, value % 86400000 / 60000 % 60 = minute := Int.eq_ofNat_of_zero_le (by omega)
  obtain ⟨second, hsecond⟩ : ∃ second : Nat, value % 86400000 / 1000 % 60 = second := Int.eq_ofNat_of_zero_le (by omega)
  obtain ⟨millis, hmillis⟩ : ∃ millis : Nat, value % 86400000 % 1000 = millis := Int.eq_ofNat_of_zero_le (by omega)
  have hsum : days y month date * 86400000 + (hour * 3600000 + minute * 60000 + second * 1000 + millis) = value := by
    rw [days_eq y date hm hm', hday]
    omega
  have hiso := @iso_text y month date hour minute second millis hlow hhigh ⟨by omega, by omega⟩ ⟨by omega, by omega⟩ (by omega)
    (by omega) (by omega) (by omega)
  have hfinish := @finish_text offsetAt y month date hour minute second millis ⟨.end_, []⟩ ⟨by omega, by omega⟩
    ⟨by omega, by omega⟩ (by omega) (by omega) (by omega) (by omega) (by rw [hsum] ; exact h)
  refine ⟨_, by rw [isoMilliseconds, hfields, Option.map_some], ?_⟩
  simp only [hhour, hminute, hsecond, hmillis, Int.toNat_natCast, append_assoc, cons_append]
  unfold parse
  rw [hiso]
  simp only
  rw [hfinish, hsum]

theorem days_far {year month day : Int} (hyear : year.natAbs ≥ 2 ^ 62) (hlow : 1 ≤ month) (hhigh : month ≤ 12)
    (hday : inI64 day) : ¬ (days year month day * 86400000).natAbs ≤ timeClip := by
  simp only [inI64, Bool.and_eq_true, decide_eq_true_eq] at hday
  obtain ⟨march, hmarch⟩ : ∃ march, march = month + if month > 2 then -3 else 9 := ⟨_, rfl⟩
  have hbounds : 0 ≤ march ∧ march ≤ 11 := by
    split at hmarch <;> omega
  unfold days timeClip
  simp only [← hmarch]
  split <;> omega

theorem utcMilliseconds_eq {year month day : Int} (hyear : inI64 year) (hmonth : inI64 month) (hday : inI64 day) :
    utcMilliseconds year month day = dateUtcMilliseconds year month day := by
  have hday' := hday
  simp only [inI64, Bool.and_eq_true, decide_eq_true_eq] at hyear hmonth
  unfold utcMilliseconds dateUtcMilliseconds
  obtain ⟨full, hfull⟩ : ∃ full, full = if 0 ≤ year ∧ year ≤ 99 then year + 1900 else year := ⟨_, rfl⟩
  have hfull' : -2 ^ 63 ≤ full ∧ full < 2 ^ 63 := by
    split at hfull <;> omega
  obtain ⟨before, hbefore, hsmall⟩ : ∃ before : Int, before = (if month % 12 + 1 ≤ 2 then 1 else 0) ∧
      (before = 0 ∨ before = 1) := by
    refine ⟨_, rfl, ?_⟩
    split
    · exact .inr rfl
    · exact .inl rfl
  simp only [← hfull, ← hbefore]
  by_cases hfits : -2 ^ 63 < full + month / 12 ∧ full + month / 12 < 2 ^ 63
  · have hyear' : wrap (wrap (full + month / 12) - before) + before = full + month / 12 := by
      unfold wrap
      omega
    rw [hyear']
  · have hfar : (full + month / 12).natAbs ≥ 2 ^ 62 := by omega
    have hfar' : (wrap (wrap (full + month / 12) - before) + before).natAbs ≥ 2 ^ 62 := by
      unfold wrap
      omega
    rw [if_neg (days_far hfar (by omega) (by omega) hday), if_neg (days_far hfar' (by omega) (by omega) hday)]

def IsCivil (year month day : Int) : Prop := 1 ≤ month ∧ month ≤ 12 ∧ IsDate (12 * year + (month - 1)) day

theorem days_lt {y m d y' m' d' : Int} (h : IsCivil y m d) (h' : IsCivil y' m' d') :
    days y m d < days y' m' d' ↔ y < y' ∨ y = y' ∧ (m < m' ∨ m = m' ∧ d < d') := by
  obtain ⟨hm, hm2, hdate⟩ := h
  obtain ⟨hm', hm2', hdate'⟩ := h'
  rw [days_eq y d hm hm2, days_eq y' d' hm' hm2', dayNumber_lt hdate hdate']
  omega

/-- Every instant has a date of the calendar and a text that is read back; dates are ordered as their days are; and a date
with any month and day is that many months and days from the start of its year. -/
theorem date_texts (offsetAt : Int → Option Int) :
    (∀ value : Int, value.natAbs ≤ timeClip → ∃ year month day text, dateUtcFields value = some (year, month, day) ∧
      IsCivil year month day ∧ days year month day = value / 86400000 ∧ isoMilliseconds value = some text ∧
        parse offsetAt text = some (some value)) ∧
    (∀ y m d y' m' d', IsCivil y m d → IsCivil y' m' d' →
      (days y m d < days y' m' d' ↔ y < y' ∨ y = y' ∧ (m < m' ∨ m = m' ∧ d < d'))) ∧
    ∀ year month day, inI64 year → inI64 month → inI64 day → utcMilliseconds year month day =
        if (dayNumber (12 * fullYear year + month) day * 86400000).natAbs ≤ timeClip then
          some (dayNumber (12 * fullYear year + month) day * 86400000)
        else none := by
  refine ⟨?_, fun y m d y' m' d' => days_lt, ?_⟩
  · intro value h
    obtain ⟨y, m, d, hfields, hm, hm', hdate, hday⟩ := dateUtcFields_spec h
    obtain ⟨text, htext, hparse⟩ := parse_isoMilliseconds offsetAt h
    exact ⟨y, m, d, text, hfields, ⟨hm, hm', hdate⟩, (days_eq y d hm hm').trans hday, htext, hparse⟩
  · intro year month day hyear hmonth hday
    rw [utcMilliseconds_eq hyear hmonth hday]
    exact dateUtcMilliseconds_eq year month day

theorem date_texts_ancient :
    (∃ year month day text, dateUtcFields (-62198755200001) = some (year, month, day) ∧ IsCivil year month day ∧
      days year month day = -62198755200001 / 86400000 ∧ isoMilliseconds (-62198755200001) = some text ∧
        parse (fun _ => none) text = some (some (-62198755200001))) ∧
    (days (-1) 2 28 < days (-1) 3 1 ↔ (-1 : Int) < -1 ∨ (-1 : Int) = -1 ∧ ((2 : Int) < 3 ∨ (2 : Int) = 3 ∧ (28 : Int) < 1)) ∧
    utcMilliseconds 99 14 (-5) =
      if (dayNumber (12 * fullYear 99 + 14) (-5) * 86400000).natAbs ≤ timeClip then
        some (dayNumber (12 * fullYear 99 + 14) (-5) * 86400000)
      else none :=
  ⟨(date_texts fun _ => none).1 (-62198755200001) (by decide),
    (date_texts fun _ => none).2.1 (-1) 2 28 (-1) 3 1 ⟨by decide, by decide, by decide⟩ ⟨by decide, by decide, by decide⟩,
    (date_texts fun _ => none).2.2 99 14 (-5) rfl rfl rfl⟩

end Cantrip.Wire.JsDate
