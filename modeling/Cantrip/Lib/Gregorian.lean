import Mathlib.Tactic.Ring
import Mathlib.Tactic.IntervalCases

/-!
# The proleptic Gregorian calendar

Months are numbered through: month `m` of year `y`, counted from 0, has the number `12 * y + m`. A month has a
first day (`monthStart`, in days since 1 January 1970) and a length, and the next month starts where it ends. The
day of a month is then one day number, and no day has two dates (`date_unique`).
-/

namespace Cantrip.Lib

def leapYear (y : Int) : Bool := y % 4 = 0 ∧ (y % 100 ≠ 0 ∨ y % 400 = 0)

/-- The days of the months of a common year that come before month `m`. -/
def daysBefore : Int → Int
  | 1 => 31
  | 2 => 59
  | 3 => 90
  | 4 => 120
  | 5 => 151
  | 6 => 181
  | 7 => 212
  | 8 => 243
  | 9 => 273
  | 10 => 304
  | 11 => 334
  | _ => 0

/-- The length of month `m` of a common year. -/
def commonLength : Int → Int
  | 1 => 28
  | 3 => 30
  | 5 => 30
  | 8 => 30
  | 10 => 30
  | _ => 31

def monthLength (n : Int) : Int :=
  commonLength (n % 12) + if n % 12 = 1 ∧ leapYear (n / 12) then 1 else 0

def yearStart (y : Int) : Int := 365 * y + (y - 1) / 4 - (y - 1) / 100 + (y - 1) / 400 - 719527

def monthStart (n : Int) : Int :=
  yearStart (n / 12) + daysBefore (n % 12) + if 2 ≤ n % 12 ∧ leapYear (n / 12) then 1 else 0

theorem yearStart_succ (y : Int) : yearStart (y + 1) = yearStart y + 365 + if leapYear y then 1 else 0 := by
  unfold yearStart leapYear
  simp only [decide_eq_true_eq]
  split <;> omega

theorem month_cases (n : Int) : n % 12 = 0 ∨ n % 12 = 1 ∨ n % 12 = 2 ∨ n % 12 = 3 ∨ n % 12 = 4 ∨ n % 12 = 5 ∨
    n % 12 = 6 ∨ n % 12 = 7 ∨ n % 12 = 8 ∨ n % 12 = 9 ∨ n % 12 = 10 ∨ n % 12 = 11 := by
  omega

theorem monthLength_le (n : Int) : 28 ≤ monthLength n ∧ monthLength n ≤ 31 := by
  unfold monthLength commonLength
  rcases month_cases n with h | h | h | h | h | h | h | h | h | h | h | h
  all_goals
    rw [h]
    norm_num
    try split <;> omega

theorem monthStart_succ (n : Int) : monthStart (n + 1) = monthStart n + monthLength n := by
  unfold monthStart monthLength
  by_cases hdec : n % 12 = 11
  · have hdiv : (n + 1) / 12 = n / 12 + 1 := by omega
    have hmod : (n + 1) % 12 = 0 := by omega
    rw [hdiv, hmod, hdec, yearStart_succ]
    simp only [daysBefore, commonLength]
    norm_num
    split <;> omega
  · have hdiv : (n + 1) / 12 = n / 12 := by omega
    have hmod : (n + 1) % 12 = n % 12 + 1 := by omega
    rw [hdiv, hmod]
    rcases month_cases n with h | h | h | h | h | h | h | h | h | h | h | h
    all_goals
      rw [h]
      simp only [daysBefore, commonLength]
      norm_num
      try omega

theorem monthStart_le_add (n : Int) (k : Nat) : monthStart n + monthLength n ≤ monthStart (n + 1 + k) := by
  induction k with
  | zero =>
    rw [Int.natCast_zero, Int.add_zero, monthStart_succ]
  | succ k ih =>
    have hnext : n + 1 + ((k + 1 : Nat) : Int) = n + 1 + k + 1 := by push_cast; ring
    rw [hnext, monthStart_succ]
    have := monthLength_le (n + 1 + k)
    omega

theorem monthStart_mono {n n' : Int} (h : n < n') : monthStart n + monthLength n ≤ monthStart n' := by
  obtain ⟨k, hk⟩ := Int.le.dest (show n + 1 ≤ n' by omega)
  rw [← hk]
  exact monthStart_le_add n k

def dayNumber (n d : Int) : Int := monthStart n + d - 1

/-- A day of the month that exists. -/
def IsDate (n d : Int) : Prop := 1 ≤ d ∧ d ≤ monthLength n

instance (n d : Int) : Decidable (IsDate n d) := inferInstanceAs (Decidable (1 ≤ d ∧ d ≤ monthLength n))

theorem dayNumber_lt {n d n' d' : Int} (h : IsDate n d) (h' : IsDate n' d') :
    dayNumber n d < dayNumber n' d' ↔ n < n' ∨ n = n' ∧ d < d' := by
  unfold dayNumber
  obtain ⟨hd, hd2⟩ := h
  obtain ⟨hd', hd2'⟩ := h'
  rcases lt_trichotomy n n' with hlt | heq | hgt
  · have := monthStart_mono hlt
    constructor
    · intro _
      exact .inl hlt
    · intro _
      omega
  · rw [heq]
    omega
  · have := monthStart_mono hgt
    omega

theorem date_unique {n d n' d' : Int} (h : IsDate n d) (h' : IsDate n' d') (heq : dayNumber n d = dayNumber n' d') :
    n = n' ∧ d = d' := by
  have hlt := dayNumber_lt h h'
  have hgt := dayNumber_lt h' h
  omega

end Cantrip.Lib
