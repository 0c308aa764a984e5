import Mathlib.Order.Monotone.Basic
import Mathlib.Tactic

/-! The proleptic Gregorian calendar. Days, months and years are numbered by integers, a day by its
distance from 1 January 1970 and a month by twelve times its year and its place in it. -/

/-- The integers cut into pieces at `start`, and the piece that each of them is in. -/
structure Tiling where
  start : ℤ → ℤ
  index : ℤ → ℤ
  strictMono : StrictMono start
  start_le : ∀ n, start (index n) ≤ n
  lt_start : ∀ n, n < start (index n + 1)

namespace Tiling

variable (T : Tiling) {k n m : ℤ}

theorem index_eq (hle : T.start k ≤ n) (hlt : n < T.start (k + 1)) : T.index n = k := by
  have hk : k < T.index n + 1 := T.strictMono.lt_iff_lt.mp (hle.trans_lt (T.lt_start n))
  have hn : T.index n < k + 1 := T.strictMono.lt_iff_lt.mp ((T.start_le n).trans_lt hlt)
  omega

theorem index_start (k : ℤ) : T.index (T.start k) = k :=
  T.index_eq le_rfl (T.strictMono (lt_add_one k))

theorem index_mono (h : m ≤ n) : T.index m ≤ T.index n := by
  have hlt : T.index m < T.index n + 1 :=
    T.strictMono.lt_iff_lt.mp (((T.start_le m).trans h).trans_lt (T.lt_start n))
  omega

end Tiling

namespace Gregorian

def IsLeap (y : ℤ) : Prop := (y % 4 = 0 ∧ y % 100 ≠ 0) ∨ y % 400 = 0

instance : DecidablePred IsLeap := fun y =>
  inferInstanceAs (Decidable ((y % 4 = 0 ∧ y % 100 ≠ 0) ∨ y % 400 = 0))

/-- The months of a year are numbered from 0. -/
def daysInMonth (y m : ℤ) : ℤ :=
  if m = 1 then if IsLeap y then 29 else 28
  else if m = 3 ∨ m = 5 ∨ m = 8 ∨ m = 10 then 30
  else 31

/-- The first day of a year. -/
def yearStart (y : ℤ) : ℤ := 365 * (y - 1) + (y - 1) / 4 - (y - 1) / 100 + (y - 1) / 400 - 719162

theorem yearStart_succ (y : ℤ) :
    yearStart (y + 1) = yearStart y + if IsLeap y then 366 else 365 := by
  unfold yearStart IsLeap
  split_ifs <;> omega

/-- The days of a year that come before a month of it. -/
def daysBefore (y m : ℤ) : ℤ :=
  (367 * m + 5) / 12 - if m < 2 then 0 else if IsLeap y then 1 else 2

theorem daysBefore_succ {m : ℤ} (hm : 0 ≤ m) (hlt : m < 11) (y : ℤ) :
    daysBefore y (m + 1) = daysBefore y m + daysInMonth y m := by
  by_cases hy : IsLeap y
  · interval_cases m <;> simp [daysBefore, daysInMonth, hy]
  · interval_cases m <;> simp [daysBefore, daysInMonth, hy]

theorem daysBefore_zero (y : ℤ) : daysBefore y 0 = 0 := by simp [daysBefore]

theorem daysBefore_december (y : ℤ) :
    daysBefore y 11 + daysInMonth y 11 = if IsLeap y then 366 else 365 := by
  unfold daysBefore daysInMonth
  split_ifs <;> omega

def yearOf (n : ℤ) : ℤ :=
  let y := 400 * (n + 719162) / 146097 + 1
  if n < yearStart y then y - 1
  else if yearStart (y + 1) ≤ n then y + 1
  else y

/-- The years, cut into days. -/
def years : Tiling where
  start := yearStart
  index := yearOf
  strictMono := by
    apply strictMono_int_of_lt_succ
    intro y
    rw [yearStart_succ]
    split_ifs <;> omega
  start_le n := by
    unfold yearOf yearStart
    dsimp only
    split_ifs <;> omega
  lt_start n := by
    unfold yearOf yearStart
    dsimp only
    split_ifs <;> omega

/-- The first day of a month. -/
def monthStart (k : ℤ) : ℤ := yearStart (k / 12) + daysBefore (k / 12) (k % 12)

theorem monthStart_succ (k : ℤ) :
    monthStart (k + 1) = monthStart k + daysInMonth (k / 12) (k % 12) := by
  unfold monthStart
  by_cases hlast : k % 12 = 11
  · have hyear : (k + 1) / 12 = k / 12 + 1 := by omega
    have hmonth : (k + 1) % 12 = 0 := by omega
    have hdec := daysBefore_december (k / 12)
    rw [hyear, hmonth, hlast, daysBefore_zero, yearStart_succ]
    omega
  · have hyear : (k + 1) / 12 = k / 12 := by omega
    have hmonth : (k + 1) % 12 = k % 12 + 1 := by omega
    rw [hyear, hmonth, daysBefore_succ (by omega) (by omega)]
    omega

theorem daysInMonth_bounds (y m : ℤ) : 28 ≤ daysInMonth y m ∧ daysInMonth y m ≤ 31 := by
  unfold daysInMonth
  split_ifs <;> omega

/-- Days in the year before a day of it. -/
def yday (n : ℤ) : ℤ := n - yearStart (yearOf n)

theorem yday_nonneg (n : ℤ) : 0 ≤ yday n := sub_nonneg.mpr (years.start_le n)

theorem yday_lt (n : ℤ) : yday n < if IsLeap (yearOf n) then 366 else 365 := by
  have hlt : n < yearStart (yearOf n + 1) := years.lt_start n
  rw [yearStart_succ] at hlt
  unfold yday
  omega

/-- The month in which a day of a year is. -/
def monthIn (y d : ℤ) : ℤ :=
  (12 * (d + if d < 59 + (if IsLeap y then 1 else 0) then 0 else if IsLeap y then 1 else 2) + 6) / 367

theorem monthIn_bounds {y d : ℤ} (hd : 0 ≤ d) (hlt : d < if IsLeap y then 366 else 365) :
    0 ≤ monthIn y d ∧ monthIn y d < 12 := by
  unfold monthIn
  split_ifs at hlt ⊢ <;> omega

theorem daysBefore_monthIn {y d : ℤ} (hd : 0 ≤ d) (hlt : d < if IsLeap y then 366 else 365) :
    daysBefore y (monthIn y d) ≤ d ∧
      d < daysBefore y (monthIn y d) + daysInMonth y (monthIn y d) := by
  unfold daysBefore monthIn daysInMonth
  split_ifs at hlt ⊢ <;> omega

def monthOf (n : ℤ) : ℤ := 12 * yearOf n + monthIn (yearOf n) (yday n)

theorem monthOf_div (n : ℤ) : monthOf n / 12 = yearOf n := by
  have hm := monthIn_bounds (yday_nonneg n) (yday_lt n)
  unfold monthOf
  omega

theorem monthOf_mod (n : ℤ) : monthOf n % 12 = monthIn (yearOf n) (yday n) := by
  have hm := monthIn_bounds (yday_nonneg n) (yday_lt n)
  unfold monthOf
  omega

/-- The months, cut into days. -/
def months : Tiling where
  start := monthStart
  index := monthOf
  strictMono := by
    apply strictMono_int_of_lt_succ
    intro k
    have hdays := daysInMonth_bounds (k / 12) (k % 12)
    rw [monthStart_succ]
    omega
  start_le n := by
    have hday := daysBefore_monthIn (yday_nonneg n) (yday_lt n)
    rw [monthStart, monthOf_div, monthOf_mod]
    unfold yday at hday ⊢
    omega
  lt_start n := by
    have hday := daysBefore_monthIn (yday_nonneg n) (yday_lt n)
    rw [monthStart_succ, monthStart, monthOf_div, monthOf_mod]
    unfold yday at hday ⊢
    omega

/-- The day of the month, from 1 on. -/
def mday (n : ℤ) : ℤ := n - monthStart (monthOf n) + 1

theorem mday_bounds (n : ℤ) :
    1 ≤ mday n ∧ mday n ≤ daysInMonth (monthOf n / 12) (monthOf n % 12) := by
  have hle : monthStart (monthOf n) ≤ n := months.start_le n
  have hlt : n < monthStart (monthOf n + 1) := months.lt_start n
  rw [monthStart_succ] at hlt
  unfold mday
  omega

/-- Sunday is 0; 1 January 1970 was a Thursday. -/
def wday (n : ℤ) : ℤ := (n + 4) % 7

/-- The weeks from Monday on, cut into days. -/
def weeks : Tiling where
  start k := 7 * k - 3
  index n := (n + 3) / 7
  strictMono := by
    apply strictMono_int_of_lt_succ
    intro k
    omega
  start_le n := by omega
  lt_start n := by omega

theorem wday_weeks (k : ℤ) : wday (weeks.start k) = 1 := by
  change (7 * k - 3 + 4) % 7 = 1
  omega

/-- The days from Monday on, where Sunday is the last. -/
theorem sub_weeks_start (n : ℤ) :
    n - weeks.start (weeks.index n) = (if wday n = 0 then 7 else wday n) - 1 := by
  change n - (7 * ((n + 3) / 7) - 3) = _
  unfold wday
  split_ifs <;> omega

end Gregorian
