import RgcFifa.AdminAllow
import RgcFifa.Lib.LocalTime
import RgcFifa.Lib.Printf

/-! `TimeUtil` on a machine whose local time is at a fixed offset from UTC. What is `none` is an
`int` that overflows. -/

namespace RgcFifa

open Gregorian LocalTime

namespace TimeUtil

/-- An unsigned value as an `int`. -/
def int (x : UInt32) : ℤ := if x.toNat < 2 ^ 31 then x.toNat else x.toNat - 2 ^ 32

variable (z : UtcOffset)

/-- The days of the week and of the year are not set. Nor is `tm_isdst`, which a calendar of one
offset does not look at. -/
def MkTime (y m d hh mm ss : UInt32) : UInt32 :=
  let t_tm : Tm := {
    tm_year := if y < 1900 then 0 else int (y - 1900)
    tm_mon := if m % 13 ≠ 0 then int (m % 13 - 1) else 0
    tm_mday := if d % 32 ≠ 0 then int (d % 32) else 1
    tm_hour := if hh % 25 ≠ 0 then int (hh % 24 - 1) else 0
    tm_min := if mm % 61 ≠ 0 then int (mm % 61 - 1) else 0
    tm_sec := if ss % 61 ≠ 0 then int (ss % 61 - 1) else 0
    tm_wday := 0
    tm_yday := 0 }
  UInt32.ofInt (mktime z t_tm)

/-- What `SharpDayT` returns, before it is a `UInt32`. -/
def dayTime (c : ℤ) (cur : UInt32) : Option ℤ :=
  let t_tm := { localtime_r z cur.toNat with tm_hour := 0, tm_min := 0, tm_sec := 0 }
  let t2 := mktime z t_tm
  (toInt (c * 24 * 60 * 60)).map fun offset => t2 + offset

def SharpDayT (c : ℤ) (cur : UInt32) : Option UInt32 := (dayTime z c cur).map UInt32.ofInt

def SameDay (a b : UInt32) : Bool :=
  (localtime_r z a.toNat).tm_yday = (localtime_r z b.toNat).tm_yday

def GetYYMMDD (now : UInt32) : Option ℤ :=
  let t_tm := localtime_r z now.toNat
  atoi (Printf.snprintf 32 (Printf.decimal (t_tm.tm_year + 1900) ++ Printf.decimal (t_tm.tm_mon + 1) ++
    Printf.decimal t_tm.tm_mday))

/-- The time on the Monday, with the time of day of `cur`. -/
def weekTime (c : ℤ) (cur : UInt32) : Option ℤ :=
  let tm_wday := (localtime_r z cur.toNat).tm_wday
  let tm_wday := if tm_wday = 0 then 7 else tm_wday
  (toInt ((7 * c + 1 - tm_wday) * 86400)).map fun offset => cur.toNat + offset

def SharpWeek (c : ℤ) (cur : UInt32) : Option UInt32 :=
  (weekTime z c cur).bind fun t => SharpDayT z 0 (UInt32.ofInt t)

def GetWeekDay (time : UInt32) : UInt32 :=
  let tm_wday := (localtime_r z time.toNat).tm_wday
  UInt32.ofInt (if tm_wday = 0 then 7 else tm_wday)

/-- What `SharpMonth` returns, before it is a `UInt32`. -/
def monthTime (c : ℤ) (cur : UInt32) : Option ℤ :=
  let t_tm := localtime_r z cur.toNat
  (toInt (t_tm.tm_mon + c)).bind fun tm_mon =>
    (toInt (t_tm.tm_year + tm_mon.tdiv 12)).map fun tm_year =>
      mktime z { t_tm with
        tm_year := tm_year
        tm_mon := tm_mon.tmod 12
        tm_mday := 1
        tm_hour := 0
        tm_min := 0
        tm_sec := 0 }

def SharpMonth (c : ℤ) (cur : UInt32) : Option UInt32 := (monthTime z c cur).map UInt32.ofInt

def SharpDay (c : ℤ) (cur : UInt32) : Option UInt32 :=
  let t_tm := { localtime_r z cur.toNat with tm_hour := 0, tm_min := 0, tm_sec := 0 }
  (toInt (c * 24 * 60 * 60)).map fun offset => UInt32.ofInt (mktime z t_tm + offset)

def GetOneMonthDays (nowTime : UInt32) : UInt8 :=
  let t := localtime_r z nowTime.toNat
  let mon := UInt32.ofInt (t.tm_mon + 1)
  let year := UInt32.ofInt (t.tm_year + 1900)
  let leapYear : Bool := (year % 4 = 0 ∧ year % 100 ≠ 0) ∨ year % 400 = 0
  match mon.toNat with
  | 2 => if leapYear then 29 else 28
  | 1 | 3 | 5 | 7 | 8 | 10 | 12 => 31
  | 4 | 6 | 9 | 11 => 30
  | _ => 30

section Range

variable {z} {t u : UInt32} {n : ℤ}

/-- A time that a `UInt32` holds. -/
def Fits (n : ℤ) : Prop := 0 ≤ n ∧ n < 2 ^ 32

instance : DecidablePred Fits := fun n => inferInstanceAs (Decidable (0 ≤ n ∧ n < 2 ^ 32))

theorem fits_toNat (t : UInt32) : Fits t.toNat := by
  have hlt := t.toNat_lt
  unfold Fits
  omega

theorem Fits.toNat_ofInt (h : Fits n) : ((UInt32.ofInt n).toNat : ℤ) = n := by
  rw [RgcFifa.toNat_ofInt, Int.emod_eq_of_lt h.1 h.2]

theorem ofInt_toNat (t : UInt32) : UInt32.ofInt t.toNat = t := by
  apply UInt32.toNat_inj.mp
  have h := (fits_toNat t).toNat_ofInt
  omega

/-- Midnight as `SharpDay` and `SharpDayT` come to it. -/
theorem mktime_midnight (z : UtcOffset) (t : ℤ) :
    mktime z { localtime_r z t with tm_hour := 0, tm_min := 0, tm_sec := 0 } =
      midnight z (day z t) := by
  have hdate := date_localtime z t
  simp only [mktime] at hdate ⊢
  rw [hdate]
  omega

theorem dayTime_zero (z : UtcOffset) (t : UInt32) :
    dayTime z 0 t = some (midnight z (day z t.toNat)) := by
  have hint : toInt 0 = some 0 := rfl
  simp only [dayTime, mktime_midnight, zero_mul, hint, Option.map_some, add_zero]

theorem sharpDayT_zero (z : UtcOffset) (t : UInt32) :
    SharpDayT z 0 t = some (UInt32.ofInt (midnight z (day z t.toNat))) := by
  simp [SharpDayT, dayTime_zero]

theorem sharpDay_zero (z : UtcOffset) (t : UInt32) :
    SharpDay z 0 t = some (UInt32.ofInt (midnight z (day z t.toNat))) := by
  have hint : toInt 0 = some 0 := rfl
  simp only [SharpDay, mktime_midnight, zero_mul, hint, Option.map_some, add_zero]

/-- The local days on which a `UInt32` can be. -/
theorem day_bounds (h : Fits n) : -2 ≤ day z n ∧ day z n ≤ 49712 := by
  have hwest := z.le_west
  have heast := z.le_east
  unfold Fits at h
  unfold day
  omega

theorem year_bounds (h : Fits n) : 1969 ≤ yearOf (day z n) ∧ yearOf (day z n) ≤ 2106 := by
  obtain ⟨hlow, hhigh⟩ := day_bounds (z := z) h
  have hfirst : yearOf (-2) = 1969 := by decide
  have hlast : yearOf 49712 = 2106 := by decide
  exact ⟨hfirst ▸ years.index_mono hlow, hlast ▸ years.index_mono hhigh⟩

theorem month_bounds (k : ℤ) : 0 ≤ k % 12 ∧ k % 12 < 12 := by omega

theorem mday_le (n : ℤ) : mday n ≤ 31 :=
  (mday_bounds n).2.trans (daysInMonth_bounds _ _).2

end Range

end TimeUtil

end RgcFifa
