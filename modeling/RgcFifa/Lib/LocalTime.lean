import RgcFifa.Lib.Gregorian

/-! The calendar time of the C library, where local time is at a fixed offset from UTC. -/

/-- The fields of a `struct tm`; months and the days of the week and of the year are counted from 0,
years from 1900. -/
structure Tm where
  tm_sec : ℤ
  tm_min : ℤ
  tm_hour : ℤ
  tm_mday : ℤ
  tm_mon : ℤ
  tm_year : ℤ
  tm_wday : ℤ
  tm_yday : ℤ
  deriving DecidableEq, Repr

/-- Seconds east of Greenwich, at most 24 hours, 59 minutes and 59 seconds either way. -/
structure UtcOffset where
  seconds : ℤ
  le_east : seconds < 90000
  le_west : -90000 < seconds

def UtcOffset.utc : UtcOffset := ⟨0, by decide, by decide⟩

namespace LocalTime

open Gregorian

variable (z : UtcOffset) {t u n : ℤ}

/-- The number of the local day. -/
def day (t : ℤ) : ℤ := (t + z.seconds) / 86400

/-- The seconds since local midnight. -/
def timeOfDay (t : ℤ) : ℤ := (t + z.seconds) % 86400

/-- The time at which a local day begins. -/
def midnight (n : ℤ) : ℤ := 86400 * n - z.seconds

def localtime_r (t : ℤ) : Tm where
  tm_sec := timeOfDay z t % 60
  tm_min := timeOfDay z t / 60 % 60
  tm_hour := timeOfDay z t / 3600
  tm_mday := mday (day z t)
  tm_mon := monthOf (day z t) % 12
  tm_year := yearOf (day z t) - 1900
  tm_wday := wday (day z t)
  tm_yday := yday (day z t)

/-- Fields outside their ranges count on; the days of the week and of the year are not read. -/
def mktime (tm : Tm) : ℤ :=
  midnight z (monthStart (12 * (tm.tm_year + 1900) + tm.tm_mon) + tm.tm_mday - 1) +
    tm.tm_hour * 3600 + tm.tm_min * 60 + tm.tm_sec

/-- The local days, cut into seconds. -/
def days : Tiling where
  start := midnight z
  index := day z
  strictMono := by
    apply strictMono_int_of_lt_succ
    intro n
    unfold midnight
    omega
  start_le t := by
    unfold midnight day
    omega
  lt_start t := by
    unfold midnight day
    omega

theorem midnight_day (t : ℤ) : midnight z (day z t) + timeOfDay z t = t := by
  unfold midnight day timeOfDay
  omega

theorem timeOfDay_bounds (t : ℤ) : 0 ≤ timeOfDay z t ∧ timeOfDay z t < 86400 := by
  unfold timeOfDay
  omega

@[simp] theorem day_midnight (n : ℤ) : day z (midnight z n) = n := (days z).index_start n

/-- The year and month of a time give back its month, and its date its day. -/
theorem month_localtime (t : ℤ) :
    12 * ((localtime_r z t).tm_year + 1900) + (localtime_r z t).tm_mon = monthOf (day z t) := by
  have hdiv := monthOf_div (day z t)
  simp only [localtime_r]
  omega

theorem date_localtime (t : ℤ) :
    monthStart (12 * ((localtime_r z t).tm_year + 1900) + (localtime_r z t).tm_mon) +
      (localtime_r z t).tm_mday - 1 = day z t := by
  rw [month_localtime]
  simp only [localtime_r, mday]
  omega

end LocalTime
