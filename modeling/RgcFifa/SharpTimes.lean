import RgcFifa.TimeUtil

/-! Where `SharpMonth` and `SharpWeek` come to. Months and weeks are numbered through, and both
functions go to the beginning of the piece that is so many further on. -/

namespace RgcFifa

open Gregorian LocalTime

namespace TimeUtil

variable {z : UtcOffset} {t : UInt32} {c k n : ℤ}

/-- A value is there, and a `UInt32` holds it. -/
def InRange : Option ℤ → Prop
  | some n => Fits n
  | none => False

instance : DecidablePred InRange
  | some n => inferInstanceAs (Decidable (Fits n))
  | none => inferInstanceAs (Decidable False)

theorem InRange.exists {r : Option ℤ} (h : InRange r) : ∃ n, r = some n ∧ Fits n := by
  cases r with
  | none => cases h
  | some n => exact ⟨n, rfl, h⟩

theorem day_midnight_fits (h : Fits (midnight z n)) :
    day z (UInt32.ofInt (midnight z n)).toNat = n := by
  rw [h.toNat_ofInt, day_midnight]

section Month

theorem tm_index {y m : ℤ} : 12 * (y + m.tdiv 12 + 1900) + m.tmod 12 = 12 * (y + 1900) + m := by
  have h := Int.mul_tdiv_add_tmod m 12
  omega

theorem monthTime_eq (h : monthTime z c t = some n) :
    n = midnight z (monthStart (monthOf (day z t.toNat) + c)) := by
  obtain ⟨m, hm, y, hy, rfl⟩ : ∃ m, toInt ((localtime_r z t.toNat).tm_mon + c) = some m ∧
      ∃ y, toInt ((localtime_r z t.toNat).tm_year + m.tdiv 12) = some y ∧ _ = n := by
    simpa only [monthTime, Option.bind_eq_some_iff, Option.map_eq_some_iff] using h
  obtain rfl := HashList.toInt_eq_some hm
  obtain rfl := HashList.toInt_eq_some hy
  have hmonth := month_localtime z t.toNat
  rw [mktime, tm_index, ← hmonth]
  simp only [add_assoc, zero_mul, add_zero, add_sub_cancel_right]

/-- No `int` overflows on the way to a month that is not far. -/
theorem monthTime_near (hc : -10000 ≤ c ∧ c ≤ 10000) :
    monthTime z c t = some (midnight z (monthStart (monthOf (day z t.toNat) + c))) := by
  obtain ⟨hylow, hyhigh⟩ := year_bounds (z := z) (fits_toNat t)
  obtain ⟨hmlow, hmhigh⟩ := month_bounds (monthOf (day z t.toNat))
  have hmon : toInt ((localtime_r z t.toNat).tm_mon + c) =
      some ((localtime_r z t.toNat).tm_mon + c) := by
    apply if_pos
    simp only [localtime_r]
    omega
  have hyear : toInt ((localtime_r z t.toNat).tm_year +
      ((localtime_r z t.toNat).tm_mon + c).tdiv 12) = some ((localtime_r z t.toNat).tm_year +
        ((localtime_r z t.toNat).tm_mon + c).tdiv 12) := by
    have hdiv := Int.natAbs_tdiv_le_natAbs ((localtime_r z t.toNat).tm_mon + c) 12
    apply if_pos
    simp only [localtime_r] at hdiv ⊢
    omega
  obtain ⟨n, hn⟩ : ∃ n, monthTime z c t = some n := by
    simp only [monthTime, hmon, hyear, Option.bind_some, Option.map_some]
    exact ⟨_, rfl⟩
  rw [hn, monthTime_eq hn]

theorem month_near (h : Fits n) : 23639 ≤ monthOf (day z n) ∧ monthOf (day z n) ≤ 25273 := by
  obtain ⟨hlow, hhigh⟩ := day_bounds (z := z) h
  have hfirst : monthOf (-2) = 23639 := by decide
  have hlast : monthOf 49712 = 25273 := by decide
  exact ⟨hfirst ▸ months.index_mono hlow, hlast ▸ months.index_mono hhigh⟩

/-- A result in range is the beginning of a month that is not far. -/
theorem monthTime_inRange (h : InRange (monthTime z c t)) :
    Fits (midnight z (monthStart (monthOf (day z t.toNat) + c))) ∧
      SharpMonth z c t = some (.ofInt (midnight z (monthStart (monthOf (day z t.toNat) + c)))) ∧
      -2000 ≤ c ∧ c ≤ 2000 := by
  obtain ⟨n, hn, hfits⟩ := h.exists
  have hvalue := monthTime_eq hn
  rw [SharpMonth, hn]
  subst hvalue
  have hfar := month_near (z := z) hfits
  have hindex : monthOf (monthStart (monthOf (day z t.toNat) + c)) = monthOf (day z t.toNat) + c :=
    months.index_start _
  rw [day_midnight, hindex] at hfar
  have hnear := month_near (z := z) (fits_toNat t)
  exact ⟨hfits, rfl, by omega, by omega⟩

theorem sharpMonth_zero_le (h : InRange (monthTime z 0 t)) :
    ∃ s, SharpMonth z 0 t = some s ∧ s ≤ t := by
  obtain ⟨hfits, hsharp, _⟩ := monthTime_inRange h
  refine ⟨_, hsharp, ?_⟩
  have hle : monthStart (monthOf (day z t.toNat)) ≤ day z t.toNat := months.start_le _
  have hclock := timeOfDay_bounds z t.toNat
  have hwhole := midnight_day z t.toNat
  have hnat := hfits.toNat_ofInt
  have hstart : midnight z (monthStart (monthOf (day z t.toNat))) =
      86400 * monthStart (monthOf (day z t.toNat)) - z.seconds := rfl
  rw [add_zero] at hnat ⊢
  rw [UInt32.le_iff_toNat_le]
  unfold midnight at hwhole
  omega

theorem lt_sharpMonth_one (h : InRange (monthTime z 1 t)) :
    ∃ s, SharpMonth z 1 t = some s ∧ t < s := by
  obtain ⟨hfits, hsharp, _⟩ := monthTime_inRange h
  refine ⟨_, hsharp, ?_⟩
  have hlt : day z t.toNat < monthStart (monthOf (day z t.toNat) + 1) := months.lt_start _
  have hclock := timeOfDay_bounds z t.toNat
  have hwhole := midnight_day z t.toNat
  have hnat := hfits.toNat_ofInt
  have hstart : midnight z (monthStart (monthOf (day z t.toNat) + 1)) =
      86400 * monthStart (monthOf (day z t.toNat) + 1) - z.seconds := rfl
  rw [UInt32.lt_iff_toNat_lt]
  unfold midnight at hwhole
  omega

theorem sharpMonth_add (hk : InRange (monthTime z k t)) (hck : InRange (monthTime z (c + k) t)) :
    ∃ s u, SharpMonth z k t = some s ∧ SharpMonth z c s = some u ∧
      SharpMonth z (c + k) t = some u := by
  obtain ⟨hfits, hsharp, hnear⟩ := monthTime_inRange hk
  obtain ⟨_, hsharp', hnear'⟩ := monthTime_inRange hck
  have hstart : monthOf (day z (UInt32.ofInt (midnight z (monthStart
      (monthOf (day z t.toNat) + k)))).toNat) = monthOf (day z t.toNat) + k := by
    rw [day_midnight_fits hfits]
    exact months.index_start _
  refine ⟨_, _, hsharp, ?_, hsharp'⟩
  rw [SharpMonth, monthTime_near (by omega), hstart, Option.map_some, add_assoc, add_comm k c]

theorem leap_ofInt {y : ℤ} (hy : 0 ≤ y ∧ y < 2 ^ 32) :
    ((UInt32.ofInt y % 4 = 0 ∧ UInt32.ofInt y % 100 ≠ 0) ∨ UInt32.ofInt y % 400 = 0) ↔ IsLeap y := by
  have hnat := Fits.toNat_ofInt (n := y) hy
  have hmod : ∀ k : UInt32, UInt32.ofInt y % k = 0 ↔ y % k.toNat = 0 := by
    intro k
    have hzero : (0 : UInt32).toNat = 0 := rfl
    have hcast : (((UInt32.ofInt y).toNat % k.toNat : ℕ) : ℤ) = y % k.toNat := by
      rw [Int.natCast_mod, hnat]
    rw [← UInt32.toNat_inj, UInt32.toNat_mod, hzero]
    omega
  rw [Ne, hmod 4, hmod 100, hmod 400]
  exact Iff.rfl

/-- The table of `GetOneMonthDays` is the calendar. -/
theorem getOneMonthDays_eq (z : UtcOffset) (t : UInt32) : ((GetOneMonthDays z t).toNat : ℤ) =
    daysInMonth (monthOf (day z t.toNat) / 12) (monthOf (day z t.toNat) % 12) := by
  obtain ⟨hylow, hyhigh⟩ := year_bounds (z := z) (fits_toNat t)
  obtain ⟨hmlow, hmhigh⟩ := month_bounds (monthOf (day z t.toNat))
  have hleap := leap_ofInt (y := yearOf (day z t.toNat)) (by omega)
  rw [monthOf_div]
  unfold GetOneMonthDays
  simp only [localtime_r, sub_add_cancel, hleap]
  clear hleap
  generalize yearOf (day z t.toNat) = y at *
  generalize monthOf (day z t.toNat) % 12 = m at *
  have hmon : (UInt32.ofInt (m + 1)).toNat = (m + 1).toNat := by
    have hnat := Fits.toNat_ofInt (n := m + 1) ⟨by omega, by omega⟩
    omega
  rw [hmon]
  clear hmon
  by_cases hy : IsLeap y
  · interval_cases m <;> simp [daysInMonth, hy]
  · interval_cases m <;> simp [daysInMonth, hy]

theorem sharpMonth_days (h0 : InRange (monthTime z 0 t)) (h1 : InRange (monthTime z 1 t)) :
    ∃ s u, SharpMonth z 0 t = some s ∧ SharpMonth z 1 t = some u ∧
      u.toNat = s.toNat + 86400 * (GetOneMonthDays z t).toNat := by
  obtain ⟨hfits, hsharp, _⟩ := monthTime_inRange h0
  obtain ⟨hfits', hsharp', _⟩ := monthTime_inRange h1
  refine ⟨_, _, hsharp, hsharp', ?_⟩
  have hnat := hfits.toNat_ofInt
  have hnat' := hfits'.toNat_ofInt
  have hdays := getOneMonthDays_eq z t
  have hstart : midnight z (monthStart (monthOf (day z t.toNat) + 0)) =
      86400 * monthStart (monthOf (day z t.toNat)) - z.seconds := by
    rw [add_zero]
    rfl
  have hstart' : midnight z (monthStart (monthOf (day z t.toNat) + 1)) =
      86400 * (monthStart (monthOf (day z t.toNat)) + daysInMonth (monthOf (day z t.toNat) / 12)
        (monthOf (day z t.toNat) % 12)) - z.seconds := by
    rw [← monthStart_succ]
    rfl
  omega

/-- `SharpMonth` goes to the beginnings of the months around a time, and `GetOneMonthDays` knows how
far apart they are. -/
theorem sharpMonth_laws (z : UtcOffset) (t : UInt32) :
    (InRange (monthTime z 0 t) → ∃ s, SharpMonth z 0 t = some s ∧ s ≤ t) ∧
    (InRange (monthTime z 1 t) → ∃ s, SharpMonth z 1 t = some s ∧ t < s) ∧
    (∀ c k, InRange (monthTime z k t) → InRange (monthTime z (c + k) t) → ∃ s u,
      SharpMonth z k t = some s ∧ SharpMonth z c s = some u ∧ SharpMonth z (c + k) t = some u) ∧
    (InRange (monthTime z 0 t) → InRange (monthTime z 1 t) → ∃ s u, SharpMonth z 0 t = some s ∧
      SharpMonth z 1 t = some u ∧ u.toNat = s.toNat + 86400 * (GetOneMonthDays z t).toNat) := by
  refine ⟨sharpMonth_zero_le, lt_sharpMonth_one, fun c k => sharpMonth_add, sharpMonth_days⟩

/-- January 2011, and the February after it. -/
theorem sharpMonth_january :
    InRange (monthTime .utc 0 1294704000) ∧ InRange (monthTime .utc 1 1294704000) ∧
    InRange (monthTime .utc (-14) 1294704000) ∧ InRange (monthTime .utc (15 + -14) 1294704000) ∧
    (∃ s, SharpMonth .utc 0 1294704000 = some s ∧ s ≤ 1294704000) ∧
    (∃ s, SharpMonth .utc 1 1294704000 = some s ∧ 1294704000 < s) ∧
    (∃ s u, SharpMonth .utc (-14) 1294704000 = some s ∧ SharpMonth .utc 15 s = some u ∧
      SharpMonth .utc (15 + -14) 1294704000 = some u) ∧
    ∃ s u, SharpMonth .utc 0 1294704000 = some s ∧ SharpMonth .utc 1 1294704000 = some u ∧
      u.toNat = s.toNat + 86400 * (GetOneMonthDays .utc 1294704000).toNat := by
  have h0 : InRange (monthTime .utc 0 1294704000) := by decide
  have h1 : InRange (monthTime .utc 1 1294704000) := by decide
  have hk : InRange (monthTime .utc (-14) 1294704000) := by decide
  have hck : InRange (monthTime .utc (15 + -14) 1294704000) := by decide
  obtain ⟨hle, hlt, hadd, hdays⟩ := sharpMonth_laws .utc 1294704000
  exact ⟨h0, h1, hk, hck, hle h0, hlt h1, hadd 15 (-14) hk hck, hdays h0 h1⟩

end Month

section Week

/-- The Monday that `SharpWeek` goes to. -/
def monday (z : UtcOffset) (c : ℤ) (t : UInt32) : ℤ := weeks.start (weeks.index (day z t.toNat) + c)

/-- A `UInt32` holds both times that `SharpWeek` makes one of. -/
def WeekInRange (z : UtcOffset) (c : ℤ) (t : UInt32) : Prop :=
  (weekTime z c t).all fun n => Fits n ∧ Fits (midnight z (day z n))

instance : Decidable (WeekInRange z c t) := inferInstanceAs (Decidable (_ = true))

theorem weekTime_eq (h : weekTime z c t = some n) :
    n = midnight z (monday z c t) + timeOfDay z t.toNat := by
  obtain ⟨offset, hoffset, rfl⟩ := Option.map_eq_some_iff.mp h
  obtain rfl := HashList.toInt_eq_some hoffset
  have hmonday := sub_weeks_start (day z t.toNat)
  have hnext : monday z c t = weeks.start (weeks.index (day z t.toNat)) + 7 * c := by
    change 7 * (_ + c) - 3 = 7 * _ - 3 + 7 * c
    omega
  have hwhole := midnight_day z t.toNat
  simp only [localtime_r]
  unfold midnight at hwhole ⊢
  omega

theorem weekTime_near (hc : |c| ≤ 1000) :
    weekTime z c t = some (midnight z (monday z c t) + timeOfDay z t.toNat) := by
  rw [abs_le] at hc
  have hday : 0 ≤ wday (day z t.toNat) ∧ wday (day z t.toNat) < 7 := by
    unfold wday
    omega
  obtain ⟨n, hn⟩ : ∃ n, weekTime z c t = some n := by
    refine ⟨_, Option.map_eq_some_iff.mpr ⟨_, if_pos ?_, rfl⟩⟩
    simp only [localtime_r]
    split_ifs <;> omega
  rw [hn, weekTime_eq hn]

theorem day_monday (z : UtcOffset) (c : ℤ) (t : UInt32) :
    day z (midnight z (monday z c t) + timeOfDay z t.toNat) = monday z c t := by
  have hclock := timeOfDay_bounds z t.toNat
  unfold day midnight
  omega

theorem sharpWeek_eq (hc : |c| ≤ 1000) (h : WeekInRange z c t) :
    SharpWeek z c t = some (.ofInt (midnight z (monday z c t))) ∧
      Fits (midnight z (monday z c t)) := by
  have hn := weekTime_near (z := z) (t := t) hc
  rw [WeekInRange, hn, Option.all_some, decide_eq_true_iff, day_monday] at h
  refine ⟨?_, h.2⟩
  rw [SharpWeek, hn, Option.bind_some, sharpDayT_zero, h.1.toNat_ofInt, day_monday]

/-- Up to 17 hours east of Greenwich the Monday's midnight is in range only with the times of day
that come up on it. -/
theorem weekInRange_iff (hz : z.seconds ≤ 61200) (hc : |c| ≤ 1000) :
    WeekInRange z c t ↔ Fits (midnight z (monday z c t)) := by
  have hclock := timeOfDay_bounds z t.toNat
  have hwest := z.le_west
  have hmonday : midnight z (monday z c t) =
      86400 * (7 * (weeks.index (day z t.toNat) + c) - 3) - z.seconds := rfl
  rw [WeekInRange, weekTime_near hc, Option.all_some, decide_eq_true_iff, day_monday,
    and_iff_right_iff_imp]
  unfold Fits
  omega

theorem getWeekDay_midnight (h : Fits (midnight z n)) (hn : wday n = 1) :
    GetWeekDay z (.ofInt (midnight z n)) = 1 := by
  simp only [GetWeekDay, localtime_r, day_midnight_fits h, hn]
  rfl

/-- `SharpWeek` goes to the Mondays of the weeks around a time, which are seven days apart. -/
theorem sharpWeek_laws (z : UtcOffset) (t : UInt32) {c : ℤ} (hc : |c| ≤ 1000) :
    (WeekInRange z c t → ∃ s, SharpWeek z c t = some s ∧ timeOfDay z s.toNat = 0 ∧
      wday (day z s.toNat) = 1 ∧ GetWeekDay z s = 1) ∧
    (WeekInRange z 0 t → ∃ s, SharpWeek z 0 t = some s ∧ s ≤ t) ∧
    (WeekInRange z 1 t → ∃ s, SharpWeek z 1 t = some s ∧ t < s) ∧
    (WeekInRange z 0 t → WeekInRange z c t → ∃ s u, SharpWeek z 0 t = some s ∧
      SharpWeek z c t = some u ∧ (u.toNat : ℤ) = s.toNat + c * 7 * 86400) := by
  have hclock := timeOfDay_bounds z t.toNat
  have hwhole := midnight_day z t.toNat
  have hmonday : ∀ k, midnight z (monday z k t) =
      86400 * (7 * (weeks.index (day z t.toNat) + k) - 3) - z.seconds := fun k => rfl
  have hday : midnight z (day z t.toNat) = 86400 * day z t.toNat - z.seconds := rfl
  have hle : 7 * weeks.index (day z t.toNat) - 3 ≤ day z t.toNat := weeks.start_le _
  have hlt : day z t.toNat < 7 * (weeks.index (day z t.toNat) + 1) - 3 := weeks.lt_start _
  refine ⟨?_, ?_, ?_, ?_⟩
  · intro h
    obtain ⟨hsharp, hfits⟩ := sharpWeek_eq hc h
    refine ⟨_, hsharp, ?_, ?_, getWeekDay_midnight hfits (wday_weeks _)⟩
    · rw [hfits.toNat_ofInt]
      unfold timeOfDay midnight
      omega
    · rw [day_midnight_fits hfits]
      exact wday_weeks _
  · intro h
    obtain ⟨hsharp, hfits⟩ := sharpWeek_eq (by simp) h
    refine ⟨_, hsharp, ?_⟩
    have hnat := hfits.toNat_ofInt
    have hzero := hmonday 0
    rw [UInt32.le_iff_toNat_le]
    omega
  · intro h
    obtain ⟨hsharp, hfits⟩ := sharpWeek_eq (by simp) h
    refine ⟨_, hsharp, ?_⟩
    have hnat := hfits.toNat_ofInt
    have hone := hmonday 1
    rw [UInt32.lt_iff_toNat_lt]
    omega
  · intro h0 h
    obtain ⟨hsharp0, hfits0⟩ := sharpWeek_eq (by simp) h0
    obtain ⟨hsharp, hfits⟩ := sharpWeek_eq hc h
    refine ⟨_, _, hsharp0, hsharp, ?_⟩
    rw [hfits.toNat_ofInt, hfits0.toNat_ofInt, hmonday, hmonday]
    ring

/-- The week of 11 January 2011, and the one 52 weeks after it. -/
theorem sharpWeek_year :
    |(52 : ℤ)| ≤ 1000 ∧ WeekInRange .utc 0 1294704000 ∧ WeekInRange .utc 1 1294704000 ∧
    WeekInRange .utc 52 1294704000 ∧
    (∃ s, SharpWeek .utc 52 1294704000 = some s ∧ timeOfDay .utc s.toNat = 0 ∧
      wday (day .utc s.toNat) = 1 ∧ GetWeekDay .utc s = 1) ∧
    (∃ s, SharpWeek .utc 0 1294704000 = some s ∧ s ≤ 1294704000) ∧
    (∃ s, SharpWeek .utc 1 1294704000 = some s ∧ 1294704000 < s) ∧
    ∃ s u, SharpWeek .utc 0 1294704000 = some s ∧ SharpWeek .utc 52 1294704000 = some u ∧
      (u.toNat : ℤ) = s.toNat + 52 * 7 * 86400 := by
  have hc : |(52 : ℤ)| ≤ 1000 := by decide
  have h0 : WeekInRange .utc 0 1294704000 := by decide
  have h1 : WeekInRange .utc 1 1294704000 := by decide
  have h : WeekInRange .utc 52 1294704000 := by decide
  obtain ⟨hmonday, hle, hlt, hadd⟩ := sharpWeek_laws .utc 1294704000 hc
  exact ⟨hc, h0, h1, h, hmonday h, hle h0, hlt h1, hadd h0 h⟩

end Week

end TimeUtil

end RgcFifa
