import RgcFifa.TimeUtil

/-! `MkTime` on the fields of a local time. It counts hours, minutes and seconds from 1, as it does
months, so what it gives back is too early. -/

namespace RgcFifa

open Gregorian LocalTime

namespace TimeUtil

variable {v : ℤ} {m : UInt32}

theorem ofInt_mod (hv : 0 ≤ v) (hlt : v < m.toNat) : UInt32.ofInt v % m = UInt32.ofInt v := by
  have hfits : Fits v := ⟨hv, by have := m.toNat_lt; omega⟩
  apply UInt32.toNat_inj.mp
  have hnat := hfits.toNat_ofInt
  rw [UInt32.toNat_mod]
  exact Nat.mod_eq_of_lt (by omega)

theorem int_ofInt (hv : 0 ≤ v) (hlt : v < 2 ^ 31) : int (UInt32.ofInt v) = v := by
  have hnat := Fits.toNat_ofInt (n := v) ⟨hv, by omega⟩
  rw [int, if_pos (by omega), hnat]

theorem int_ofInt_sub {k : UInt32} (hk : k.toNat ≤ v) (hlt : v < 2 ^ 31) :
    int (UInt32.ofInt v - k) = v - k.toNat := by
  have hnat := Fits.toNat_ofInt (n := v) ⟨by omega, by omega⟩
  have hsub : ((UInt32.ofInt v - k).toNat : ℤ) = v - k.toNat := by
    rw [UInt32.toNat_sub]
    omega
  rw [int, if_pos (by omega), hsub]

theorem ofInt_eq_zero (hv : 0 ≤ v) (hlt : v < 2 ^ 32) : UInt32.ofInt v = 0 ↔ v = 0 := by
  have hnat := Fits.toNat_ofInt (n := v) ⟨hv, hlt⟩
  have hzero : (0 : UInt32).toNat = 0 := rfl
  rw [← UInt32.toNat_inj]
  omega

/-- A field that is counted from 1 unless it is 0. -/
def fromOne (v : ℤ) : ℤ := if v = 0 then 0 else v - 1

theorem fromOne_ofInt (hv : 0 ≤ v) (hlt : v < 2 ^ 31) :
    (if UInt32.ofInt v ≠ 0 then int (UInt32.ofInt v - 1) else 0) = fromOne v := by
  have hiff := ofInt_eq_zero hv (by omega)
  have hone : (1 : UInt32).toNat = 1 := rfl
  unfold fromOne
  by_cases hzero : v = 0
  · rw [if_pos hzero, if_neg (not_not.mpr (hiff.mpr hzero))]
  · rw [if_neg hzero, if_pos (mt hiff.mp hzero), int_ofInt_sub (by omega) hlt]
    omega

/-- The seconds that are missing when the fields of a clock are counted from 1. -/
def slip (hh mm ss : ℤ) : ℤ :=
  (if hh = 0 then 0 else 3600) + (if mm = 0 then 0 else 60) + if ss = 0 then 0 else 1

theorem fromOne_clock (hh mm ss : ℤ) :
    fromOne hh * 3600 + fromOne mm * 60 + fromOne ss =
      hh * 3600 + mm * 60 + ss - slip hh mm ss := by
  unfold fromOne slip
  split_ifs <;> omega

theorem slip_bounds (hh mm ss : ℤ) : 0 ≤ slip hh mm ss ∧ slip hh mm ss ≤ 3661 := by
  unfold slip
  split_ifs <;> omega

theorem slip_eq_zero (c : ℤ) : slip (c / 3600) (c / 60 % 60) (c % 60) = 0 ↔ c = 0 := by
  unfold slip
  split_ifs <;> omega

/-- What `MkTime` makes of fields in their ranges. -/
theorem mkTime_ofInt (z : UtcOffset) {y m d hh mm ss : ℤ} (hy : 1900 ≤ y ∧ y < 2 ^ 31)
    (hm : 1 ≤ m ∧ m ≤ 12) (hd : 1 ≤ d ∧ d ≤ 31) (hhh : 0 ≤ hh ∧ hh < 24) (hmm : 0 ≤ mm ∧ mm < 60)
    (hss : 0 ≤ ss ∧ ss < 60) :
    MkTime z (.ofInt y) (.ofInt m) (.ofInt d) (.ofInt hh) (.ofInt mm) (.ofInt ss) =
      UInt32.ofInt (midnight z (monthStart (12 * y + m - 1) + d - 1) + fromOne hh * 3600 +
        fromOne mm * 60 + fromOne ss) := by
  have hyear : ¬ UInt32.ofInt y < 1900 := by
    have hnat := Fits.toNat_ofInt (n := y) ⟨by omega, by omega⟩
    have hlit : (1900 : UInt32).toNat = 1900 := rfl
    rw [UInt32.lt_iff_toNat_lt]
    omega
  have hmonth : fromOne m = m - 1 := if_neg (by omega)
  have hday := ofInt_eq_zero (v := d) (by omega) (by omega)
  have hindex : 12 * (y - (1900 : UInt32).toNat + 1900) + fromOne m = 12 * y + m - 1 := by
    have hlit : (1900 : UInt32).toNat = 1900 := rfl
    omega
  have hmod13 := ofInt_mod (v := m) (m := 13) (by omega) (by change m < 13; omega)
  have hmod32 := ofInt_mod (v := d) (m := 32) (by omega) (by change d < 32; omega)
  have hmod25 := ofInt_mod (v := hh) (m := 25) (by omega) (by change hh < 25; omega)
  have hmod24 := ofInt_mod (v := hh) (m := 24) (by omega) (by change hh < 24; omega)
  have hmin := ofInt_mod (v := mm) (m := 61) (by omega) (by change mm < 61; omega)
  have hsec := ofInt_mod (v := ss) (m := 61) (by omega) (by change ss < 61; omega)
  have hbase := int_ofInt_sub (v := y) (k := 1900) (by change 1900 ≤ y; omega) (by omega)
  simp only [MkTime, mktime, hmod13, hmod32, hmod25, hmod24, hmin, hsec]
  rw [if_neg hyear, hbase, fromOne_ofInt (by omega) (by omega), fromOne_ofInt (by omega) (by omega),
    fromOne_ofInt (by omega) (by omega), fromOne_ofInt (by omega) (by omega),
    if_pos (mt hday.mp (by omega)), int_ofInt (by omega) (by omega), hindex]

/-- `MkTime` on the local date and clock of a time gives it back exactly when it is midnight. -/
theorem mkTime_localtime_iff (z : UtcOffset) (t : UInt32) :
    let tm := localtime_r z t.toNat
    MkTime z (.ofInt (tm.tm_year + 1900)) (.ofInt (tm.tm_mon + 1)) (.ofInt tm.tm_mday)
      (.ofInt tm.tm_hour) (.ofInt tm.tm_min) (.ofInt tm.tm_sec) = t ↔ timeOfDay z t.toNat = 0 := by
  have hyear := year_bounds (z := z) (fits_toNat t)
  have hmonth := month_bounds (monthOf (day z t.toNat))
  have hday := mday_bounds (day z t.toNat)
  have hlast := mday_le (day z t.toNat)
  have hclock := timeOfDay_bounds z t.toNat
  have hdate := date_localtime z t.toNat
  have hwhole := midnight_day z t.toNat
  have hfits := fits_toNat t
  dsimp only [localtime_r] at hdate ⊢
  rw [mkTime_ofInt z (by omega) (by omega) (by omega) (by omega) (by omega) (by omega)]
  rw [← add_assoc, add_sub_cancel_right, hdate, add_assoc, add_assoc, ← add_assoc (_ * 3600),
    fromOne_clock]
  rw [← slip_eq_zero (timeOfDay z t.toNat)]
  have hslip := slip_bounds (timeOfDay z t.toNat / 3600) (timeOfDay z t.toNat / 60 % 60)
    (timeOfDay z t.toNat % 60)
  generalize slip _ _ _ = d at hslip ⊢
  have hsum : midnight z (day z t.toNat) + (timeOfDay z t.toNat / 3600 * 3600 +
      timeOfDay z t.toNat / 60 % 60 * 60 + timeOfDay z t.toNat % 60 - d) = t.toNat - d := by
    omega
  rw [hsum, ← UInt32.toNat_inj, ← Int.natCast_inj, toNat_ofInt]
  unfold Fits at hfits
  omega

/-- One second past the epoch: the second is counted as the first. -/
theorem mkTime_second : MkTime .utc 1970 1 1 0 0 1 = 0 ∧
    localtime_r .utc (1 : UInt32).toNat = ⟨1, 0, 0, 1, 0, 70, 4, 0⟩ := by
  decide

end TimeUtil

end RgcFifa
