import RgcFifa.TimeUtil

/-! What `TimeUtil` tells local days apart by. `SameDay` compares days of the year, whatever the
year, and the digits that `GetYYMMDD` puts after one another are not padded. -/

namespace RgcFifa

open Gregorian LocalTime

namespace TimeUtil

variable {z : UtcOffset} {a b t : UInt32} {m n : ℤ}

/-- Two days on which a `UInt32` can be do not begin at the same time modulo `2 ^ 32`. -/
theorem ofInt_midnight (hm : -2 ≤ m ∧ m ≤ 49712) (hn : -2 ≤ n ∧ n ≤ 49712) :
    UInt32.ofInt (midnight z m) = UInt32.ofInt (midnight z n) ↔ m = n := by
  constructor
  · intro h
    have hmod : midnight z m ≡ midnight z n [ZMOD 2 ^ 32] := by
      rw [Int.ModEq, ← toNat_ofInt, ← toNat_ofInt, h]
    obtain ⟨k, hk⟩ := hmod.dvd
    unfold midnight at hk
    have hseconds : 675 * (n - m) = 2 ^ 25 * k := by linarith
    have hcoprime : IsCoprime (2 ^ 25 : ℤ) 675 := by norm_num
    -- the days are nearer to each other than `2 ^ 25`
    obtain ⟨j, hj⟩ := hcoprime.dvd_of_dvd_mul_left ⟨k, hseconds⟩
    clear hmod hk hseconds
    omega
  · rintro rfl
    rfl

theorem sharpDay_eq_iff : SharpDay z 0 a = SharpDay z 0 b ↔ day z a.toNat = day z b.toNat := by
  rw [sharpDay_zero, sharpDay_zero, Option.some_inj]
  exact ofInt_midnight (day_bounds (fits_toNat a)) (day_bounds (fits_toNat b))

theorem day_eq_iff : m = n ↔ yearOf m = yearOf n ∧ yday m = yday n := by
  constructor
  · rintro rfl
    exact ⟨rfl, rfl⟩
  · rintro ⟨hyear, hday⟩
    rw [yday, yday, hyear] at hday
    omega

/-- `SameDay` and the beginnings of the days agree on two times exactly when these are not on the
same day of different years. -/
theorem sameDay_iff_sharpDay (z : UtcOffset) (a b : UInt32) :
    (SameDay z a b ↔ SharpDay z 0 a = SharpDay z 0 b) ↔
      ¬ (yearOf (day z a.toNat) ≠ yearOf (day z b.toNat) ∧
        yday (day z a.toNat) = yday (day z b.toNat)) := by
  have hsame : SameDay z a b ↔ yday (day z a.toNat) = yday (day z b.toNat) := decide_eq_true_iff
  rw [sharpDay_eq_iff, day_eq_iff, hsame]
  tauto

/-- The first days of 1970 and of 1971. -/
theorem sameDay_years : ¬ (SameDay .utc 0 31536000 ↔
    SharpDay .utc 0 0 = SharpDay .utc 0 31536000) := by
  decide

/-- The digits of a number up to 99, without padding. -/
def digits (n : ℤ) : ℕ := if n < 10 then 1 else 2

/-- The months and days of two times have digits that keep the times in order. -/
def KeysOrdered (a b : Tm) : Prop :=
  let width (t : Tm) := digits (t.tm_mon + 1) + digits t.tm_mday
  width a < width b ∨
    width a = width b ∧ (a.tm_year = b.tm_year → a.tm_mon < 9 → 9 ≤ b.tm_mon →
      a.tm_mon = 0 ∧ a.tm_mday < 10 * (b.tm_mon - 9) + b.tm_mday)

instance (a b : Tm) : Decidable (KeysOrdered a b) :=
  inferInstanceAs (Decidable (_ ∨ _ ∧ (_ → _ → _ → _ ∧ _)))

/-- The number that three numbers after one another are read as. -/
def key (y m d : ℤ) : ℤ := 10 ^ digits d * (10 ^ digits m * y + m) + d

theorem isDigit_decimal {n : ℕ} {c : Char} (hc : c ∈ Printf.decimal n) : c.isDigit = true := by
  rw [Printf.decimal_natCast] at hc
  exact Nat.isDigit_of_mem_toDigits (by decide) (by decide) hc

theorem length_decimal {n : ℕ} (hpos : 1 ≤ n) (hlt : n < 100) :
    (Nat.toDigits 10 n).length = digits n := by
  unfold digits
  split_ifs with h
  · exact Printf.length_toDigits (k := 0) (by omega) (by omega)
  · exact Printf.length_toDigits (k := 1) (by omega) (by omega)

theorem atoi_date {y m d : ℕ} (hy : 1000 ≤ y ∧ y < 10000) (hm : 1 ≤ m ∧ m < 100)
    (hd : 1 ≤ d ∧ d < 100) :
    atoi (Printf.snprintf 32 (Printf.decimal y ++ Printf.decimal m ++ Printf.decimal d)) =
      some (key y m d) := by
  have hylen : (Nat.toDigits 10 y).length = 4 := Printf.length_toDigits (k := 3) hy.1 hy.2
  have hmlen := length_decimal hm.1 hm.2
  have hdlen := length_decimal hd.1 hd.2
  have hshort : ∀ n : ℤ, digits n ≤ 2 := by
    intro n
    unfold digits
    split_ifs <;> omega
  have hall : Printf.snprintf 32 (Printf.decimal y ++ Printf.decimal m ++ Printf.decimal d) =
      Printf.decimal y ++ Printf.decimal m ++ Printf.decimal d := by
    apply List.take_of_length_le
    have hmshort := hshort m
    have hdshort := hshort d
    simp only [Printf.decimal_natCast, List.length_append]
    omega
  have hisDigit : ∀ c ∈ Printf.decimal y ++ Printf.decimal m ++ Printf.decimal d,
      c.isDigit = true := by
    intro c hc
    rw [List.mem_append, List.mem_append] at hc
    rcases hc with (hc | hc) | hc
    · exact isDigit_decimal hc
    · exact isDigit_decimal hc
    · exact isDigit_decimal hc
  have hne : Printf.decimal y ++ Printf.decimal m ++ Printf.decimal d ≠ [] := by
    simp [Printf.decimal_natCast, Nat.toDigits_ne_nil]
  have hvalue : decimal (Printf.decimal y ++ Printf.decimal m ++ Printf.decimal d) =
      10 ^ digits d * (10 ^ digits m * y + m) + d := by
    have hfold : ∀ l, decimal l = Nat.ofDigitChars 10 l 0 := fun l => Nat.ofDigitChars_eq_foldl.symm
    simp only [hfold, Printf.decimal_natCast, Printf.ofDigitChars_append_toDigits,
      Nat.ofDigitChars_ten_toDigits, hmlen, hdlen]
  have htext := atoi_text ⟨false, _, hisDigit, hne⟩
  simp only [Numeral.text, Numeral.value, Bool.false_eq_true, if_false, hvalue] at htext
  rw [hall, htext]
  have hkey : ((10 ^ digits d * (10 ^ digits m * y + m) + d : ℕ) : ℤ) = key y m d := by
    simp [key]
  rw [hkey]
  apply if_pos
  unfold key digits
  split_ifs <;> omega

theorem getYYMMDD_eq (z : UtcOffset) (t : UInt32) :
    GetYYMMDD z t = some (key (yearOf (day z t.toNat)) (monthOf (day z t.toNat) % 12 + 1)
      (mday (day z t.toNat))) := by
  obtain ⟨hylow, hyhigh⟩ := year_bounds (z := z) (fits_toNat t)
  obtain ⟨hmlow, hmhigh⟩ := month_bounds (monthOf (day z t.toNat))
  obtain ⟨hdlow, hdhigh⟩ := mday_bounds (day z t.toNat)
  have hdays := mday_le (day z t.toNat)
  simp only [GetYYMMDD, localtime_r, sub_add_cancel]
  generalize yearOf (day z t.toNat) = y at *
  generalize monthOf (day z t.toNat) % 12 = m at *
  generalize mday (day z t.toNat) = d at *
  obtain ⟨y, rfl⟩ := Int.eq_ofNat_of_zero_le (show 0 ≤ y by omega)
  obtain ⟨m, rfl⟩ := Int.eq_ofNat_of_zero_le hmlow
  obtain ⟨d, rfl⟩ := Int.eq_ofNat_of_zero_le (show 0 ≤ d by omega)
  exact atoi_date (m := m + 1) (by omega) (by omega) (by omega)

/-- A key begins with the year, and the digits of month and day come after it. -/
theorem key_bounds {y m d : ℤ} (hm : 1 ≤ m ∧ m < 100) (hd : 1 ≤ d ∧ d < 100) :
    10 ^ (digits m + digits d) * y ≤ key y m d ∧
      key y m d < 10 ^ (digits m + digits d) * (y + 1) := by
  unfold key digits
  split_ifs <;> omega

/-- Of keys with years of four digits, the one with fewer digits is the smaller. -/
theorem key_lt_of_digits {y m d v n e : ℤ} (hy : y < 10000) (hv : 1000 ≤ v)
    (hm : 1 ≤ m ∧ m < 100) (hd : 1 ≤ d ∧ d < 100) (hn : 1 ≤ n ∧ n < 100) (he : 1 ≤ e ∧ e < 100)
    (h : digits m + digits d < digits n + digits e) : key y m d < key v n e := by
  have hpow : (10 : ℤ) ^ (digits m + digits d + 1) ≤ 10 ^ (digits n + digits e) :=
    pow_le_pow_right₀ (by norm_num) h
  have hpos : (0 : ℤ) < 10 ^ (digits m + digits d) := by positivity
  calc key y m d < 10 ^ (digits m + digits d) * (y + 1) := (key_bounds hm hd).2
    _ ≤ 10 ^ (digits m + digits d) * 10000 := mul_le_mul_of_nonneg_left (by omega) hpos.le
    _ = 10 ^ (digits m + digits d + 1) * 1000 := by ring
    _ ≤ 10 ^ (digits n + digits e) * v := mul_le_mul hpow hv (by norm_num) (by positivity)
    _ ≤ key v n e := (key_bounds hn he).1

theorem key_lt_of_year {y m d v n e : ℤ} (hm : 1 ≤ m ∧ m < 100) (hd : 1 ≤ d ∧ d < 100)
    (hn : 1 ≤ n ∧ n < 100) (he : 1 ≤ e ∧ e < 100)
    (h : digits m + digits d = digits n + digits e) (hlt : y < v) : key y m d < key v n e := by
  calc key y m d < 10 ^ (digits m + digits d) * (y + 1) := (key_bounds hm hd).2
    _ ≤ 10 ^ (digits n + digits e) * v :=
      h ▸ mul_le_mul_of_nonneg_left (by omega) (by positivity)
    _ ≤ key v n e := (key_bounds hn he).1

/-- Two dates of one year, whose keys have the same length. -/
theorem key_le_iff_of_year {y m d n e : ℤ} (hm : 0 ≤ m ∧ m < 12) (hn : 0 ≤ n ∧ n < 12)
    (hd : 1 ≤ d ∧ d ≤ 31) (he : 1 ≤ e ∧ e ≤ 31) (hle : m < n ∨ m = n ∧ d ≤ e)
    (h : digits (m + 1) + digits d = digits (n + 1) + digits e) :
    (key y (m + 1) d ≤ key y (n + 1) e ∧
        (key y (m + 1) d = key y (n + 1) e → m = n ∧ d = e)) ↔
      (m < 9 → 9 ≤ n → m = 0 ∧ d < 10 * (n - 9) + e) := by
  unfold key
  unfold digits at h ⊢
  split_ifs at h ⊢ <;> omega

/-- Where the dates are in order, so are the keys exactly when the digits keep them so. -/
theorem key_le_iff {y m d v n e : ℤ} (hy : 1000 ≤ y ∧ y < 10000) (hv : 1000 ≤ v ∧ v < 10000)
    (hm : 0 ≤ m ∧ m < 12) (hn : 0 ≤ n ∧ n < 12) (hd : 1 ≤ d ∧ d ≤ 31) (he : 1 ≤ e ∧ e ≤ 31)
    (hle : 12 * y + m < 12 * v + n ∨ 12 * y + m = 12 * v + n ∧ d ≤ e) :
    (key y (m + 1) d ≤ key v (n + 1) e ∧
        (key y (m + 1) d = key v (n + 1) e → y = v ∧ m = n ∧ d = e)) ↔
      digits (m + 1) + digits d < digits (n + 1) + digits e ∨
        digits (m + 1) + digits d = digits (n + 1) + digits e ∧
          (y = v → m < 9 → 9 ≤ n → m = 0 ∧ d < 10 * (n - 9) + e) := by
  have hm' : 1 ≤ m + 1 ∧ m + 1 < 100 := by omega
  have hn' : 1 ≤ n + 1 ∧ n + 1 < 100 := by omega
  have hd' : 1 ≤ d ∧ d < 100 := by omega
  have he' : 1 ≤ e ∧ e < 100 := by omega
  rcases lt_trichotomy (digits (m + 1) + digits d) (digits (n + 1) + digits e) with h | h | h
  · have hlt := key_lt_of_digits hy.2 hv.1 hm' hd' hn' he' h
    exact iff_of_true ⟨hlt.le, fun heq => absurd heq hlt.ne⟩ (.inl h)
  · have hyear : y < v ∨ y = v := by omega
    rcases hyear with hyear | rfl
    · have hlt := key_lt_of_year hm' hd' hn' he' h hyear
      exact iff_of_true ⟨hlt.le, fun heq => absurd heq hlt.ne⟩
        (.inr ⟨h, fun heq => absurd heq hyear.ne⟩)
    · have hmonth := key_le_iff_of_year (y := y) hm hn hd he (by omega) h
      simpa [h] using hmonth
  · have hlt := key_lt_of_digits hv.2 hy.1 hn' he' hm' hd' h
    refine iff_of_false (fun hkeys => hkeys.1.not_gt hlt) ?_
    omega

theorem day_eq_iff_date : m = n ↔ yearOf m = yearOf n ∧ monthOf m % 12 = monthOf n % 12 ∧
    mday m = mday n := by
  constructor
  · rintro rfl
    exact ⟨rfl, rfl, rfl⟩
  · rintro ⟨hyear, hmonth, hday⟩
    rw [← monthOf_div, ← monthOf_div] at hyear
    have hindex : monthOf m = monthOf n := by omega
    rw [mday, mday, hindex] at hday
    omega

/-- Of two times in order, the keys are in order and tell the days apart exactly when the digits of
months and days are in order. -/
theorem getYYMMDD_iff (z : UtcOffset) {a b : UInt32} (hab : a ≤ b) :
    ∃ m n, GetYYMMDD z a = some m ∧ GetYYMMDD z b = some n ∧
      ((m ≤ n ∧ (m = n → day z a.toNat = day z b.toNat)) ↔
        KeysOrdered (localtime_r z a.toNat) (localtime_r z b.toNat)) := by
  refine ⟨_, _, getYYMMDD_eq z a, getYYMMDD_eq z b, ?_⟩
  have hnat : a.toNat ≤ b.toNat := UInt32.le_iff_toNat_le.mp hab
  have hday : day z a.toNat ≤ day z b.toNat := (days z).index_mono (by omega)
  have hmonth : monthOf (day z a.toNat) ≤ monthOf (day z b.toNat) := months.index_mono hday
  have hya := year_bounds (z := z) (fits_toNat a)
  have hyb := year_bounds (z := z) (fits_toNat b)
  have hda := mday_bounds (day z a.toNat)
  have hdb := mday_bounds (day z b.toNat)
  have hlasta := mday_le (day z a.toNat)
  have hlastb := mday_le (day z b.toNat)
  have hkeys := key_le_iff (y := yearOf (day z a.toNat)) (v := yearOf (day z b.toNat))
    (d := mday (day z a.toNat)) (e := mday (day z b.toNat)) (by omega) (by omega)
    (month_bounds (monthOf (day z a.toNat))) (month_bounds (monthOf (day z b.toNat)))
    (by omega) (by omega) (by
      rw [← monthOf_div, ← monthOf_div]
      rcases hmonth.lt_or_eq with hlt | heq
      · left
        omega
      · right
        rw [mday, mday, heq]
        omega)
  rw [day_eq_iff_date (m := day z a.toNat), hkeys, KeysOrdered]
  simp only [localtime_r, sub_left_inj]

/-- Two days of the same month. -/
theorem getYYMMDD_month : ∃ m n,
    GetYYMMDD .utc 1294704000 = some m ∧
    GetYYMMDD .utc 1294790400 = some n ∧
      ((m ≤ n ∧ (m = n → day .utc (1294704000 : UInt32).toNat =
          day .utc (1294790400 : UInt32).toNat)) ↔
        KeysOrdered (localtime_r .utc (1294704000 : UInt32).toNat)
          (localtime_r .utc (1294790400 : UInt32).toNat)) :=
  getYYMMDD_iff _ (by decide)

/-- 11 January and 1 November 2011 have the same key, and 31 December 2010 one above it. -/
theorem getYYMMDD_collides :
    GetYYMMDD .utc 1293753600 = some 20101231 ∧
      GetYYMMDD .utc 1294704000 = some 2011111 ∧
      GetYYMMDD .utc 1320105600 = some 2011111 ∧
      day .utc (1294704000 : UInt32).toNat ≠
        day .utc (1320105600 : UInt32).toNat := by
  refine ⟨?_, ?_, ?_, by decide⟩
  · rw [getYYMMDD_eq]
    decide
  · rw [getYYMMDD_eq]
    decide
  · rw [getYYMMDD_eq]
    decide

end TimeUtil

end RgcFifa
