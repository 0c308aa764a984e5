import Mathlib.Tactic

/-! Numbers as `printf` writes them. -/

namespace Printf

/-- `%0wd`. -/
def padded (w : ℕ) (n : ℤ) : List Char :=
  let digits := Nat.toDigits 10 n.natAbs
  if n < 0 then '-' :: (List.replicate (w - 1 - digits.length) '0' ++ digits)
  else List.replicate (w - digits.length) '0' ++ digits

/-- `%d`. -/
def decimal (n : ℤ) : List Char := padded 0 n

/-- What a buffer of a size holds of a text. -/
def snprintf (size : ℕ) (text : List Char) : List Char := text.take (size - 1)

theorem decimal_natCast (n : ℕ) : decimal n = Nat.toDigits 10 n := by
  have hn : ¬ (n : ℤ) < 0 := by omega
  simp [decimal, padded, hn]

/-- Printing one number after another is a place value. -/
theorem ofDigitChars_append_toDigits (l : List Char) (n : ℕ) :
    Nat.ofDigitChars 10 (l ++ Nat.toDigits 10 n) 0 =
      10 ^ (Nat.toDigits 10 n).length * Nat.ofDigitChars 10 l 0 + n := by
  rw [Nat.ofDigitChars_append, Nat.ofDigitChars_eq_ofDigitChars_zero, Nat.ofDigitChars_ten_toDigits]

/-- A number has as many digits as powers of ten are not above it. -/
theorem length_toDigits {n k : ℕ} (hle : 10 ^ k ≤ n) (hlt : n < 10 ^ (k + 1)) :
    (Nat.toDigits 10 n).length = k + 1 := by
  have hup : (Nat.toDigits 10 n).length ≤ k + 1 :=
    (Nat.length_toDigits_le_iff (by omega) (by omega)).mpr hlt
  cases k with
  | zero =>
    have hpos : 0 < (Nat.toDigits 10 n).length := Nat.length_toDigits_pos
    omega
  | succ k =>
    have hdown : ¬ (Nat.toDigits 10 n).length ≤ k + 1 := by
      rw [Nat.length_toDigits_le_iff (by omega) (by omega)]
      omega
    omega

/-! ### Numbers of a fixed width -/

variable {w : ℕ} {n : ℤ}

theorem padded_of_nonneg (hn : 0 ≤ n) : padded w n =
    List.replicate (w - (Nat.toDigits 10 n.natAbs).length) '0' ++ Nat.toDigits 10 n.natAbs :=
  if_neg (not_lt.mpr hn)

theorem padded_of_neg (hn : n < 0) : padded w n = '-' ::
    (List.replicate (w - 1 - (Nat.toDigits 10 n.natAbs).length) '0' ++ Nat.toDigits 10 n.natAbs) :=
  if_pos hn

theorem isDigit_of_mem_padded (hn : 0 ≤ n) {c : Char} (hc : c ∈ padded w n) : c.isDigit := by
  rw [padded_of_nonneg hn, List.mem_append] at hc
  obtain hc | hc := hc
  · rw [List.eq_of_mem_replicate hc]
    rfl
  · exact Nat.isDigit_of_mem_toDigits (by omega) (by omega) hc

theorem ofDigitChars_zeros (k m : ℕ) :
    Nat.ofDigitChars 10 (List.replicate k '0' ++ Nat.toDigits 10 m) 0 = m := by
  rw [ofDigitChars_append_toDigits, Nat.ofDigitChars_replicate_zero, Nat.mul_zero, Nat.mul_zero,
    Nat.zero_add]

/-- No two numbers are written the same. -/
theorem padded_injective (w : ℕ) : Function.Injective (padded w) := by
  intro m n h
  have hneg : ∀ {k : ℤ}, k < 0 → '-' ∈ padded w k := fun hk => by
    rw [padded_of_neg hk]
    exact List.mem_cons_self
  have hminus : ∀ {k : ℤ}, 0 ≤ k → '-' ∉ padded w k := fun hk hmem =>
    absurd (isDigit_of_mem_padded hk hmem) (by decide)
  rcases lt_or_ge m 0 with hm | hm
  · rcases lt_or_ge n 0 with hn | hn
    · rw [padded_of_neg hm, padded_of_neg hn] at h
      have habs := congrArg (fun l => Nat.ofDigitChars 10 l 0) (List.cons.inj h).2
      simp only [ofDigitChars_zeros] at habs
      omega
    · exact absurd (h ▸ hneg hm) (hminus hn)
  · rcases lt_or_ge n 0 with hn | hn
    · exact absurd (h ▸ hneg hn) (hminus hm)
    · rw [padded_of_nonneg hm, padded_of_nonneg hn] at h
      have habs := congrArg (fun l => Nat.ofDigitChars 10 l 0) h
      simp only [ofDigitChars_zeros] at habs
      omega

/-- A number that the width has room for. -/
theorem length_padded (hw : 0 < w) (hn : 0 ≤ n) (hlt : n < 10 ^ w) : (padded w n).length = w := by
  have hle : (Nat.toDigits 10 n.natAbs).length ≤ w := by
    rw [Nat.length_toDigits_le_iff (by omega) hw]
    zify
    rwa [abs_of_nonneg hn]
  rw [padded_of_nonneg hn, List.length_append, List.length_replicate]
  omega

/-- One that it has not room for takes its own length. -/
theorem length_padded_le {k : ℕ} (hk : 0 < k) (hw : w ≤ k) (hlt : n.natAbs < 10 ^ k) :
    (padded w n).length ≤ k + 1 := by
  have hle := (Nat.length_toDigits_le_iff (b := 10) (by omega) hk).mpr hlt
  rcases lt_or_ge n 0 with hn | hn
  · rw [padded_of_neg hn, List.length_cons, List.length_append, List.length_replicate]
    omega
  · rw [padded_of_nonneg hn, List.length_append, List.length_replicate]
    omega

end Printf
