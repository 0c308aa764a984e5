import Mathlib.Data.Nat.Digits.Lemmas
import Mathlib.Tactic

/-! Numbers as text in a base of at most ten, in ASCII. -/

namespace Positional

variable {b n : ℕ}

/-- The digits, the lowest first; zero has one. -/
def lowFirst (b n : ℕ) : List ℕ := n % b :: Nat.digits b (n / b)

theorem lowFirst_of_lt (h : n < b) : lowFirst b n = [n] := by
  simp [lowFirst, Nat.mod_eq_of_lt h, Nat.div_eq_of_lt h]

theorem lowFirst_eq_digits (hb : 1 < b) (hn : 0 < n) : lowFirst b n = b.digits n :=
  (Nat.digits_def' hb hn).symm

theorem lowFirst_of_le (hb : 1 < b) (h : b ≤ n) :
    lowFirst b n = n % b :: lowFirst b (n / b) := by
  rw [lowFirst_eq_digits hb (Nat.div_pos h (by omega)), lowFirst]

theorem ofDigits_lowFirst (b n : ℕ) : Nat.ofDigits b (lowFirst b n) = n := by
  rw [lowFirst, Nat.ofDigits_cons, Nat.ofDigits_digits]
  exact Nat.mod_add_div n b

theorem lt_of_mem_lowFirst (hb : 1 < b) : ∀ d ∈ lowFirst b n, d < b := by
  intro d hd
  rcases List.mem_cons.mp hd with rfl | hd
  · exact Nat.mod_lt _ (by omega)
  · exact Nat.digits_lt_base hb hd

theorem length_lowFirst_le {k : ℕ} (hb : 1 < b) (hk : 0 < k) (hn : n < b ^ k) :
    (lowFirst b n).length ≤ k := by
  by_cases hzero : n = 0
  · rw [hzero, lowFirst_of_lt (by omega)]
    exact hk
  · rw [lowFirst_eq_digits hb (Nat.pos_of_ne_zero hzero)]
    exact (Nat.digits_length_le_iff hb n).mpr hn

/-- No digit in front of the others is zero. -/
theorem getLast_lowFirst (hb : 1 < b) (h : (lowFirst b n).getLast? = some 0) :
    lowFirst b n = [0] := by
  by_cases hzero : n = 0
  · rw [hzero, lowFirst_of_lt (by omega)]
  · have hlast := Nat.getLast_digit_ne_zero b hzero
    have hne : b.digits n ≠ [] := Nat.digits_ne_nil_iff_ne_zero.mpr hzero
    rw [lowFirst_eq_digits hb (Nat.pos_of_ne_zero hzero), List.getLast?_eq_some_getLast hne] at h
    exact absurd (Option.some.inj h) hlast

def digitChar (d : ℕ) : UInt8 := UInt8.ofNat (48 + d)

theorem toNat_digitChar {d : ℕ} (h : d < 10) : (digitChar d).toNat = 48 + d :=
  UInt8.toNat_ofNat_of_lt' (by rw [UInt8.size]; omega)

theorem digitChar_ne_zero {d : ℕ} (h : d < 10) : digitChar d ≠ 0 := by
  intro hzero
  have hnat := congrArg UInt8.toNat hzero
  rw [toNat_digitChar h, UInt8.toNat_zero] at hnat
  omega

/-- The number that a text of digits stands for. -/
def natValue (b : ℕ) (s : List UInt8) : ℕ := s.foldl (fun v c => b * v + (c.toNat - 48)) 0

/-- With a minus sign or without one. -/
def value (b : ℕ) (s : List UInt8) : ℤ :=
  if s.head? = some 45 then -natValue b s.tail else natValue b s

theorem natValue_reverse (h10 : b ≤ 10) {l : List ℕ} (hl : ∀ d ∈ l, d < b) :
    natValue b (l.map digitChar).reverse = Nat.ofDigits b l := by
  induction l with
  | nil => rfl
  | cons d l ih =>
    obtain ⟨hd, hl⟩ := List.forall_mem_cons.mp hl
    have hchar := toNat_digitChar (hd.trans_le h10)
    have hrest := ih hl
    rw [natValue] at hrest ⊢
    rw [List.map_cons, List.reverse_cons, List.foldl_append, hrest, Nat.ofDigits_cons]
    simp [hchar, Nat.add_comm]

/-- The digits of a text. -/
structure Unsigned (b : ℕ) (s : List UInt8) : Prop where
  ne_nil : s ≠ []
  digit : ∀ c ∈ s, 48 ≤ c.toNat ∧ c.toNat < 48 + b
  head : s.head? = some 48 → s = [48]

/-- Digits without zeros in front, behind a minus sign if the number is negative. -/
structure Canonical (b : ℕ) (n : ℤ) (s : List UInt8) : Prop where
  shape : ∃ digits, Unsigned b digits ∧ s = if n < 0 then 45 :: digits else digits
  value_eq : value b s = n

theorem unsigned_lowFirst (hb : 1 < b) (h10 : b ≤ 10) (n : ℕ) :
    Unsigned b ((lowFirst b n).map digitChar).reverse where
  ne_nil := by simp [lowFirst]
  digit := by
    simp only [List.mem_reverse, List.mem_map]
    rintro c ⟨d, hd, rfl⟩
    have hlt := lt_of_mem_lowFirst hb d hd
    rw [toNat_digitChar (hlt.trans_le h10)]
    omega
  head := by
    rw [List.head?_reverse, List.getLast?_map]
    intro hhead
    obtain ⟨d, hd, hchar⟩ := Option.map_eq_some_iff.mp hhead
    have hlt := lt_of_mem_lowFirst hb d (List.mem_of_getLast? hd)
    have hzero : d = 0 := by
      have hnat := congrArg UInt8.toNat hchar
      rw [toNat_digitChar (hlt.trans_le h10)] at hnat
      exact Nat.add_left_cancel hnat
    rw [getLast_lowFirst hb (hzero ▸ hd)]
    rfl

theorem canonical_lowFirst (hb : 1 < b) (h10 : b ≤ 10) (n : ℕ) :
    Canonical b n ((lowFirst b n).map digitChar).reverse := by
  have hdigits := unsigned_lowFirst hb h10 n
  refine ⟨⟨_, hdigits, (if_neg (by omega)).symm⟩, ?_⟩
  have hsign : ((lowFirst b n).map digitChar).reverse.head? ≠ some 45 := by
    intro hhead
    have hc := (hdigits.digit 45 (List.mem_of_head? hhead)).1
    exact absurd hc (by decide)
  rw [value, if_neg hsign, natValue_reverse h10 (lt_of_mem_lowFirst hb), ofDigits_lowFirst]

end Positional
