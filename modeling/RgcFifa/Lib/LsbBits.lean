import Mathlib.Tactic

/-! Streams of bits in bytes, where the first bit is the least significant one of a byte. -/

namespace LsbBits

/-- The `n` low bits of a number, least significant first. -/
def lsb : ℕ → ℕ → List Bool
  | 0, _ => []
  | n + 1, v => decide (v % 2 = 1) :: lsb n (v / 2)

def value : List Bool → ℕ
  | [] => 0
  | b :: bs => b.toNat + 2 * value bs

def bits (bytes : List UInt8) : List Bool := bytes.flatMap fun b => lsb 8 b.toNat

/-- The bytes of a stream of whole bytes. -/
def pack : ℕ → List Bool → List UInt8
  | 0, _ => []
  | n + 1, bs => UInt8.ofNat (value (bs.take 8)) :: pack n (bs.drop 8)

theorem length_lsb (n v : ℕ) : (lsb n v).length = n := by
  induction n generalizing v with
  | zero => rfl
  | succ n ih => simp [lsb, ih]

theorem value_lsb (n v : ℕ) : value (lsb n v) = v % 2 ^ n := by
  induction n generalizing v with
  | zero => simp [lsb, value, Nat.mod_one]
  | succ n ih =>
    have hbit : (decide (v % 2 = 1)).toNat = v % 2 := by
      rcases Nat.mod_two_eq_zero_or_one v with h | h <;> simp [h]
    rw [lsb, value, ih, hbit, pow_succ', Nat.mod_mul]

theorem value_lt (bs : List Bool) : value bs < 2 ^ bs.length := by
  induction bs with
  | nil => simp [value]
  | cons b bs ih =>
    have hb := b.toNat_lt
    simp only [value, List.length_cons, pow_succ]
    omega

theorem lsb_value (bs : List Bool) : lsb bs.length (value bs) = bs := by
  induction bs with
  | nil => rfl
  | cons b bs ih =>
    have hb := b.toNat_lt
    have hdiv : (b.toNat + 2 * value bs) / 2 = value bs := by omega
    have hmod : decide ((b.toNat + 2 * value bs) % 2 = 1) = b := by
      cases b <;> simp [Nat.add_mul_mod_self_left]
    simp only [List.length_cons, value, lsb, hdiv, hmod, ih]

@[simp] theorem bits_nil : bits [] = [] := rfl

theorem bits_cons (b : UInt8) (bytes : List UInt8) : bits (b :: bytes) = lsb 8 b.toNat ++ bits bytes := rfl

theorem bits_append (l m : List UInt8) : bits (l ++ m) = bits l ++ bits m := by
  simp [bits]

theorem length_bits (bytes : List UInt8) : (bits bytes).length = 8 * bytes.length := by
  induction bytes with
  | nil => rfl
  | cons b bytes ih =>
    simp only [bits_cons, List.length_append, length_lsb, ih, List.length_cons]
    ring

theorem lsb_mod (n v : ℕ) : lsb n (v % 2 ^ n) = lsb n v := by
  have h := lsb_value (lsb n v)
  rwa [length_lsb, value_lsb] at h

theorem lsb_add (m n v : ℕ) : lsb (m + n) v = lsb m v ++ lsb n (v / 2 ^ m) := by
  induction m generalizing v with
  | zero => simp [lsb]
  | succ m ih => simp [Nat.succ_add, lsb, ih, Nat.div_div_eq_div_mul, pow_succ']

/-- Two bytes, the low one first. -/
theorem bits_pair (v : ℕ) : bits [UInt8.ofNat v, UInt8.ofNat (v / 256)] = lsb 16 v := by
  have hbyte (n : ℕ) : lsb 8 (UInt8.ofNat n).toNat = lsb 8 n := by
    rw [UInt8.toNat_ofNat']
    exact lsb_mod 8 n
  simp only [bits_cons, bits_nil, hbyte, List.append_nil]
  exact (lsb_add 8 8 v).symm

theorem bits_injective : Function.Injective bits := by
  intro l m h
  induction l generalizing m with
  | nil =>
    have hlen := congrArg List.length h
    simp only [length_bits, List.length_nil] at hlen
    exact (List.length_eq_zero_iff.mp (by omega)).symm
  | cons a l ih =>
    cases m with
    | nil =>
      have hlen := congrArg List.length h
      simp only [length_bits, List.length_nil, List.length_cons] at hlen
      omega
    | cons b m =>
      obtain ⟨hhead, htail⟩ := List.append_inj h (by simp [length_lsb])
      have hvalue := congrArg value hhead
      simp only [value_lsb, Nat.mod_eq_of_lt a.toNat_lt, Nat.mod_eq_of_lt b.toNat_lt] at hvalue
      rw [UInt8.toNat_inj.mp hvalue, ih htail]

theorem bits_pack {n : ℕ} {bs : List Bool} (h : bs.length = 8 * n) : bits (pack n bs) = bs := by
  induction n generalizing bs with
  | zero => simpa [pack] using (List.length_eq_zero_iff.mp h).symm
  | succ n ih =>
    have htake : (bs.take 8).length = 8 := by
      simp
      omega
    have hlt := value_lt (bs.take 8)
    have hbyte : (UInt8.ofNat (value (bs.take 8))).toNat = value (bs.take 8) := by
      rw [UInt8.toNat_ofNat']
      rw [htake] at hlt
      omega
    have hlsb := lsb_value (bs.take 8)
    rw [htake] at hlsb
    rw [pack, bits_cons, hbyte, hlsb, ih (by simp; omega), List.take_append_drop]

end LsbBits
