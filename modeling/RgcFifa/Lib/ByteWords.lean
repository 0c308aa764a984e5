import Mathlib.Tactic

/-! Little-endian and big-endian images of numbers in byte lists. -/

namespace ByteWords

/-- The `k` low bytes of `n`, least significant first. -/
def le : ℕ → ℕ → List UInt8
  | 0, _ => []
  | k + 1, n => UInt8.ofNat n :: le k (n / 256)

/-- The number with the given bytes, least significant first. -/
def leNat : List UInt8 → ℕ
  | [] => 0
  | b :: bs => b.toNat + 256 * leNat bs

@[simp] theorem length_le (k n : ℕ) : (le k n).length = k := by
  induction k generalizing n with
  | zero => rfl
  | succ k ih => simp [le, ih]

theorem leNat_le (k n : ℕ) : leNat (le k n) = n % 256 ^ k := by
  induction k generalizing n with
  | zero => simp [le, leNat, Nat.mod_one]
  | succ k ih =>
    have hb : (UInt8.ofNat n).toNat = n % 256 := UInt8.toNat_ofNat'
    rw [le, leNat, ih, hb, pow_succ', Nat.mod_mul]

theorem leNat_le_of_lt {k n : ℕ} (h : n < 256 ^ k) : leNat (le k n) = n := by
  rw [leNat_le, Nat.mod_eq_of_lt h]

theorem leNat_lt (bs : List UInt8) : leNat bs < 256 ^ bs.length := by
  induction bs with
  | nil => simp [leNat]
  | cons b bs ih =>
    have hb : b.toNat < 256 := b.toNat_lt
    rw [leNat, List.length_cons, pow_succ]
    omega

theorem le_leNat (bs : List UInt8) : le bs.length (leNat bs) = bs := by
  induction bs with
  | nil => rfl
  | cons b bs ih =>
    have hb : b.toNat < 256 := b.toNat_lt
    have hd : (b.toNat + 256 * leNat bs) / 256 = leNat bs := by omega
    have hm : UInt8.ofNat (b.toNat + 256 * leNat bs) = b :=
      UInt8.toNat_inj.mp (by rw [UInt8.toNat_ofNat']; omega)
    simp only [List.length_cons, leNat, le, hd, hm, ih]

def be (k n : ℕ) : List UInt8 := (le k n).reverse

def beNat (bs : List UInt8) : ℕ := leNat bs.reverse

@[simp] theorem length_be (k n : ℕ) : (be k n).length = k := by simp [be]

theorem beNat_be_of_lt {k n : ℕ} (h : n < 256 ^ k) : beNat (be k n) = n := by
  rw [beNat, be, List.reverse_reverse, leNat_le_of_lt h]

theorem beNat_lt (bs : List UInt8) : beNat bs < 256 ^ bs.length := by
  simpa [beNat] using leNat_lt bs.reverse

theorem be_beNat (bs : List UInt8) : be bs.length (beNat bs) = bs := by
  have h := le_leNat bs.reverse
  rw [List.length_reverse] at h
  rw [be, beNat, h, List.reverse_reverse]

end ByteWords
