import Mathlib.Tactic

/-! The checksum of two sums: the sum of the bytes, from one on, and the sum of all these sums. It
may be reduced at any point on the way. -/

namespace Adler

def base : ℕ := 65521

/-- One more byte, with no reduction. -/
def step (s : ℕ × ℕ) (b : UInt8) : ℕ × ℕ := (s.1 + b.toNat, s.2 + (s.1 + b.toNat))

def reduce (s : ℕ × ℕ) : ℕ × ℕ := (s.1 % base, s.2 % base)

/-- The sum of the bytes, from one on. -/
def s1 (data : List UInt8) : ℕ := 1 + (data.map UInt8.toNat).sum

/-- The sum of the first sums after each byte. -/
def s2 (data : List UInt8) : ℕ := ((List.range data.length).map fun i => s1 (data.take (i + 1))).sum

def checksum (data : List UInt8) : ℕ := 65536 * (s2 data % base) + s1 data % base

@[simp] theorem reduce_reduce (s : ℕ × ℕ) : reduce (reduce s) = reduce s := by
  simp [reduce]

theorem reduce_step (s : ℕ × ℕ) (b : UInt8) : reduce (step (reduce s) b) = reduce (step s b) := by
  simp [reduce, step, Nat.add_mod]

theorem reduce_foldl (s : ℕ × ℕ) (l : List UInt8) :
    reduce (l.foldl step (reduce s)) = reduce (l.foldl step s) := by
  induction l generalizing s with
  | nil => simp
  | cons b l ih =>
    rw [List.foldl_cons, List.foldl_cons, ← ih (step (reduce s) b), reduce_step, ih]

/-- How far the sums grow over `n` bytes. -/
theorem foldl_step_le (s : ℕ × ℕ) (l : List UInt8) :
    (l.foldl step s).1 ≤ s.1 + 255 * l.length
      ∧ 2 * (l.foldl step s).2 ≤ 2 * (s.2 + l.length * s.1) + 255 * (l.length * (l.length + 1)) := by
  induction l using List.reverseRecOn with
  | nil => simp
  | append_singleton l b ih =>
    have hb : b.toNat ≤ 255 := by
      have := b.toNat_lt
      omega
    obtain ⟨h1, h2⟩ := ih
    simp only [List.foldl_append, List.foldl_cons, List.foldl_nil, List.length_append,
      List.length_singleton, step]
    constructor
    · omega
    · have hexpand : (l.length + 1) * (l.length + 1 + 1) = l.length * (l.length + 1) + 2 * (l.length + 1) := by
        ring
      have hsum : (l.length + 1) * s.1 = l.length * s.1 + s.1 := by ring
      rw [hexpand, hsum]
      omega

theorem foldl_step_eq (data : List UInt8) : data.foldl step (1, 0) = (s1 data, s2 data) := by
  induction data using List.reverseRecOn with
  | nil => simp [s1, s2]
  | append_singleton l b ih =>
    have h1 : s1 (l ++ [b]) = s1 l + b.toNat := by
      simp [s1, add_assoc]
    have h2 : s2 (l ++ [b]) = s2 l + s1 (l ++ [b]) := by
      have hprev : (List.range l.length).map (fun i => s1 ((l ++ [b]).take (i + 1)))
          = (List.range l.length).map fun i => s1 (l.take (i + 1)) := by
        apply List.map_congr_left
        intro i hi
        have hlt := List.mem_range.mp hi
        rw [List.take_append_of_le_length (by omega)]
      simp only [s2, List.length_append, List.length_singleton, List.range_succ, List.map_append,
        List.map_cons, List.map_nil, List.sum_append, List.sum_singleton, hprev]
      rw [List.take_of_length_le (by simp)]
    simp [List.foldl_append, ih, step, h1, h2]

/-! ### What the checksum detects -/

/-- Over a list the second sum grows by the first one for each byte, and by an amount of the list. -/
theorem foldl_step_add (s : ℕ × ℕ) (l : List UInt8) :
    l.foldl step s = (s.1 + (l.foldl step (0, 0)).1, s.2 + l.length * s.1 + (l.foldl step (0, 0)).2) := by
  induction l using List.reverseRecOn with
  | nil => simp
  | append_singleton l b ih =>
    simp only [List.foldl_append, List.foldl_cons, List.foldl_nil, ih, step, List.length_append,
      List.length_singleton, Prod.mk.injEq]
    constructor
    · omega
    · ring

theorem checksum_eq_iff (l m : List UInt8) :
    checksum l = checksum m ↔ s1 l ≡ s1 m [MOD base] ∧ s2 l ≡ s2 m [MOD base] := by
  have hl1 : s1 l % base < 65521 := Nat.mod_lt _ (by decide)
  have hm1 : s1 m % base < 65521 := Nat.mod_lt _ (by decide)
  simp only [checksum, Nat.ModEq]
  omega

/-- The sums when two bytes stand at a distance. -/
theorem sums_pair (pre mid post : List UInt8) : ∃ x y : ℕ, ∀ a b : UInt8,
    s1 (pre ++ a :: mid ++ b :: post) = x + (a.toNat + b.toNat)
      ∧ s2 (pre ++ a :: mid ++ b :: post)
        = y + ((mid.length + 1) * a.toNat + (post.length + 1) * (a.toNat + b.toNat)) := by
  obtain ⟨⟨x₀, y₀⟩, h₀⟩ : ∃ s, pre.foldl step (1, 0) = s := ⟨_, rfl⟩
  obtain ⟨⟨x₁, y₁⟩, h₁⟩ : ∃ s, mid.foldl step (0, 0) = s := ⟨_, rfl⟩
  obtain ⟨⟨x₂, y₂⟩, h₂⟩ : ∃ s, post.foldl step (0, 0) = s := ⟨_, rfl⟩
  refine ⟨x₀ + x₁ + x₂, y₀ + x₀ + (mid.length * x₀ + y₁) + (x₀ + x₁) + (post.length * (x₀ + x₁) + y₂),
    fun a b => ?_⟩
  have hsums := foldl_step_eq (pre ++ a :: mid ++ b :: post)
  rw [List.foldl_append, List.foldl_cons, List.foldl_append, List.foldl_cons, h₀,
    foldl_step_add _ mid, h₁, foldl_step_add _ post, h₂] at hsums
  simp only [step, Prod.mk.injEq] at hsums
  obtain ⟨h1, h2⟩ := hsums
  constructor
  · omega
  · rw [← h2]
    ring

theorem prime_base : base.Prime := by
  norm_num [base]

/-- A change of two bytes goes undetected exactly if it keeps their sum and they are a multiple of
the modulus apart. -/
theorem checksum_pair_iff (pre mid post : List UInt8) {a a' b b' : UInt8} (hpair : (a, b) ≠ (a', b')) :
    checksum (pre ++ a :: mid ++ b :: post) = checksum (pre ++ a' :: mid ++ b' :: post)
      ↔ a.toNat + b.toNat = a'.toNat + b'.toNat ∧ base ∣ mid.length + 1 := by
  obtain ⟨x, y, hsums⟩ := sums_pair pre mid post
  have hlt (c : UInt8) : c.toNat < 256 := c.toNat_lt
  have hbase : base = 65521 := rfl
  have hsum : x + (a.toNat + b.toNat) ≡ x + (a'.toNat + b'.toNat) [MOD base]
      ↔ a.toNat + b.toNat = a'.toNat + b'.toNat := by
    constructor
    · intro h
      have hab := hlt a
      have hbb := hlt b
      have hab' := hlt a'
      have hbb' := hlt b'
      refine Nat.ModEq.eq_of_lt_of_lt (Nat.ModEq.add_left_cancel' x h) ?_ ?_ <;> omega
    · rintro h
      rw [h]
  rw [checksum_eq_iff, (hsums a b).1, (hsums a b).2, (hsums a' b').1, (hsums a' b').2, hsum]
  refine and_congr_right fun heq => ?_
  have hne : a.toNat ≠ a'.toNat := by
    intro h
    have hb : b.toNat = b'.toNat := by omega
    exact hpair (Prod.ext (UInt8.toNat_inj.mp h) (UInt8.toNat_inj.mp hb))
  rw [heq]
  constructor
  · intro h
    have hcancel : (mid.length + 1) * a.toNat ≡ (mid.length + 1) * a'.toNat [MOD base] :=
      Nat.ModEq.add_right_cancel' _ (Nat.ModEq.add_left_cancel' y h)
    by_contra hdvd
    have hcoprime : base.Coprime (mid.length + 1) := (Nat.Prime.coprime_iff_not_dvd prime_base).mpr hdvd
    have hmod : a.toNat ≡ a'.toNat [MOD base] := Nat.ModEq.cancel_left_of_coprime hcoprime hcancel
    refine hne (Nat.ModEq.eq_of_lt_of_lt hmod ?_ ?_)
    · have := hlt a
      omega
    · have := hlt a'
      omega
  · intro hdvd
    have hzero (c : UInt8) : (mid.length + 1) * c.toNat ≡ 0 [MOD base] :=
      (Nat.modEq_zero_iff_dvd).mpr (hdvd.mul_right c.toNat)
    exact Nat.ModEq.add_left y (Nat.ModEq.add_right _ ((hzero a).trans (hzero a').symm))

end Adler
