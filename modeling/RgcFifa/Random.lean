import RgcFifa.Lib.Lagged

/-! The random number generator of the base library: a linear congruential generator, which also
fills the state of the larger ones, and the additive feedback over a ring of words. -/

namespace RgcFifa.Random

abbrev Word := BitVec 32

def NSHUFF : ℕ := 50

/-- The modulus of the congruential generator, 2³¹ - 1. -/
def M : ℤ := 0x7FFFFFFF

/-- `goodRand` on the value of its signed argument. -/
def goodRandInt (x : ℤ) : ℤ :=
  let x := if x = 0 then 123459876 else x
  let hi := x.tdiv 127773
  let lo := x.tmod 127773
  let x := 16807 * lo - 2836 * hi
  if x < 0 then x + 0x7FFFFFFF else x

def goodRand (x : Word) : Word := BitVec.ofInt 32 (goodRandInt x.toInt)

/-- The generator. The pointers are indices of `state`, and `_endPtr` is `randDeg`. -/
structure Generator where
  randType : ℕ
  randDeg : ℕ
  randSep : ℕ
  state : List Word
  fptr : ℕ
  rptr : ℕ

/-- `next()`. The rear pointer is not tested when the front one has wrapped. -/
def next (g : Generator) : Word × Generator :=
  if g.randType = 0 then
    let i := goodRand (g.state.getD 0 0) &&& 0x7FFFFFFF
    (i, { g with state := g.state.set 0 i })
  else
    let f := g.state.getD g.fptr 0 + g.state.getD g.rptr 0
    let i := f >>> 1 &&& 0x7FFFFFFF
    let state := g.state.set g.fptr f
    if g.randDeg ≤ g.fptr + 1 then
      (i, { g with state := state, fptr := 0, rptr := g.rptr + 1 })
    else if g.randDeg ≤ g.rptr + 1 then
      (i, { g with state := state, fptr := g.fptr + 1, rptr := 0 })
    else
      (i, { g with state := state, fptr := g.fptr + 1, rptr := g.rptr + 1 })

/-- The generator after `n` calls of `next()`. -/
def after (g : Generator) : ℕ → Generator
  | 0 => g
  | n + 1 => (next (after g n)).2

/-- `_state[i] = goodRand(_state[i - 1])` from the word before, `n` times. -/
def fillState (x : Word) : ℕ → List Word
  | 0 => []
  | n + 1 => goodRand x :: fillState (goodRand x) n

def seed (g : Generator) (x : Word) : Generator :=
  if g.randType = 0 then after { g with state := [x] } NSHUFF
  else
    after { g with state := x :: fillState x (g.randDeg - 1), fptr := g.randSep, rptr := 0 }
      (10 * g.randDeg)

/-- The largest generator that fits `n` bytes. -/
def initState (s : Word) (n : ℕ) : Option Generator :=
  if n < 8 then none
  else if n < 32 then some (seed ⟨0, 0, 0, [], 0, 0⟩ s)
  else if n < 64 then some (seed ⟨1, 7, 3, [], 0, 0⟩ s)
  else if n < 128 then some (seed ⟨2, 15, 1, [], 0, 0⟩ s)
  else if n < 256 then some (seed ⟨3, 31, 3, [], 0, 0⟩ s)
  else some (seed ⟨4, 63, 1, [], 0, 0⟩ s)

/-! ### The congruential generator -/

theorem tdiv_tmod_bounds {x : ℤ} (hlo : -2 ^ 31 ≤ x) (hhi : x < 2 ^ 31) :
    127773 * x.tdiv 127773 + x.tmod 127773 = x
      ∧ (0 ≤ x → 0 ≤ x.tdiv 127773 ∧ x.tdiv 127773 ≤ 16807 ∧ 0 ≤ x.tmod 127773 ∧ x.tmod 127773 ≤ 127772)
      ∧ (x ≤ 0 → -16807 ≤ x.tdiv 127773 ∧ x.tdiv 127773 ≤ 0
        ∧ -127772 ≤ x.tmod 127773 ∧ x.tmod 127773 ≤ 0) := by
  have hsum := Int.mul_tdiv_add_tmod x 127773
  refine ⟨hsum, fun hx => ?_, fun hx => ?_⟩
  · have hdiv : x.tdiv 127773 = x / 127773 := Int.tdiv_eq_ediv_of_nonneg hx
    omega
  · have hneg : (-x).tdiv 127773 = -x / 127773 := Int.tdiv_eq_ediv_of_nonneg (by omega)
    rw [Int.neg_tdiv] at hneg
    omega

/-- No step of the computation leaves the range of a 32-bit signed number. -/
theorem goodRand_in_range {x : ℤ} (hlo : -2 ^ 31 ≤ x) (hhi : x < 2 ^ 31) :
    |16807 * x.tmod 127773| < 2 ^ 31 ∧ |2836 * x.tdiv 127773| < 2 ^ 31
      ∧ |16807 * x.tmod 127773 - 2836 * x.tdiv 127773| < 2 ^ 31 - 1 := by
  obtain ⟨_, hpos, hneg⟩ := tdiv_tmod_bounds hlo hhi
  rcases le_total 0 x with hx | hx
  · obtain ⟨h1, h2, h3, h4⟩ := hpos hx
    refine ⟨abs_lt.mpr ⟨?_, ?_⟩, abs_lt.mpr ⟨?_, ?_⟩, abs_lt.mpr ⟨?_, ?_⟩⟩ <;> omega
  · obtain ⟨h1, h2, h3, h4⟩ := hneg hx
    refine ⟨abs_lt.mpr ⟨?_, ?_⟩, abs_lt.mpr ⟨?_, ?_⟩, abs_lt.mpr ⟨?_, ?_⟩⟩ <;> omega

/-- The product modulo 2³¹ - 1, of every number but zero. -/
theorem goodRandInt_eq {x : ℤ} (hlo : -2 ^ 31 ≤ x) (hhi : x < 2 ^ 31) (hx : x ≠ 0) :
    goodRandInt x = 16807 * x % M := by
  obtain ⟨hsum, hpos, hneg⟩ := tdiv_tmod_bounds hlo hhi
  have hvalue : 16807 * x.tmod 127773 - 2836 * x.tdiv 127773 = 16807 * x - M * x.tdiv 127773 := by
    simp only [M]
    omega
  have hmod : (16807 * x.tmod 127773 - 2836 * x.tdiv 127773) % M = 16807 * x % M := by
    rw [hvalue, Int.sub_mul_emod_self_left]
  have hrange := (goodRand_in_range hlo hhi).2.2
  obtain ⟨hlow, hhigh⟩ := abs_lt.mp hrange
  simp only [goodRandInt, if_neg hx]
  rw [← hmod]
  simp only [M]
  by_cases hsign : 16807 * x.tmod 127773 - 2836 * x.tdiv 127773 < 0
  · rw [if_pos hsign]
    omega
  · rw [if_neg hsign]
    omega

theorem goodRandInt_bounds (x : Word) : 0 ≤ goodRandInt x.toInt ∧ goodRandInt x.toInt < M := by
  have hlo := x.le_toInt
  have hhi := x.toInt_lt
  have hM : (0 : ℤ) < M := by decide
  by_cases hx : x.toInt = 0
  · simp only [hx]
    decide
  · rw [goodRandInt_eq (by simpa using hlo) (by simpa using hhi) hx]
    exact ⟨Int.emod_nonneg _ hM.ne', Int.emod_lt_of_pos _ hM⟩

theorem toInt_goodRand (x : Word) : (goodRand x).toInt = goodRandInt x.toInt := by
  obtain ⟨hlo, hhi⟩ := goodRandInt_bounds x
  simp only [M] at hhi
  rw [goodRand, BitVec.toInt_ofInt_eq_self (by decide)] <;> simp <;> omega

/-- For every 32-bit argument: no step overflows, and the result is the product modulo 2³¹ - 1. -/
theorem goodRand_product (x : Word) :
    let v := if x.toInt = 0 then 123459876 else x.toInt
    |16807 * v.tmod 127773| < 2 ^ 31 ∧ |2836 * v.tdiv 127773| < 2 ^ 31
      ∧ |16807 * v.tmod 127773 - 2836 * v.tdiv 127773| < 2 ^ 31 - 1
      ∧ (goodRand x).toInt = 16807 * v % M := by
  have hlo : -2 ^ 31 ≤ x.toInt := by simpa using x.le_toInt
  have hhi : x.toInt < 2 ^ 31 := by simpa using x.toInt_lt
  rw [toInt_goodRand]
  by_cases hx : x.toInt = 0
  · simp only [hx, if_true]
    decide
  · obtain ⟨h1, h2, h3⟩ := goodRand_in_range hlo hhi
    simp only [hx, if_false]
    exact ⟨h1, h2, h3, goodRandInt_eq hlo hhi hx⟩

/-- The mask keeps all of a number below 2³¹. -/
theorem goodRand_masked (x : Word) : goodRand x &&& 0x7FFFFFFF = goodRand x := by
  obtain ⟨hlo, hhi⟩ := goodRandInt_bounds x
  have hint := toInt_goodRand x
  have hlt : (goodRand x).toNat < 2 ^ 31 := by
    rw [BitVec.toInt_eq_toNat_cond] at hint
    simp only [M] at hhi
    split_ifs at hint <;> omega
  apply BitVec.eq_of_toNat_eq
  rw [BitVec.toNat_and]
  exact (Nat.and_two_pow_sub_one_eq_mod _ 31).trans (Nat.mod_eq_of_lt hlt)

theorem goodRand_residue {x : Word} {a : ℤ} (hx : x.toInt = a % M) (ha : ¬ M ∣ a) :
    (goodRand x).toInt = 16807 * a % M ∧ ¬ M ∣ 16807 * a := by
  have hne : x.toInt ≠ 0 := by
    rw [hx]
    exact fun h => ha (Int.dvd_of_emod_eq_zero h)
  have hlo := x.le_toInt
  have hhi := x.toInt_lt
  constructor
  · rw [toInt_goodRand, goodRandInt_eq (by simpa using hlo) (by simpa using hhi) hne, hx,
      Int.mul_emod, Int.emod_emod_of_dvd _ dvd_rfl, ← Int.mul_emod]
  · have hcoprime : IsCoprime M 16807 := by
      rw [Int.isCoprime_iff_gcd_eq_one]
      decide
    exact fun h => ha (hcoprime.dvd_of_dvd_mul_left h)

theorem iterate_residue {x : Word} {a : ℤ} (hx : x.toInt = a % M) (ha : ¬ M ∣ a) (n : ℕ) :
    (goodRand^[n] x).toInt = 16807 ^ n * a % M ∧ ¬ M ∣ 16807 ^ n * a := by
  induction n with
  | zero => simpa using ⟨hx, ha⟩
  | succ n ih =>
    rw [Function.iterate_succ_apply', pow_succ', mul_assoc]
    exact goodRand_residue ih.1 ih.2

/-- Where the powers of 16807 start after two numbers. A seed that is a multiple of the modulus
gives zero, and zero counts as 123459876. -/
def start (s : Word) : ℤ :=
  if s.toInt = 0 then 16807 * (16807 * 123459876)
  else if M ∣ s.toInt then 16807 * 123459876
  else 16807 * (16807 * s.toInt)

theorem iterate_seed (s : Word) (n : ℕ) :
    (goodRand^[n + 2] s).toInt = 16807 ^ n * start s % M ∧ ¬ M ∣ 16807 ^ n * start s := by
  have hlo := s.le_toInt
  have hhi := s.toInt_lt
  have hfirst {x : Word} (hx : x.toInt = 0) : (goodRand x).toInt = 16807 * 123459876 % M := by
    rw [toInt_goodRand, hx]
    decide
  have hbase : ¬ M ∣ (16807 * 123459876 : ℤ) := by decide
  suffices h : (goodRand^[2] s).toInt = start s % M ∧ ¬ M ∣ start s by
    rw [Function.iterate_add_apply]
    exact iterate_residue h.1 h.2 n
  by_cases hzero : s.toInt = 0
  · simp only [start, hzero, if_true]
    exact goodRand_residue (hfirst hzero) hbase
  · by_cases hdvd : M ∣ s.toInt
    · simp only [start, hzero, hdvd, if_true, if_false]
      refine ⟨hfirst ?_, hbase⟩
      rw [toInt_goodRand, goodRandInt_eq (by simpa using hlo) (by simpa using hhi) hzero]
      exact Int.emod_eq_zero_of_dvd (hdvd.mul_left _)
    · simp only [start, hzero, hdvd, if_false]
      have hone : (goodRand s).toInt = 16807 * s.toInt % M ∧ ¬ M ∣ 16807 * s.toInt := by
        refine ⟨?_, ?_⟩
        · rw [toInt_goodRand, goodRandInt_eq (by simpa using hlo) (by simpa using hhi) hzero]
        · have hcoprime : IsCoprime M 16807 := by
            rw [Int.isCoprime_iff_gcd_eq_one]
            decide
          exact fun h => hdvd (hcoprime.dvd_of_dvd_mul_left h)
      exact goodRand_residue hone.1 hone.2

theorem after_add (g : Generator) (m n : ℕ) : after (after g m) n = after g (m + n) := by
  induction n with
  | zero => rfl
  | succ n ih => rw [after, ih]; rfl

theorem congruential_after {g : Generator} (htype : g.randType = 0) {x : Word} (hstate : g.state = [x])
    (n : ℕ) : (after g n).randType = 0 ∧ (after g n).state = [goodRand^[n] x] := by
  induction n with
  | zero => exact ⟨htype, hstate⟩
  | succ n ih =>
    obtain ⟨ht, hs⟩ := ih
    have hmask := goodRand_masked (goodRand^[n] x)
    simp only [after, next, ht, hs, if_true, List.getD_cons_zero, hmask, List.set_cons_zero,
      Function.iterate_succ_apply', and_self]

/-- With less than 32 bytes: the numbers are the powers of 16807 modulo 2³¹ - 1 from the seed on,
and none of them is zero, whatever the seed is. -/
theorem congruential_outputs (s : Word) {n : ℕ} (hlo : 8 ≤ n) (hhi : n < 32) :
    ∃ g, initState s n = some g ∧ ∀ k, (next (after g k)).1.toInt = 16807 ^ (k + 49) * start s % M
      ∧ (next (after g k)).1 ≠ 0 := by
  refine ⟨seed ⟨0, 0, 0, [], 0, 0⟩ s, by simp [initState, hlo, hhi], fun k => ?_⟩
  have hseed : after (seed ⟨0, 0, 0, [], 0, 0⟩ s) k = after ⟨0, 0, 0, [s], 0, 0⟩ (50 + k) := by
    simp [seed, NSHUFF, after_add]
  obtain ⟨ht, hs⟩ := congruential_after (g := ⟨0, 0, 0, [s], 0, 0⟩) rfl rfl (50 + k)
  have hnext : (next (after (seed ⟨0, 0, 0, [], 0, 0⟩ s) k)).1 = goodRand^[(k + 49) + 2] s := by
    have hmask := goodRand_masked (goodRand^[50 + k] s)
    rw [hseed, (by omega : k + 49 + 2 = 50 + k + 1)]
    simp only [next, ht, hs, if_true, List.getD_cons_zero, hmask, Function.iterate_succ_apply']
  obtain ⟨hvalue, hdvd⟩ := iterate_seed s (k + 49)
  rw [hnext]
  refine ⟨hvalue, fun hzero => hdvd ?_⟩
  rw [hzero] at hvalue
  exact Int.dvd_of_emod_eq_zero hvalue.symm

theorem congruential_outputs_eight : ∃ g, initState 0x7FFFFFFF 8 = some g
    ∧ ∀ k, (next (after g k)).1.toInt = 16807 ^ (k + 49) * start 0x7FFFFFFF % M
      ∧ (next (after g k)).1 ≠ 0 :=
  congruential_outputs 0x7FFFFFFF (by decide) (by decide)

/-! ### The additive feedback -/

open Lagged

/-- The word that seeding puts at a place of the state. -/
def seeded (s : Word) (i : ℕ) : Word := goodRand^[i] s

/-- The sequence of the feedback, from the seed on. -/
def feedback (deg sep : ℕ) (s : Word) : ℕ → Word := seq (· + ·) deg sep (seeded s)

theorem fillState_get (s : Word) (n i : ℕ) (h : i < n + 1) :
    (s :: fillState s n)[i]? = some (seeded s i) := by
  induction n generalizing s i with
  | zero =>
    have hi : i = 0 := by omega
    simp [hi, seeded]
  | succ n ih =>
    cases i with
    | zero => simp [seeded]
    | succ i =>
      rw [fillState, List.getElem?_cons_succ, ih _ _ (by omega)]
      rfl

theorem length_fillState (s : Word) (n : ℕ) : (fillState s n).length = n := by
  induction n generalizing s with
  | zero => rfl
  | succ n ih => simp [fillState, ih]

/-- A generator with feedback, `n` calls after its state was filled. -/
structure Feeding (deg sep : ℕ) (s : Word) (n : ℕ) (g : Generator) : Prop where
  type : g.randType ≠ 0
  degree : g.randDeg = deg
  window : Window (· + ·) deg sep (seeded s) n g.state g.fptr g.rptr

theorem masked_half (w : Word) : w >>> 1 &&& 0x7FFFFFFF = w >>> 1 := by
  have hlt := w.isLt
  have hhalf : (w >>> 1).toNat < 2 ^ 31 := by
    rw [BitVec.toNat_ushiftRight, Nat.shiftRight_eq_div_pow]
    omega
  apply BitVec.eq_of_toNat_eq
  rw [BitVec.toNat_and]
  exact (Nat.and_two_pow_sub_one_eq_mod _ 31).trans (Nat.mod_eq_of_lt hhalf)

/-- One call gives the next term of the sequence without its lowest bit. -/
theorem Feeding.next {deg sep : ℕ} {s : Word} {n : ℕ} {g : Generator} (h : Feeding deg sep s n g)
    (hsep : 0 < sep) (hle : sep < deg) :
    (next g).1 = feedback deg sep s (n + deg) >>> 1 ∧ Feeding deg sep s (n + 1) (Random.next g).2 := by
  have hfront : g.state.getD g.fptr 0 = seq (· + ·) deg sep (seeded s) n := by
    rw [List.getD_eq_getElem?_getD, h.window.front_get hle]
    rfl
  have hrear : g.state.getD g.rptr 0 = seq (· + ·) deg sep (seeded s) (n + (deg - sep)) := by
    rw [List.getD_eq_getElem?_getD, h.window.rear_get hsep hle]
    rfl
  have hterm : g.state.getD g.fptr 0 + g.state.getD g.rptr 0
      = seq (· + ·) deg sep (seeded s) (n + deg) := by
    rw [hfront, hrear, seq_add hsep hle]
  have hstep := h.window.step hsep hle
  have hlast := h.window.apart hsep hle
  have hflt : g.fptr < deg := by
    rw [h.window.front]
    exact Nat.mod_lt _ (by omega)
  have hrlt : g.rptr < deg := by
    rw [h.window.rear]
    exact Nat.mod_lt _ (by omega)
  have hmask := masked_half (seq (· + ·) deg sep (seeded s) (n + deg))
  simp only [Random.next, if_neg h.type, hterm, h.degree]
  by_cases hfwrap : deg ≤ g.fptr + 1
  · have hf : g.fptr + 1 = deg := by omega
    rw [hf, Nat.mod_self, Nat.mod_eq_of_lt (hlast hf)] at hstep
    rw [if_pos hfwrap]
    exact ⟨hmask, h.type, rfl, hstep⟩
  · rw [if_neg hfwrap]
    rw [Nat.mod_eq_of_lt (by omega : g.fptr + 1 < deg)] at hstep
    by_cases hrwrap : deg ≤ g.rptr + 1
    · have hr : g.rptr + 1 = deg := by omega
      rw [hr, Nat.mod_self] at hstep
      rw [if_pos hrwrap]
      exact ⟨hmask, h.type, rfl, hstep⟩
    · rw [Nat.mod_eq_of_lt (by omega : g.rptr + 1 < deg)] at hstep
      rw [if_neg hrwrap]
      exact ⟨hmask, h.type, rfl, hstep⟩

theorem Feeding.after {deg sep : ℕ} {s : Word} {n : ℕ} {g : Generator} (h : Feeding deg sep s n g)
    (hsep : 0 < sep) (hle : sep < deg) (k : ℕ) : Feeding deg sep s (n + k) (after g k) := by
  induction k with
  | zero => exact h
  | succ k ih => exact (ih.next hsep hle).2

/-- Degree and separation of the trinomial for `n` bytes of state. -/
def trinomial (n : ℕ) : ℕ × ℕ :=
  if n < 64 then (7, 3) else if n < 128 then (15, 1) else if n < 256 then (31, 3) else (63, 1)

/-- From 32 bytes on: every number is a term of the feedback sequence of the trinomial, without
its lowest bit, from the seed on and after ten rounds through the state. -/
theorem feedback_outputs (s : Word) {n : ℕ} (hn : 32 ≤ n) :
    ∃ g, initState s n = some g ∧ ∀ k, (next (after g k)).1
      = feedback (trinomial n).1 (trinomial n).2 s
          (10 * (trinomial n).1 + k + (trinomial n).1) >>> 1 := by
  have hseed (type deg sep : ℕ) (htype : type ≠ 0) (hsep : 0 < sep) (hle : sep < deg) (k : ℕ) :
      (next (after (seed ⟨type, deg, sep, [], 0, 0⟩ s) k)).1
        = feedback deg sep s (10 * deg + k + deg) >>> 1 := by
    have hlen : (s :: fillState s (deg - 1)).length = deg := by
      simp only [List.length_cons, length_fillState]
      omega
    have hstart : Feeding deg sep s 0 ⟨type, deg, sep, s :: fillState s (deg - 1), sep, 0⟩ :=
      ⟨htype, rfl, window_zero hle hlen fun i hi => fillState_get s _ i (by omega)⟩
    have hrun := hstart.after hsep hle (10 * deg + k)
    have hafter : after (seed ⟨type, deg, sep, [], 0, 0⟩ s) k
        = after ⟨type, deg, sep, s :: fillState s (deg - 1), sep, 0⟩ (10 * deg + k) := by
      simp only [seed, if_neg htype, after_add]
    rw [hafter, (hrun.next hsep hle).1, zero_add]
  have h8 : ¬ n < 8 := by omega
  have h32 : ¬ n < 32 := by omega
  by_cases h64 : n < 64
  · refine ⟨_, by rw [initState, if_neg h8, if_neg h32, if_pos h64], ?_⟩
    simpa [trinomial, h64] using hseed 1 7 3 (by decide) (by decide) (by decide)
  · by_cases h128 : n < 128
    · refine ⟨_, by rw [initState, if_neg h8, if_neg h32, if_neg h64, if_pos h128], ?_⟩
      simpa [trinomial, h64, h128] using hseed 2 15 1 (by decide) (by decide) (by decide)
    · by_cases h256 : n < 256
      · refine ⟨_, by rw [initState, if_neg h8, if_neg h32, if_neg h64, if_neg h128, if_pos h256], ?_⟩
        simpa [trinomial, h64, h128, h256] using hseed 3 31 3 (by decide) (by decide) (by decide)
      · refine ⟨_, by rw [initState, if_neg h8, if_neg h32, if_neg h64, if_neg h128, if_neg h256], ?_⟩
        simpa [trinomial, h64, h128, h256] using hseed 4 63 1 (by decide) (by decide) (by decide)

theorem feedback_outputs_default : ∃ g, initState 1 256 = some g ∧ ∀ k, (next (after g k)).1
    = feedback (trinomial 256).1 (trinomial 256).2 1
        (10 * (trinomial 256).1 + k + (trinomial 256).1) >>> 1 :=
  feedback_outputs 1 (by decide)

end RgcFifa.Random
