import RgcFifa.Lib.Positional
import RgcFifa.Lib.Reversal

/-! `Itoa`, at any of the integer types. Characters are bytes, since their sums are narrowed to
eight bits whatever the sign of `char`. -/

namespace RgcFifa

open Positional

/-- The standard signed and unsigned integer types. -/
inductive IntType where
  | signed_char | short | int | long | long_long
  | unsigned_char | unsigned_short | unsigned_int | unsigned_long | unsigned_long_long

namespace IntType

def bits : IntType → ℕ
  | signed_char | unsigned_char => 8
  | short | unsigned_short => 16
  | int | unsigned_int => 32
  | long | long_long | unsigned_long | unsigned_long_long => 64

def signed : IntType → Bool
  | signed_char | short | int | long | long_long => true
  | _ => false

def min (T : IntType) : ℤ := if T.signed then -2 ^ (T.bits - 1) else 0

def max (T : IntType) : ℤ := if T.signed then 2 ^ (T.bits - 1) - 1 else 2 ^ T.bits - 1

/-- Conversion to the type. -/
def wrap (T : IntType) (x : ℤ) : ℤ := if T.signed then x.bmod (2 ^ T.bits) else x % 2 ^ T.bits

/-- The type of an operation on one of the type and an `int`. -/
def common : IntType → IntType
  | signed_char | short | int | unsigned_char | unsigned_short => int
  | T => T

/-- Undefined without a quotient that the type has. -/
def defined (T : IntType) (x d : ℤ) : Prop := d ≠ 0 ∧ ¬ (x = T.min ∧ d = -1)

instance (T : IntType) (x d : ℤ) : Decidable (T.defined x d) :=
  inferInstanceAs (Decidable (_ ∧ _))

/-- `n % dec`. -/
def rem (T : IntType) (n dec : ℤ) : Option ℤ :=
  let C := T.common
  if C.defined (C.wrap n) (C.wrap dec) then some ((C.wrap n).tmod (C.wrap dec)) else none

/-- `n /= dec`. -/
def quot (T : IntType) (n dec : ℤ) : Option ℤ :=
  let C := T.common
  if C.defined (C.wrap n) (C.wrap dec) then some (T.wrap ((C.wrap n).tdiv (C.wrap dec))) else none

abbrev Val (T : IntType) := { n : ℤ // T.min ≤ n ∧ n ≤ T.max }

end IntType

namespace Itoa

/-- `none` out of range. -/
def load (i : ℤ) (buffer : List UInt8) : Option UInt8 :=
  if 0 ≤ i then buffer[i.toNat]? else none

def store (i : ℤ) (c : UInt8) (buffer : List UInt8) : Option (List UInt8) :=
  if 0 ≤ i ∧ i < buffer.length then some (buffer.set i.toNat c) else none

/-- `"0123456789"`. -/
def table : List UInt8 := [48, 49, 50, 51, 52, 53, 54, 55, 56, 57, 0]

/-- `none` where no character is zero. -/
def strlen (buffer : List UInt8) : Option ℕ := buffer.idxOf? 0

/-- `std::string(buffer)`. -/
def string (buffer : List UInt8) : Option (List UInt8) :=
  (strlen buffer).map fun len => buffer.take len

/-- The first loop. It returns from `Itoa` itself where the buffer is full. -/
def digits (T : IntType) (dec n : ℤ) (buffer : List UInt8) (p : ℕ) :
    Option (Except (List UInt8) (List UInt8 × ℕ)) :=
  if p < buffer.length then
    (T.rem n dec).bind fun i => (load i table).bind fun c => (T.quot n dec).bind fun n =>
      if p + 1 > buffer.length then some (.error [])
      else if n ≠ 0 then digits T dec n (buffer.set p c) (p + 1)
      else some (.ok (buffer.set p c, p + 1))
  else none
termination_by buffer.length - p
decreasing_by
  rw [List.length_set]
  omega

/-- The body of the second loop: two characters change places by way of their sum. -/
def exchange (i j : ℤ) (buffer : List UInt8) : Option (List UInt8) := do
  let buffer ← store j ((← load i buffer) + (← load j buffer)) buffer
  let buffer ← store i ((← load j buffer) - (← load i buffer)) buffer
  store j ((← load j buffer) - (← load i buffer)) buffer

end Itoa

open Itoa in
/-- `none` where the behaviour is undefined. -/
def itoa (T : IntType) (n : T.Val) (dec : ℤ := 10) : Option (List UInt8) :=
  (digits T dec n (List.replicate 256 0) 0).bind fun
    | .error s => some s
    | .ok (buffer, p) => (store p 0 buffer).bind fun buffer => (strlen buffer).bind fun len =>
        (Reversal.loop exchange 0 (len - 1) buffer).bind string

namespace IntType

variable {T : IntType} {x : ℤ} {b : ℕ}

theorem wrap_of_mem (hmin : T.min ≤ x) (hmax : x ≤ T.max) : T.wrap x = x := by
  rw [min] at hmin
  rw [max] at hmax
  rw [wrap]
  cases hT : T.signed with
  | true =>
    simp only [hT, if_true] at hmin hmax ⊢
    cases T <;> exact Int.bmod_eq_of_le hmin (by simpa [bits] using Int.lt_add_one_of_le hmax)
  | false =>
    simp only [hT, Bool.false_eq_true, if_false] at hmin hmax ⊢
    exact Int.emod_eq_of_lt hmin (Int.lt_of_le_sub_one hmax)

theorem zero_mem (T : IntType) : T.min ≤ 0 ∧ 0 ≤ T.max := by
  cases T <;> decide

/-- A type is converted to one that has all its numbers, and those of a base. -/
theorem common_bounds (T : IntType) :
    T.common.min ≤ T.min ∧ T.max ≤ T.common.max ∧ T.common.min ≤ 2 ∧ 10 ≤ T.common.max := by
  cases T <;> decide

theorem max_lt (T : IntType) : T.max < 2 ^ 64 := by
  cases T <;> decide

theorem tdiv_mem (n : T.Val) (b : ℕ) : T.min ≤ n.1.tdiv b ∧ n.1.tdiv b ≤ T.max := by
  obtain ⟨n, hmin, hmax⟩ := n
  obtain ⟨hlow, hhigh⟩ := T.zero_mem
  obtain ⟨m, rfl | rfl⟩ := n.eq_nat_or_neg
  · have hle := Nat.div_le_self m b
    rw [← Int.ofNat_tdiv]
    generalize m / b = q at hle
    omega
  · have hle := Nat.div_le_self m b
    rw [Int.neg_tdiv, ← Int.ofNat_tdiv]
    generalize m / b = q at hle
    omega

theorem defined_common (n : T.Val) (h2 : 2 ≤ b) (h10 : b ≤ 10) :
    T.common.wrap n = n ∧ T.common.wrap (b : ℤ) = b ∧ T.common.defined n b := by
  obtain ⟨n, hmin, hmax⟩ := n
  obtain ⟨hlow, hhigh, hlow2, hhigh10⟩ := T.common_bounds
  refine ⟨wrap_of_mem (hlow.trans hmin) (hmax.trans hhigh), wrap_of_mem (by omega) (by omega), ?_⟩
  rw [defined]
  omega

theorem rem_eq (n : T.Val) (h2 : 2 ≤ b) (h10 : b ≤ 10) : T.rem n b = some (n.1.tmod b) := by
  obtain ⟨hn, hb, hdef⟩ := defined_common n h2 h10
  simp only [rem, hn, hb, if_pos hdef]

theorem quot_eq (n : T.Val) (h2 : 2 ≤ b) (h10 : b ≤ 10) : T.quot n b = some (n.1.tdiv b) := by
  obtain ⟨hn, hb, hdef⟩ := defined_common n h2 h10
  have hquot := wrap_of_mem (tdiv_mem n b).1 (tdiv_mem n b).2
  simp only [quot, hn, hb, if_pos hdef, hquot]

end IntType

namespace Itoa

variable {T : IntType} {b : ℕ}

theorem load_table {d : ℕ} (h : d < 10) : load d table = some (digitChar d) := by
  rw [load, if_pos (by omega), Int.toNat_natCast]
  interval_cases d <;> rfl

theorem load_table_neg {i : ℤ} (h : i < 0) : load i table = none := if_neg (by omega)

/-- One round, which stays in the buffer. -/
theorem digits_round (n : T.Val) {buffer : List UInt8} {p : ℕ} (h2 : 2 ≤ b) (h10 : b ≤ 10)
    (hp : p < buffer.length) : digits T b n buffer p = (load (n.1.tmod b) table).bind fun c =>
      if n.1.tdiv b ≠ 0 then digits T b (n.1.tdiv b) (buffer.set p c) (p + 1)
      else some (.ok (buffer.set p c, p + 1)) := by
  rw [digits, if_pos hp, IntType.rem_eq n h2 h10, Option.bind_some, IntType.quot_eq n h2 h10]
  simp only [Option.bind_some, if_neg (show ¬ p + 1 > buffer.length by omega)]

/-- The digits are written behind one another, the lowest first. -/
theorem digits_nat (h2 : 2 ≤ b) (h10 : b ≤ 10) (m : ℕ) (hm : (m : ℤ) ≤ T.max) (pre rest : List UInt8)
    (hlen : (lowFirst b m).length ≤ rest.length) :
    digits T b m (pre ++ rest) pre.length =
      some (.ok (pre ++ (lowFirst b m).map digitChar ++ rest.drop (lowFirst b m).length,
        pre.length + (lowFirst b m).length)) := by
  induction m using Nat.strong_induction_on generalizing pre rest with
  | _ m ih =>
    cases rest with
    | nil => simp [lowFirst] at hlen
    | cons x rest =>
      have hmod : m % b < b := Nat.mod_lt _ (by omega)
      have hround := digits_round (T := T) ⟨m, T.zero_mem.1.trans (by omega), hm⟩ h2 h10
        (show pre.length < (pre ++ x :: rest).length by simp)
      rw [← Int.ofNat_tmod, ← Int.ofNat_tdiv, load_table (by omega), Option.bind_some] at hround
      have hset : (pre ++ x :: rest).set pre.length (digitChar (m % b)) =
          pre ++ [digitChar (m % b)] ++ rest := by simp
      rw [hround, hset]
      by_cases hlt : m < b
      · rw [lowFirst_of_lt hlt, Nat.div_eq_of_lt hlt, Nat.mod_eq_of_lt hlt]
        simp
      · have hle := Nat.not_lt.mp hlt
        have hdiv : m / b < m := Nat.div_lt_self (by omega) (by omega)
        have hne : ((m / b : ℕ) : ℤ) ≠ 0 := by
          have hpos := Nat.div_pos hle (by omega)
          omega
        rw [if_pos hne]
        rw [lowFirst_of_le (by omega) hle, List.length_cons, List.length_cons] at hlen
        have hrest := ih (m / b) hdiv (by omega) (pre ++ [digitChar (m % b)]) rest (by omega)
        rw [lowFirst_of_le (by omega) hle]
        simpa [Nat.add_assoc, Nat.add_comm 1] using hrest

/-- A negative number comes to a digit in front of the table. -/
theorem digits_neg (h2 : 2 ≤ b) (h10 : b ≤ 10) (n : T.Val) (hn : n.1 < 0) (buffer : List UInt8)
    (p : ℕ) : digits T b n buffer p = none := by
  induction hm : n.1.natAbs using Nat.strong_induction_on generalizing n buffer p with
  | _ m ih =>
    by_cases hp : p < buffer.length
    · obtain ⟨k, hk⟩ := Int.exists_eq_neg_ofNat hn.le
      have htmod : n.1.tmod b = -(k % b : ℕ) := by rw [hk, Int.neg_tmod, ← Int.ofNat_tmod]
      have htdiv : n.1.tdiv b = -(k / b : ℕ) := by rw [hk, Int.neg_tdiv, ← Int.ofNat_tdiv]
      rw [digits_round n h2 h10 hp, htmod]
      by_cases hmod : k % b = 0
      · have hmul : b * (k / b) = k := Nat.mul_div_cancel' (Nat.dvd_of_mod_eq_zero hmod)
        have hpos : 0 < k / b := Nat.pos_of_ne_zero fun hzero => by
          rw [hzero, Nat.mul_zero] at hmul
          omega
        have hlt : k / b < k := Nat.div_lt_self (by omega) (by omega)
        have hload : load (-(0 : ℕ)) table = some (digitChar 0) := rfl
        have hneg : n.1.tdiv b < 0 := by omega
        have habs : (n.1.tdiv b).natAbs = k / b := by
          rw [htdiv, Int.natAbs_neg, Int.natAbs_natCast]
        rw [hmod, hload, Option.bind_some, if_pos hneg.ne]
        exact ih (k / b) (by omega) ⟨n.1.tdiv b, IntType.tdiv_mem n b⟩ hneg _ _ habs
      · rw [load_table_neg (by omega), Option.bind_none]
    · rw [digits, if_neg hp]

theorem load_append (pre : List UInt8) (c : UInt8) (post : List UInt8) :
    load pre.length (pre ++ c :: post) = some c := by
  simp [load]

theorem store_append (pre : List UInt8) (c v : UInt8) (post : List UInt8) :
    store pre.length v (pre ++ c :: post) = some (pre ++ v :: post) := by
  simp [store]

/-- The sum less one of the two is the other, however it wraps. -/
theorem exchanges : Reversal.Exchanges exchange := by
  intro pre a mid c post
  have hlast (x : UInt8) : ((pre.length + mid.length + 1 : ℕ) : ℤ) = (pre ++ x :: mid).length := by
    simp [Nat.add_assoc]
  have hfirst (x y : UInt8) : pre ++ x :: mid ++ y :: post = pre ++ x :: (mid ++ y :: post) := by
    simp
  have hloadFirst (x y : UInt8) : load pre.length (pre ++ x :: mid ++ y :: post) = some x := by
    rw [hfirst, load_append]
  have hloadLast (x y : UInt8) : load (pre.length + mid.length + 1 : ℕ)
      (pre ++ x :: mid ++ y :: post) = some y := by
    rw [hlast x, load_append]
  have hstoreFirst (x y v : UInt8) : store pre.length v (pre ++ x :: mid ++ y :: post) =
      some (pre ++ v :: mid ++ y :: post) := by
    rw [hfirst, store_append, hfirst]
  have hstoreLast (x y v : UInt8) : store (pre.length + mid.length + 1 : ℕ) v
      (pre ++ x :: mid ++ y :: post) = some (pre ++ x :: mid ++ v :: post) := by
    rw [hlast x, store_append]
  have hleft : a + c - a = c := by rw [UInt8.add_comm, UInt8.add_sub_cancel]
  have hright : a + c - c = a := UInt8.add_sub_cancel a c
  simp only [exchange, hloadFirst, hloadLast, hstoreFirst, hstoreLast, Option.bind_eq_bind,
    Option.bind_some, hleft, hright]

theorem strlen_append {cs : List UInt8} (h : 0 ∉ cs) (post : List UInt8) :
    strlen (cs ++ 0 :: post) = some cs.length := by
  induction cs with
  | nil => rfl
  | cons c cs ih =>
    obtain ⟨hc, hcs⟩ : 0 ≠ c ∧ 0 ∉ cs := by simpa using h
    have hrest := ih hcs
    rw [strlen] at hrest ⊢
    rw [List.cons_append, List.idxOf?_cons, hrest]
    simp [Ne.symm hc]

theorem string_append {cs : List UInt8} (h : 0 ∉ cs) (post : List UInt8) :
    string (cs ++ 0 :: post) = some cs := by
  rw [string, strlen_append h, Option.map_some, List.take_left]

theorem zero_notMem_digits {m : ℕ} (h2 : 2 ≤ b) (h10 : b ≤ 10) :
    0 ∉ (lowFirst b m).map digitChar := by
  rw [List.mem_map]
  rintro ⟨d, hd, hchar⟩
  exact digitChar_ne_zero ((lt_of_mem_lowFirst (by omega) d hd).trans_le h10) hchar

/-- What is written is ended, turned around and returned. -/
theorem turned {cs : List UInt8} (h : 0 ∉ cs) (post : List UInt8) :
    ((store cs.length 0 (cs ++ 0 :: post)).bind fun buffer => (strlen buffer).bind fun len =>
      (Reversal.loop exchange 0 (len - 1) buffer).bind string) = some cs.reverse := by
  have hloop := Reversal.loop_eq exchanges [] cs (0 :: post)
  have hrev : 0 ∉ cs.reverse := by rwa [List.mem_reverse]
  simp only [List.nil_append, List.length_nil, Nat.cast_zero, zero_add] at hloop
  rw [store_append, Option.bind_some, strlen_append h, Option.bind_some, hloop, Option.bind_some,
    string_append hrev]

end Itoa

open Itoa

variable {T : IntType} {b : ℕ}

theorem itoa_nat (h2 : 2 ≤ b) (h10 : b ≤ 10) (n : T.Val) {m : ℕ} (hm : n.1 = m) :
    itoa T n b = some ((lowFirst b m).map digitChar).reverse := by
  have hlt : m < b ^ 64 := by
    have hmax := T.max_lt
    have hbase : 2 ^ 64 ≤ b ^ 64 := Nat.pow_le_pow_left h2 64
    have hn := n.2.2
    omega
  have hlen := length_lowFirst_le (by omega) (by omega) hlt
  have hdigits := digits_nat (T := T) h2 h10 m (hm ▸ n.2.2) [] (List.replicate 256 0)
    (by rw [List.length_replicate]; omega)
  have hzeros : (List.replicate 256 (0 : UInt8)).drop (lowFirst b m).length =
      0 :: List.replicate (255 - (lowFirst b m).length) 0 := by
    rw [List.drop_replicate, ← List.replicate_succ]
    congr 1
    omega
  have hback := turned (zero_notMem_digits (m := m) h2 h10)
    (List.replicate (255 - (lowFirst b m).length) 0)
  rw [hzeros] at hdigits
  simp only [List.nil_append, List.length_nil, zero_add] at hdigits
  rw [List.length_map] at hback
  rw [itoa, hm, hdigits, Option.bind_some]
  exact hback

example : itoa .int ⟨1024, by decide⟩ 10 = some [49, 48, 50, 52] := by decide +kernel

theorem itoa_neg (h2 : 2 ≤ b) (h10 : b ≤ 10) (n : T.Val) (hn : n.1 < 0) : itoa T n b = none := by
  rw [itoa, digits_neg h2 h10 n hn, Option.bind_none]

/-- Nothing is written for the sign, and the digits of a negative number are none. -/
theorem itoa_iff (T : IntType) (n : T.Val) (b : { b : ℕ // 2 ≤ b ∧ b ≤ 10 }) :
    (∃ s, itoa T n b.1 = some s ∧ Canonical b n s) ↔ 0 ≤ n.1 := by
  obtain ⟨b, h2, h10⟩ := b
  constructor
  · rintro ⟨s, hs, -⟩
    by_contra hn
    rw [itoa_neg h2 h10 n (not_le.mp hn)] at hs
    cases hs
  · intro hn
    obtain ⟨m, hm⟩ := Int.eq_ofNat_of_zero_le hn
    refine ⟨_, itoa_nat h2 h10 n hm, ?_⟩
    rw [hm]
    exact canonical_lowFirst (by omega) h10 m

/-- `Itoa(-1)` reads in front of the table. -/
theorem itoa_minus_one :
    ¬ ∃ s, itoa .int ⟨-1, by decide⟩ (10 : ℕ) = some s ∧ Canonical 10 (-1) s := by
  rintro ⟨s, hs, -⟩
  rw [itoa_neg (by decide) (by decide) _ (by decide)] at hs
  cases hs

end RgcFifa
