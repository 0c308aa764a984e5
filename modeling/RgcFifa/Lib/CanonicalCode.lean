import Mathlib.Tactic

/-! Canonical prefix codes. The codes of one length are consecutive numbers, and those of the next
length go on behind them. So the number of codes of each length is enough to read a code, and the
decoder need not hold the codes themselves. -/

namespace CanonicalCode

/-- The first code of a length, from the numbers of codes of the shorter lengths. -/
def first (cnt : ℕ → ℕ) : ℕ → ℕ
  | 0 => 0
  | l + 1 => 2 * (first cnt l + cnt l)

/-- How many codes are shorter. -/
def offset (cnt : ℕ → ℕ) : ℕ → ℕ
  | 0 => 0
  | l + 1 => offset cnt l + cnt l

/-- The `l` low bits of a number, most significant first. -/
def msb : ℕ → ℕ → List Bool
  | 0, _ => []
  | l + 1, v => v.testBit l :: msb l v

/-- Read one code: after each bit, is the prefix one of the codes of its length? The result is the
place of the code among all of them. -/
def find (cnt : ℕ → ℕ) (len cur sum : ℕ) : List Bool → Option (ℕ × List Bool)
  | [] => none
  | b :: bs =>
    if 2 * cur + b.toNat < cnt (len + 1) then some (sum + (2 * cur + b.toNat), bs)
    else find cnt (len + 1) (2 * cur + b.toNat - cnt (len + 1)) (sum + cnt (len + 1)) bs

variable {cnt : ℕ → ℕ}

theorem offset_mono {l m : ℕ} (h : l ≤ m) : offset cnt l ≤ offset cnt m := by
  induction h with
  | refl => rfl
  | step _ ih =>
    simp only [offset]
    omega

/-- Codes of different lengths, or of different rank, stand at different places. -/
theorem offset_add_inj {l m r s : ℕ} (hr : r < cnt l) (hs : s < cnt m)
    (h : offset cnt l + r = offset cnt m + s) : l = m ∧ r = s := by
  rcases lt_trichotomy l m with hlt | rfl | hlt
  · have hle : offset cnt (l + 1) ≤ offset cnt m := offset_mono hlt
    simp only [offset] at hle
    omega
  · omega
  · have hle : offset cnt (m + 1) ≤ offset cnt l := offset_mono hlt
    simp only [offset] at hle
    omega

theorem first_le (cnt : ℕ → ℕ) {j l : ℕ} (h : j < l) : 2 ^ (l - j) * (first cnt j + cnt j) ≤ first cnt l := by
  induction l with
  | zero => omega
  | succ l ih =>
    by_cases hj : j = l
    · simp [hj, first]
    · have hlt : j < l := by omega
      have hpow : l + 1 - j = (l - j) + 1 := by omega
      have hle := ih hlt
      rw [hpow, pow_succ, first]
      nlinarith

theorem div_eq_of_testBit (v k : ℕ) : v / 2 ^ k = 2 * (v / 2 ^ (k + 1)) + (v.testBit k).toNat := by
  have hbit : (v.testBit k).toNat = v / 2 ^ k % 2 := Nat.toNat_testBit v k
  have hdiv : v / 2 ^ (k + 1) = v / 2 ^ k / 2 := by rw [pow_succ, Nat.div_div_eq_div_mul]
  omega

/-- A code is found from the state that its first `len` bits lead to. -/
theorem find_from (len : ℕ) {k v : ℕ} (hk : 0 < k) (hlo : first cnt (len + k) ≤ v)
    (hhi : v < first cnt (len + k) + cnt (len + k)) (rest : List Bool) :
    find cnt len (v / 2 ^ k - (first cnt len + cnt len)) (offset cnt (len + 1)) (msb k v ++ rest)
      = some (offset cnt (len + k) + (v - first cnt (len + k)), rest) := by
  induction k generalizing len with
  | zero => omega
  | succ k ih =>
    have hreach : first cnt len + cnt len ≤ v / 2 ^ (k + 1) := by
      have hle := first_le cnt (by omega : len < len + (k + 1))
      rw [Nat.add_sub_cancel_left] at hle
      rw [Nat.le_div_iff_mul_le (by positivity), mul_comm]
      omega
    have hbit := div_eq_of_testBit v k
    have hcur : 2 * (v / 2 ^ (k + 1) - (first cnt len + cnt len)) + (v.testBit k).toNat
        = v / 2 ^ k - first cnt (len + 1) := by
      simp only [first]
      omega
    simp only [msb, List.cons_append, find, hcur]
    by_cases hlast : k = 0
    · subst hlast
      have hin : v - first cnt (len + 1) < cnt (len + 1) := by
        simp only [zero_add] at hlo hhi
        omega
      simp [hin, msb]
    · -- a shorter prefix of the code is above all codes of its own length
      have hshort : cnt (len + 1) ≤ v / 2 ^ k - first cnt (len + 1) := by
        have hle := first_le cnt (by omega : len + 1 < len + (k + 1))
        have hpow : len + (k + 1) - (len + 1) = k := by omega
        rw [hpow] at hle
        have hdiv : first cnt (len + 1) + cnt (len + 1) ≤ v / 2 ^ k := by
          rw [Nat.le_div_iff_mul_le (by positivity), mul_comm]
          omega
        omega
      have hnext : len + 1 + k = len + (k + 1) := by omega
      have hrec := ih (len + 1) (by omega) (by rw [hnext]; exact hlo) (by rw [hnext]; exact hhi)
      rw [hnext] at hrec
      rw [if_neg (by omega), Nat.sub_sub]
      exact hrec

/-- Every code that has its length in bits is read back from its bits, whatever follows. -/
theorem find_code (hzero : cnt 0 = 0) {l v : ℕ} (hl : 0 < l) (hv : v < 2 ^ l)
    (hlo : first cnt l ≤ v) (hhi : v < first cnt l + cnt l) (rest : List Bool) :
    find cnt 0 0 0 (msb l v ++ rest) = some (offset cnt l + (v - first cnt l), rest) := by
  have h := find_from 0 hl (by simpa using hlo) (by simpa using hhi) rest
  simpa [first, offset, hzero, Nat.div_eq_of_lt hv] using h

theorem find_eq_none {len cur sum : ℕ} (h : ∀ l, len < l → cnt l = 0) (bs : List Bool) :
    find cnt len cur sum bs = none := by
  induction bs generalizing len cur sum with
  | nil => rfl
  | cons b bs ih =>
    have hcnt : ¬ 2 * cur + b.toNat < cnt (len + 1) := by
      rw [h (len + 1) (by omega)]
      omega
    simp only [find, hcnt, if_false]
    exact ih fun l hl => h l (by omega)

/-- What is found is a code, and its bits are those that were read. -/
theorem find_sound {len cur sum i : ℕ} {bs rest : List Bool}
    (h : find cnt len cur sum bs = some (i, rest)) (hsum : sum = offset cnt (len + 1)) :
    ∃ k v, 0 < k ∧ v / 2 ^ k = cur + (first cnt len + cnt len) ∧ bs = msb k v ++ rest
      ∧ first cnt (len + k) ≤ v ∧ v < first cnt (len + k) + cnt (len + k)
      ∧ i = offset cnt (len + k) + (v - first cnt (len + k)) := by
  induction bs generalizing len cur sum with
  | nil => cases h
  | cons b bs ih =>
    have hfirst : first cnt (len + 1) = 2 * (first cnt len + cnt len) := rfl
    have hb := b.toNat_lt
    simp only [find] at h
    by_cases hin : 2 * cur + b.toNat < cnt (len + 1)
    · simp only [hin, if_true, Option.some.injEq, Prod.mk.injEq] at h
      refine ⟨1, first cnt (len + 1) + (2 * cur + b.toNat), by decide, by omega, ?_, by omega, by omega, ?_⟩
      · have hbit : (first cnt (len + 1) + (2 * cur + b.toNat)).testBit 0 = b := by
          rw [Nat.testBit_zero, hfirst]
          cases b <;> simp
        simp [msb, hbit, h.2]
      · rw [Nat.add_sub_cancel_left, ← h.1, hsum]
    · simp only [hin, if_false] at h
      obtain ⟨k, v, hk, hdiv, hbs, hlo, hhi, hi⟩ := ih h (by rw [hsum]; rfl)
      have hbit := div_eq_of_testBit v k
      have hlt := (v.testBit k).toNat_lt
      have hsame : (v.testBit k).toNat = b.toNat := by omega
      have hlen : len + 1 + k = len + (k + 1) := by omega
      refine ⟨k + 1, v, by omega, by omega, ?_, hlen ▸ hlo, hlen ▸ hhi, hlen ▸ hi⟩
      have htest : v.testBit k = b := by
        cases hv : v.testBit k <;> cases b <;> simp_all
      simp [msb, htest, hbs]

/-- When the lengths satisfy the inequality of Kraft, every code fits its length. -/
theorem first_add_le {L : ℕ} (hkraft : ∑ j ∈ Finset.range (L + 1), cnt j * 2 ^ (L - j) ≤ 2 ^ L)
    {l : ℕ} (hl : l ≤ L) : first cnt l + cnt l ≤ 2 ^ l := by
  have hpart : 2 ^ (L - l) * (first cnt l + cnt l)
      = ∑ j ∈ Finset.range (l + 1), cnt j * 2 ^ (L - j) := by
    induction l with
    | zero => simp [first, mul_comm]
    | succ l ih =>
      have hpow : 2 ^ (L - l) = 2 * 2 ^ (L - (l + 1)) := by
        rw [← pow_succ']
        congr 1
        omega
      rw [Finset.sum_range_succ, ← ih (by omega), hpow, first]
      ring
  have hle : ∑ j ∈ Finset.range (l + 1), cnt j * 2 ^ (L - j)
      ≤ ∑ j ∈ Finset.range (L + 1), cnt j * 2 ^ (L - j) :=
    Finset.sum_le_sum_of_subset (Finset.range_subset_range.mpr (by omega))
  have hsplit : 2 ^ L = 2 ^ (L - l) * 2 ^ l := by
    rw [← pow_add]
    congr 1
    omega
  have hle' : 2 ^ (L - l) * (first cnt l + cnt l) ≤ 2 ^ (L - l) * 2 ^ l := by omega
  exact Nat.le_of_mul_le_mul_left hle' (Nat.two_pow_pos _)

/-! ### The code of a list of lengths -/

/-- How many symbols have a length. A symbol of length 0 has no code. -/
def count (ls : List ℕ) (l : ℕ) : ℕ := if l = 0 then 0 else ls.count l

/-- The symbols of the same length before a symbol. -/
def rank (ls : List ℕ) (s : ℕ) : ℕ := (ls.take s).count (ls.getD s 0)

def code (ls : List ℕ) (s : ℕ) : List Bool :=
  msb (ls.getD s 0) (first (count ls) (ls.getD s 0) + rank ls s)

/-- The place of a symbol when they are sorted by length. -/
def place (ls : List ℕ) (s : ℕ) : ℕ := offset (count ls) (ls.getD s 0) + rank ls s

def Kraft (L : ℕ) (ls : List ℕ) : Prop :=
  ∑ j ∈ Finset.range (L + 1), count ls j * 2 ^ (L - j) ≤ 2 ^ L

instance (L : ℕ) (ls : List ℕ) : Decidable (Kraft L ls) := inferInstanceAs (Decidable (_ ≤ _))

theorem count_of_pos (ls : List ℕ) {l : ℕ} (hl : 0 < l) : count ls l = ls.count l := by
  simp [count, hl.ne']

theorem count_take_lt {ls : List ℕ} {s : ℕ} (hs : s < ls.length) :
    (ls.take s).count ls[s] < ls.count ls[s] := by
  have hsplit := List.take_append_drop s ls
  have hdrop : ls.drop s = ls[s] :: ls.drop (s + 1) := List.drop_eq_getElem_cons hs
  have hcount := congrArg (List.count ls[s]) hsplit
  rw [List.count_append, hdrop, List.count_cons_self] at hcount
  omega

/-- The symbols of a run of equal lengths are placed one after the other. -/
theorem place_run {ls : List ℕ} (pre : List ℕ) {post : List ℕ} {l n j : ℕ}
    (h : ls = pre ++ (List.replicate n l ++ post)) (hj : j < n) :
    place ls (pre.length + j) = offset (count ls) l + (pre.count l + j) := by
  have hget : ls.getD (pre.length + j) 0 = l := by
    rw [h, List.getD_eq_getElem?_getD, List.getElem?_append_right (by omega), Nat.add_sub_cancel_left,
      List.getElem?_append_left (by simpa using hj)]
    simp [hj]
  have htake : ls.take (pre.length + j) = pre ++ List.replicate j l := by
    rw [h, List.take_length_add_append, List.take_append_of_le_length (by simpa using hj.le),
      List.take_replicate, min_eq_left hj.le]
  rw [place, rank, hget, htake, List.count_append, List.count_replicate_self]

theorem rank_lt {ls : List ℕ} {s : ℕ} (hs : ls.getD s 0 ≠ 0) :
    rank ls s < count ls (ls.getD s 0) := by
  have hlt : s < ls.length := by
    by_contra h
    simp [List.getD_eq_getElem?_getD, List.getElem?_eq_none (by omega : ls.length ≤ s)] at hs
  have hget : ls.getD s 0 = ls[s] := by simp [List.getD_eq_getElem?_getD, hlt]
  rw [count_of_pos ls (Nat.pos_of_ne_zero hs), rank, hget]
  exact count_take_lt hlt

theorem rank_lt_rank {ls : List ℕ} {s t : ℕ} (ht : t < ls.length) (hst : s < t)
    (hlen : ls.getD s 0 = ls.getD t 0) : rank ls s < rank ls t := by
  have hs : s < (ls.take t).length := by
    simp
    omega
  have hget : (ls.take t)[s] = ls.getD s 0 := by
    simp [List.getD_eq_getElem?_getD, (by omega : s < ls.length)]
  have hlt := count_take_lt hs
  rw [List.take_take, min_eq_left hst.le, hget] at hlt
  rw [rank, rank, ← hlen]
  exact hlt

theorem place_inj {ls : List ℕ} {s t : ℕ} (hs : ls.getD s 0 ≠ 0) (ht : ls.getD t 0 ≠ 0)
    (h : place ls s = place ls t) : s = t := by
  obtain ⟨hlen, hrank⟩ := offset_add_inj (rank_lt hs) (rank_lt ht) h
  have hlt {u : ℕ} (hu : ls.getD u 0 ≠ 0) : u < ls.length := by
    by_contra hge
    simp [List.getD_eq_getElem?_getD, List.getElem?_eq_none (by omega : ls.length ≤ u)] at hu
  rcases lt_trichotomy s t with hst | hst | hst
  · have := rank_lt_rank (hlt ht) hst hlen
    omega
  · exact hst
  · have := rank_lt_rank (hlt hs) hst hlen.symm
    omega

theorem offset_count_cons (x : ℕ) (ls : List ℕ) (l : ℕ) :
    offset (count (x :: ls)) l = offset (count ls) l + if 0 < x ∧ x < l then 1 else 0 := by
  induction l with
  | zero => simp [offset]
  | succ l ih =>
    by_cases hl : l = 0
    · subst hl
      simp [offset, count]
      omega
    · have hcount : count (x :: ls) l = count ls l + if x = l then 1 else 0 := by
        simp [count, hl, List.count_cons]
      rw [offset, offset, ih, hcount]
      split_ifs <;> omega

/-- The places of the symbols are below their number. -/
theorem offset_le_length (ls : List ℕ) (l : ℕ) : offset (count ls) l ≤ ls.length := by
  induction ls with
  | nil =>
    induction l with
    | zero => simp [offset]
    | succ l ih => simpa [offset, count] using ih
  | cons x ls ih =>
    rw [offset_count_cons, List.length_cons]
    split_ifs <;> omega

/-- The bits of a symbol's code lead to its place. -/
theorem find_symbol {L : ℕ} {ls : List ℕ} (hkraft : Kraft L ls) {s : ℕ} (hs : ls.getD s 0 ≠ 0)
    (hL : ls.getD s 0 ≤ L) (rest : List Bool) :
    find (count ls) 0 0 0 (code ls s ++ rest) = some (place ls s, rest) := by
  have hrank := rank_lt hs
  have hfit := first_add_le hkraft hL
  have h := find_code (show count ls 0 = 0 from rfl) (Nat.pos_of_ne_zero hs)
    (by omega : first (count ls) (ls.getD s 0) + rank ls s < 2 ^ ls.getD s 0) (by omega) (by omega) rest
  rwa [Nat.add_sub_cancel_left] at h

theorem exists_rank {ls : List ℕ} {l r : ℕ} (h : r < ls.count l) :
    ∃ s, ls[s]? = some l ∧ (ls.take s).count l = r := by
  induction ls generalizing r with
  | nil => simp at h
  | cons x ls ih =>
    by_cases hx : x = l
    · subst hx
      cases r with
      | zero => exact ⟨0, by simp⟩
      | succ r =>
        obtain ⟨s, hs, hr⟩ := ih (r := r) (by simpa using h)
        exact ⟨s + 1, by simp [hs, hr]⟩
    · obtain ⟨s, hs, hr⟩ := ih (r := r) (by simpa [hx] using h)
      exact ⟨s + 1, by simp [hs, hr, hx]⟩

/-- What is found is the place of a symbol, and its code was read. -/
theorem symbol_of_find {ls : List ℕ} {i : ℕ} {bs rest : List Bool}
    (h : find (count ls) 0 0 0 bs = some (i, rest)) :
    ∃ s, ls.getD s 0 ≠ 0 ∧ i = place ls s ∧ bs = code ls s ++ rest := by
  obtain ⟨l, v, hl, _, hbs, hlo, hhi, hi⟩ := find_sound h rfl
  simp only [zero_add] at hlo hhi hi
  have hcount : v - first (count ls) l < ls.count l := by
    rw [← count_of_pos ls hl]
    omega
  obtain ⟨s, hs, hr⟩ := exists_rank hcount
  have hget : ls.getD s 0 = l := by simp [List.getD_eq_getElem?_getD, hs]
  have hrank : rank ls s = v - first (count ls) l := by rw [rank, hget, hr]
  refine ⟨s, by omega, by rw [place, hget, hrank, hi], ?_⟩
  rw [code, hget, hrank, Nat.add_sub_cancel' hlo]
  exact hbs

theorem place_lt {ls : List ℕ} {s : ℕ} (hs : ls.getD s 0 ≠ 0) {L : ℕ} (hL : ls.getD s 0 ≤ L) :
    place ls s < offset (count ls) (L + 1) := by
  have hrank := rank_lt hs
  have hle : offset (count ls) (ls.getD s 0 + 1) ≤ offset (count ls) (L + 1) := offset_mono (by omega)
  simp only [offset] at hle ⊢
  simp only [place]
  omega

end CanonicalCode
