import Mathlib.Tactic

/-! Iterated compression of a stream of symbols in blocks of `b`. A machine that takes the symbols
one at a time and compresses whenever its block is full holds the compression of the full blocks
and the rest of the stream, however the stream was cut on the way. -/

namespace BlockHash

variable {α σ : Type*}

/-- The first `n` blocks of a stream, compressed in order. -/
def fold (f : σ → List α → σ) (b : ℕ) : ℕ → σ → List α → σ
  | 0, h, _ => h
  | n + 1, h, l => fold f b n (f h (l.take b)) (l.drop b)

def push (f : σ → List α → σ) (b : ℕ) (s : σ × List α) (a : α) : σ × List α :=
  if s.2.length + 1 = b then (f s.1 (s.2 ++ [a]), []) else (s.1, s.2 ++ [a])

def absorb (f : σ → List α → σ) (b : ℕ) (s : σ × List α) (l : List α) : σ × List α :=
  l.foldl (push f b) s

variable {f : σ → List α → σ} {b : ℕ}

theorem absorb_append (s : σ × List α) (l m : List α) :
    absorb f b s (l ++ m) = absorb f b (absorb f b s l) m := List.foldl_append

theorem fold_add (m n : ℕ) (h : σ) (l : List α) :
    fold f b (m + n) h l = fold f b n (fold f b m h l) (l.drop (b * m)) := by
  induction m generalizing h l with
  | zero => simp [fold]
  | succ m ih =>
    have hm : b * (m + 1) = b + b * m := by ring
    simp [Nat.succ_add, fold, ih, hm]

theorem fold_append {n : ℕ} {l : List α} (hl : b * n ≤ l.length) (h : σ) (m : List α) :
    fold f b n h (l ++ m) = fold f b n h l := by
  induction n generalizing h l with
  | zero => simp [fold]
  | succ n ih =>
    have hb : b + b * n ≤ l.length := by
      rw [mul_add] at hl
      omega
    have hrest : b * n ≤ (l.drop b).length := by
      simp
      omega
    simp only [fold, List.take_append_of_le_length (by omega : b ≤ l.length),
      List.drop_append_of_le_length (by omega : b ≤ l.length), ih hrest]

theorem fold_one {l : List α} (hl : l.length = b) (h : σ) : fold f b 1 h l = f h l := by
  simp [fold, ← hl]

theorem fold_block {l : List α} (hl : l.length = b) (n : ℕ) (h : σ) (m : List α) :
    fold f b (n + 1) h (l ++ m) = fold f b n (f h l) m := by
  simp [fold, ← hl]

/-- The step of the machine: the block that the symbol fills is the next one of the stream. -/
theorem absorb_eq (hb : 0 < b) (h : σ) (l : List α) :
    absorb f b (h, []) l = (fold f b (l.length / b) h l, l.drop (b * (l.length / b))) := by
  induction l using List.reverseRecOn with
  | nil => simp [absorb, fold]
  | append_singleton l a ih =>
    have hdiv := Nat.div_add_mod l.length b
    have hmod := Nat.mod_lt l.length hb
    have hrest : (l.drop (b * (l.length / b))).length = l.length % b := by
      simp
      omega
    have hpush : absorb f b (h, []) (l ++ [a]) = push f b (absorb f b (h, []) l) a := by
      simp [absorb]
    rw [hpush, ih]
    by_cases hfull : l.length % b + 1 = b
    · have hlen : l.length + 1 = b * (l.length / b + 1) := by
        rw [mul_add]
        omega
      have hnext : (l ++ [a]).length / b = l.length / b + 1 := by
        simp [hlen, Nat.mul_div_cancel_left _ hb]
      have hblock : (l.drop (b * (l.length / b)) ++ [a]).length = b := by
        simp only [List.length_append, hrest, List.length_singleton, hfull]
      have hfold : fold f b (l.length / b + 1) h (l ++ [a])
          = f (fold f b (l.length / b) h l) (l.drop (b * (l.length / b)) ++ [a]) := by
        rw [fold_add, fold_append (by omega), List.drop_append_of_le_length (by omega),
          fold_one hblock]
      have hend : (l ++ [a]).drop (b * (l.length / b + 1)) = [] := by
        simp [← hlen]
      simp only [push, hrest, hfull, if_true, hnext, hfold, hend]
    · have hlen : (l.length + 1) / b = l.length / b := by
        rw [Nat.div_eq_iff hb]
        constructor
        · rw [mul_comm]
          omega
        · rw [mul_comm]
          omega
      have hle : b * (l.length / b) ≤ l.length := by omega
      simp [push, hrest, hfull, hlen, fold_append hle, List.drop_append_of_le_length hle]

theorem length_absorb (hb : 0 < b) (h : σ) (l : List α) :
    (absorb f b (h, []) l).2.length = l.length % b := by
  have hdiv := Nat.div_add_mod l.length b
  rw [absorb_eq hb]
  simp
  omega

/-- What comes after the stream is compressed together with the rest that the machine holds. -/
theorem fold_absorb (hb : 0 < b) (h : σ) (l m : List α) :
    fold f b ((l ++ m).length / b) h (l ++ m)
      = fold f b (((absorb f b (h, []) l).2 ++ m).length / b) (absorb f b (h, []) l).1
          ((absorb f b (h, []) l).2 ++ m) := by
  have hdiv := Nat.div_add_mod l.length b
  have hlen : (l ++ m).length / b = l.length / b + (l.length % b + m.length) / b := by
    rw [List.length_append, ← Nat.mul_add_div hb]
    congr 1
    omega
  have hrest : (l.drop (b * (l.length / b)) ++ m).length = l.length % b + m.length := by
    simp
    omega
  rw [absorb_eq hb, hlen, fold_add, fold_append (by omega), hrest,
    List.drop_append_of_le_length (by omega)]

end BlockHash
