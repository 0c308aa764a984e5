import Mathlib.Tactic

/-! Lagged sequences: each term comes from the terms `deg` and `sep` before it. A ring of `deg`
cells with two pointers, `sep` apart, holds the last `deg` terms. -/

namespace Lagged

variable {α : Type*} (op : α → α → α) (deg sep : ℕ) (x : ℕ → α)

/-- The first `deg` terms are given, in the order in which the ring is read. -/
def seq (n : ℕ) : α :=
  if n < deg ∨ deg = 0 ∨ sep = 0 then x ((n + sep) % deg) else op (seq (n - deg)) (seq (n - sep))
termination_by n
decreasing_by all_goals omega

variable {op deg sep x}

theorem seq_of_lt {n : ℕ} (h : n < deg) : seq op deg sep x n = x ((n + sep) % deg) := by
  rw [seq]
  simp [h]

theorem seq_add (hsep : 0 < sep) (hle : sep < deg) (n : ℕ) :
    seq op deg sep x (n + deg) = op (seq op deg sep x n) (seq op deg sep x (n + (deg - sep))) := by
  have hn : ¬ (n + deg < deg ∨ deg = 0 ∨ sep = 0) := by omega
  have hlag : n + deg - sep = n + (deg - sep) := by omega
  rw [seq, if_neg hn, Nat.add_sub_cancel, hlag]

variable (op deg sep x) in
/-- The ring after `n` steps, with the pointer that is written and the one that is only read. -/
structure Window (n : ℕ) (cells : List α) (front rear : ℕ) : Prop where
  length : cells.length = deg
  front : front = (sep + n) % deg
  rear : rear = n % deg
  cells : ∀ j < deg, cells[(sep + n + j) % deg]? = some (seq op deg sep x (n + j))

theorem window_zero (hle : sep < deg) {cells : List α} (hlen : cells.length = deg)
    (hcells : ∀ i < deg, cells[i]? = some (x i)) : Window op deg sep x 0 cells sep 0 where
  length := hlen
  front := (Nat.mod_eq_of_lt hle).symm
  rear := (Nat.zero_mod deg).symm
  cells j hj := by
    rw [zero_add, seq_of_lt hj, add_zero, add_comm sep, hcells _ (Nat.mod_lt _ (by omega))]

variable {n front rear : ℕ} {cells : List α}

/-- The pointer in front reads the oldest term. -/
theorem Window.front_get (h : Window op deg sep x n cells front rear) (hle : sep < deg) :
    cells[front]? = some (seq op deg sep x n) := by
  rw [h.front]
  exact h.cells 0 (by omega)

theorem Window.rear_get (h : Window op deg sep x n cells front rear) (hsep : 0 < sep)
    (hle : sep < deg) : cells[rear]? = some (seq op deg sep x (n + (deg - sep))) := by
  have hmod : (sep + n + (deg - sep)) % deg = n % deg := by
    rw [(by omega : sep + n + (deg - sep) = n + deg), Nat.add_mod_right]
  rw [h.rear, ← hmod]
  exact h.cells (deg - sep) (by omega)

/-- Both pointers cannot be at the last cell. -/
theorem Window.apart (h : Window op deg sep x n cells front rear) (hsep : 0 < sep) (hle : sep < deg)
    (hlast : front + 1 = deg) : rear + 1 < deg := by
  have hlt : rear < deg := by
    rw [h.rear]
    exact Nat.mod_lt _ (by omega)
  have hne : front ≠ rear := by
    rw [h.front, h.rear]
    intro heq
    have hcongr : n ≡ n + sep [MOD deg] := by
      rw [add_comm n sep]
      exact heq.symm
    have hdvd : deg ∣ sep := by simpa using (Nat.modEq_iff_dvd' (by omega)).mp hcongr
    have hle' := Nat.le_of_dvd hsep hdvd
    omega
  omega

theorem succ_mod (hdeg : 0 < deg) (m : ℕ) : (m % deg + 1) % deg = (m + 1) % deg := by
  simp

/-- The new term takes the cell of the oldest one, and both pointers go on. -/
theorem Window.step (h : Window op deg sep x n cells front rear) (hsep : 0 < sep) (hle : sep < deg) :
    Window op deg sep x (n + 1) (cells.set front (seq op deg sep x (n + deg)))
      ((front + 1) % deg) ((rear + 1) % deg) where
  length := by rw [List.length_set, h.length]
  front := by rw [h.front, succ_mod (by omega), add_assoc]
  rear := by rw [h.rear, succ_mod (by omega)]
  cells j hj := by
    have hlt : front < cells.length := by
      rw [h.front, h.length]
      exact Nat.mod_lt _ (by omega)
    by_cases hlast : j = deg - 1
    · have hplace : (sep + (n + 1) + j) % deg = front := by
        rw [h.front, (by omega : sep + (n + 1) + j = sep + n + deg), Nat.add_mod_right]
      rw [hplace, List.getElem?_set_self hlt, (by omega : n + 1 + j = n + deg)]
    · have hne : front ≠ (sep + (n + 1) + j) % deg := by
        rw [h.front]
        intro heq
        have hmod : (sep + n) % deg = (sep + n + (j + 1)) % deg := by
          rw [heq]
          congr 1
          omega
        have hdvd : deg ∣ j + 1 := by
          have hcongr : sep + n ≡ sep + n + (j + 1) [MOD deg] := hmod
          simpa using (Nat.modEq_iff_dvd' (by omega)).mp hcongr
        have hle' := Nat.le_of_dvd (by omega) hdvd
        omega
      rw [List.getElem?_set_ne hne, (by omega : sep + (n + 1) + j = sep + n + (j + 1)),
        h.cells (j + 1) (by omega), (by omega : n + (j + 1) = n + 1 + j)]

end Lagged
