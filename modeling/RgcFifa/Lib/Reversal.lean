import Mathlib.Data.List.Induction
import Mathlib.Tactic

/-! Turning a part of a list around in place, by a loop that exchanges its ends. How two places are
exchanged is a parameter; it may fail. -/

namespace Reversal

variable {α : Type*}

/-- From `i` up and from `j` down, until they meet. -/
def loop (exchange : ℤ → ℤ → List α → Option (List α)) (i j : ℤ) (l : List α) : Option (List α) :=
  if i < j then (exchange i j l).bind fun l => loop exchange (i + 1) (j - 1) l else some l
termination_by (j - i).toNat

/-- Two different places are exchanged, and the rest is left as it is. -/
def Exchanges (exchange : ℤ → ℤ → List α → Option (List α)) : Prop :=
  ∀ pre a mid b post, exchange pre.length (pre.length + mid.length + 1 : ℕ)
    (pre ++ a :: mid ++ b :: post) = some (pre ++ b :: mid ++ a :: post)

variable {exchange : ℤ → ℤ → List α → Option (List α)}

theorem loop_of_le {i j : ℤ} (h : j ≤ i) (l : List α) : loop exchange i j l = some l := by
  rw [loop, if_neg (not_lt.mpr h)]

theorem loop_of_lt {i j : ℤ} (h : i < j) (l : List α) :
    loop exchange i j l = (exchange i j l).bind (loop exchange (i + 1) (j - 1)) := by
  rw [loop, if_pos h]

theorem loop_eq (h : Exchanges exchange) (pre seg post : List α) :
    loop exchange pre.length (pre.length + seg.length - 1) (pre ++ seg ++ post) =
      some (pre ++ seg.reverse ++ post) := by
  induction seg using List.bidirectionalRec generalizing pre post with
  | nil => exact loop_of_le (by simp) _
  | singleton a => exact loop_of_le (by simp) _
  | cons_append a mid b ih =>
    have hlast : (pre.length + (a :: (mid ++ [b])).length - 1 : ℤ) =
        (pre.length + mid.length + 1 : ℕ) := by
      simp only [List.length_cons, List.length_append, List.length_nil]
      omega
    have hfirst : ((pre ++ [b]).length : ℤ) = pre.length + 1 := by simp
    have hnext : ((pre ++ [b]).length + mid.length - 1 : ℤ) =
        (pre.length + mid.length + 1 : ℕ) - 1 := by
      rw [hfirst]
      omega
    have hends : pre ++ a :: (mid ++ [b]) ++ post = pre ++ a :: mid ++ b :: post := by simp
    have hinner := ih (pre ++ [b]) (a :: post)
    rw [hnext, hfirst] at hinner
    rw [hlast, hends, loop_of_lt (by omega), h, Option.bind_some]
    simpa using hinner

end Reversal
