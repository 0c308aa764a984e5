import Mathlib.Tactic

/-! Walks in a tree of named directories, read off the names alone. A walk goes down to a name or up
to the parent, and at the root up stays there. Two walks lead to the same place from everywhere
exactly if they have the same normal form: some steps up and then names. -/

namespace Lexical

universe u

inductive Move (α : Type u) where
  | up
  | down (a : α)
  deriving DecidableEq

variable {α : Type u}

/-- One move from the directory with these names from the root. -/
def step (σ : List α) : Move α → List α
  | .up => σ.dropLast
  | .down a => σ ++ [a]

def walk (σ : List α) (ms : List (Move α)) : List α := ms.foldl step σ

@[simp] theorem walk_nil (σ : List α) : walk σ [] = σ := rfl

@[simp] theorem walk_append (σ : List α) (ms ns : List (Move α)) : walk σ (ms ++ ns) = walk (walk σ ms) ns :=
  List.foldl_append

/-- The normal form of a walk. -/
@[ext] structure Normal (α : Type u) where
  ups : ℕ
  downs : List α

namespace Normal

def moves (n : Normal α) : List (Move α) := List.replicate n.ups .up ++ n.downs.map .down

/-- One more move. -/
def push (n : Normal α) : Move α → Normal α
  | .down a => ⟨n.ups, n.downs ++ [a]⟩
  | .up => if n.downs = [] then ⟨n.ups + 1, []⟩ else ⟨n.ups, n.downs.dropLast⟩

/-- A walk from the root, where up stays. -/
def pushRooted (n : Normal α) : Move α → Normal α
  | .down a => ⟨n.ups, n.downs ++ [a]⟩
  | .up => ⟨n.ups, n.downs.dropLast⟩

theorem walk_ups (σ : List α) (k : ℕ) :
    walk σ (List.replicate k (Move.up : Move α)) = σ.take (σ.length - k) := by
  induction k generalizing σ with
  | zero => simp
  | succ k ih =>
    rw [List.replicate_succ]
    show walk σ.dropLast _ = _
    rw [ih, List.dropLast_eq_take, List.take_take, List.length_take]
    congr 1
    omega

theorem walk_downs (σ names : List α) : walk σ (names.map Move.down) = σ ++ names := by
  induction names generalizing σ with
  | nil => simp
  | cons a names ih =>
    show walk (σ ++ [a]) _ = _
    rw [ih, List.append_assoc, List.singleton_append]

theorem walk_moves (σ : List α) (n : Normal α) :
    walk σ n.moves = σ.take (σ.length - n.ups) ++ n.downs := by
  rw [moves, walk_append, walk_ups, walk_downs]

theorem walk_push (σ : List α) (n : Normal α) (m : Move α) :
    walk σ (n.push m).moves = step (walk σ n.moves) m := by
  cases m with
  | down a => simp [push, walk_moves, step]
  | up =>
    by_cases hd : n.downs = []
    · rw [push, if_pos hd, walk_moves, walk_moves, hd, List.append_nil, List.append_nil]
      show _ = (σ.take (σ.length - n.ups)).dropLast
      rw [List.dropLast_eq_take, List.take_take, List.length_take]
      congr 1
      dsimp only
      omega
    · rw [push, if_neg hd, walk_moves, walk_moves]
      show _ = (_ ++ n.downs).dropLast
      rw [List.dropLast_append_of_ne_nil hd]

/-- Walks that lead to the same place from everywhere have the same normal form. -/
theorem eq_of_walk [Inhabited α] {n m : Normal α} (h : ∀ σ, walk σ n.moves = walk σ m.moves) : n = m := by
  have hdowns : n.downs = m.downs := by
    have hroot := h []
    simpa [walk_moves] using hroot
  have hlength := congrArg List.length (h (List.replicate (n.ups + m.ups) default))
  simp only [walk_moves, hdowns, List.length_append, List.length_take, List.length_replicate] at hlength
  ext1
  · omega
  · exact hdowns

/-- From the root a walk is where the rooted one is. -/
theorem walk_pushRooted (n : Normal α) (m : Move α) :
    walk [] (n.pushRooted m).moves = step (walk [] n.moves) m := by
  cases m with
  | down a => simp [pushRooted, walk_moves, step]
  | up => simp [pushRooted, walk_moves, step]

end Normal

end Lexical
