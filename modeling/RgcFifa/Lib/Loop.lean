import Mathlib.Tactic

/-! A loop whose rounds either leave it or go on. It is run for a number of rounds, and leaves
when there is a number that is enough. -/

namespace Loop

variable {ρ σ α : Type*}

inductive Round (ρ σ : Type*) where
  | leave (r : ρ)
  | again (s : σ)

def run (round : σ → Round ρ σ) : ℕ → σ → Option ρ
  | 0, _ => none
  | n + 1, s =>
    match round s with
    | .leave r => some r
    | .again t => run round n t

def Leaves (round : σ → Round ρ σ) (s : σ) : Prop := ∃ n r, run round n s = some r

variable {round : σ → Round ρ σ} {s t : σ} {r : ρ}

/-- The states that the rounds come to. -/
def Reaches (round : σ → Round ρ σ) : σ → σ → Prop :=
  Relation.ReflTransGen fun s t => round s = .again t

end Loop
