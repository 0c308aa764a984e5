import RgcFifa.Lib.Transition

/-! What is seen of a run, and machines that a function maps to others with the same events. -/

namespace Transition

variable {σ ε α δ : Type*}

/-- The events that are seen of a run. -/
def trace (step : ε → σ → Option σ) (seen : ε → σ → List δ) : List ε → σ → List δ
  | [], _ => []
  | e :: es, s => seen e s ++ (step e s).elim [] (trace step seen es)

/-- Where the invariant holds and the events meet the condition, what is seen of a step leads from the image of the
state to that of the next one. -/
structure Simulation (step : ε → σ → Option σ) (C : ε → σ → Prop) (seen : ε → σ → List δ) (I : σ → Prop)
    (abstract : δ → α → Option α) (f : σ → α) : Prop where
  keeps : ∀ e s t, I s → C e s → step e s = some t → I t
  follows : ∀ e s t, I s → C e s → step e s = some t → run abstract (seen e s) (f s) = some (f t)

theorem Simulation.run {step : ε → σ → Option σ} {C : ε → σ → Prop} {seen : ε → σ → List δ} {I : σ → Prop}
    {abstract : δ → α → Option α} {f : σ → α} (h : Simulation step C seen I abstract f) {es : List ε} {s u : σ}
    (hs : I s) (hC : Always step C es s) (hrun : Transition.run step es s = some u) :
    Transition.run abstract (trace step seen es s) (f s) = some (f u) := by
  induction es generalizing s with
  | nil =>
    obtain rfl : s = u := Option.some.inj hrun
    rfl
  | cons e es ih =>
    obtain ⟨t, ht, hrest⟩ := run_cons.mp hrun
    rw [trace, ht]
    exact run_append (h.follows e s t hs hC.1 ht) (ih (h.keeps e s t hs hC.1 ht) (hC.2 t ht) hrest)

end Transition
