import RgcFifa.Lib.Transition

/-! A flag that one party raises and others take down to ask for a stop. The request is kept
exactly in the runs that never raise the flag behind a request. -/

namespace StopFlag

variable {σ ε : Type*}

/-- The events in `raises` raise the flag. Every other event leaves a request that is kept a
request that is kept. -/
structure Raised (step : ε → σ → Option σ) (flag asked : σ → Bool) (raises : ε → σ → Prop) :
    Prop where
  enabled : ∀ e s, raises e s → ∃ t, step e s = some t ∧ flag t = true ∧ asked t = asked s
  other : ∀ e s t, step e s = some t → ¬ raises e s → (asked s = true → flag s = false) →
    asked t = true → flag t = false

variable {step : ε → σ → Option σ} {flag asked : σ → Bool} {raises : ε → σ → Prop}

theorem Raised.step_keeps (h : Raised step flag asked raises) {e : ε} {s t : σ}
    (hC : raises e s → asked s = false) (hs : asked s = true → flag s = false)
    (ht : step e s = some t) : asked t = true → flag t = false := by
  by_cases hr : raises e s
  · obtain ⟨u, hu, _, hasked⟩ := h.enabled e s hr
    obtain rfl : u = t := Option.some.inj (hu.symm.trans ht)
    intro ha
    rw [hasked, hC hr] at ha
    exact absurd ha Bool.false_ne_true
  · exact h.other e s t ht hr hs

theorem Raised.kept_iff (h : Raised step flag asked raises) {s : σ} (hs : asked s = false)
    (es : List ε) : Transition.Always step (fun e t => raises e t → asked t = false) es s ↔
      ∀ pre suf t, es = pre ++ suf → Transition.run step pre s = some t →
        asked t = true → flag t = false := by
  constructor
  · rintro hC pre suf t rfl ht
    have hstart : asked s = true → flag s = false := by simp [hs]
    exact Transition.run_preserves_of (I := fun t => asked t = true → flag t = false)
      (fun _ _ _ hi hC ht => h.step_keeps hC hi ht) hstart hC.of_append ht
  · intro hkept
    apply Transition.always_iff.mpr
    rintro pre e suf t rfl ht hr
    obtain ⟨u, hu, hflag, hasked⟩ := h.enabled e t hr
    have hrun : Transition.run step (pre ++ [e]) s = some u :=
      Transition.run_append ht (Transition.run_cons.mpr ⟨u, hu, rfl⟩)
    have hdown := hkept (pre ++ [e]) suf u (List.append_cons _ _ _) hrun
    rw [hasked, hflag] at hdown
    by_contra ha
    exact Bool.noConfusion (hdown (Bool.not_eq_false _ ▸ ha))

end StopFlag
