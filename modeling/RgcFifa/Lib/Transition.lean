import Mathlib.Tactic

/-! Runs of a partial step function over a list of events. A condition on the
events of a run is checked in the state before each of them. -/

namespace Transition

variable {σ ε : Type*}

/-- All events in order; `none` as soon as one of them is not enabled. -/
def run (step : ε → σ → Option σ) : List ε → σ → Option σ
  | [], s => some s
  | e :: es, s => (step e s).bind (run step es)

def Always (step : ε → σ → Option σ) (C : ε → σ → Prop) : List ε → σ → Prop
  | [], _ => True
  | e :: es, s => C e s ∧ ∀ t, step e s = some t → Always step C es t

instance decidableAlways (step : ε → σ → Option σ) (C : ε → σ → Prop)
    [∀ e s, Decidable (C e s)] : ∀ es s, Decidable (Always step C es s)
  | [], _ => .isTrue trivial
  | e :: es, s =>
    match h : step e s with
    | none => decidable_of_iff (C e s) (by simp [Always, h])
    | some t =>
      have := decidableAlways step C es t
      decidable_of_iff (C e s ∧ Always step C es t) (by simp [Always, h])

variable {step : ε → σ → Option σ} {C : ε → σ → Prop} {I : σ → Prop}

theorem run_cons {e : ε} {es : List ε} {s u : σ} :
    run step (e :: es) s = some u ↔ ∃ t, step e s = some t ∧ run step es t = some u := by
  simp [run, Option.bind_eq_some_iff]

theorem run_append {es fs : List ε} {s t u : σ} (hs : run step es s = some t)
    (ht : run step fs t = some u) : run step (es ++ fs) s = some u := by
  induction es generalizing s with
  | nil =>
    obtain rfl : s = t := Option.some.inj hs
    exact ht
  | cons e es ih =>
    obtain ⟨v, hv, hrest⟩ := run_cons.mp hs
    exact run_cons.mpr ⟨v, hv, ih hrest⟩

theorem run_append_iff {es fs : List ε} {s u : σ} :
    run step (es ++ fs) s = some u ↔ ∃ t, run step es s = some t ∧ run step fs t = some u := by
  constructor
  · intro h
    induction es generalizing s with
    | nil => exact ⟨s, rfl, h⟩
    | cons e es ih =>
      obtain ⟨v, hv, hrest⟩ := run_cons.mp h
      obtain ⟨t, ht, hu⟩ := ih hrest
      exact ⟨t, run_cons.mpr ⟨v, hv, ht⟩, hu⟩
  · rintro ⟨t, ht, hu⟩
    exact run_append ht hu

theorem run_snoc {es : List ε} {e : ε} {s u : σ} :
    run step (es ++ [e]) s = some u ↔ ∃ t, run step es s = some t ∧ step e t = some u := by
  rw [run_append_iff]
  simp [run]

/-- A condition always holds when it holds in the state that each prefix leads to. -/
theorem always_iff {es : List ε} {s : σ} : Always step C es s ↔
    ∀ pre e suf t, es = pre ++ e :: suf → run step pre s = some t → C e t := by
  induction es generalizing s with
  | nil => simp [Always]
  | cons e es ih =>
    constructor
    · rintro ⟨hC, hrest⟩ pre e' suf t he ht
      cases pre with
      | nil =>
        obtain ⟨rfl, rfl⟩ := List.cons.inj he
        obtain rfl : s = t := Option.some.inj ht
        exact hC
      | cons d pre =>
        obtain ⟨rfl, rfl⟩ := List.cons.inj he
        obtain ⟨u, hu, ht⟩ := run_cons.mp ht
        exact ih.mp (hrest u hu) pre e' suf t rfl ht
    · intro h
      refine ⟨h [] e es s rfl rfl, fun u hu => ih.mpr ?_⟩
      intro pre e' suf t he ht
      exact h (e :: pre) e' suf t (by rw [he, List.cons_append]) (run_cons.mpr ⟨u, hu, ht⟩)

theorem Always.of_append {es fs : List ε} {s : σ} (h : Always step C (es ++ fs) s) :
    Always step C es s := by
  apply always_iff.mpr
  intro pre e suf t he ht
  exact always_iff.mp h pre e (suf ++ fs) t (by rw [he, List.append_assoc, List.cons_append]) ht

/-- Two conditions that mean the same wherever an invariant holds, which may be one that lasts
only as long as they do. -/
theorem always_congr_of {D : ε → σ → Prop}
    (hstep : ∀ e s t, I s → C e s → step e s = some t → I t)
    (hCD : ∀ e s, I s → (C e s ↔ D e s)) {es : List ε} {s : σ} (hs : I s) :
    Always step C es s ↔ Always step D es s := by
  induction es generalizing s with
  | nil => exact Iff.rfl
  | cons e es ih =>
    rw [Always, Always, ← hCD e s hs]
    apply and_congr_right
    intro hC
    exact forall₂_congr fun t ht => ih (hstep e s t hs hC ht)

/-- Two conditions that mean the same wherever the invariant holds. -/
theorem always_congr {D : ε → σ → Prop} (hstep : ∀ e s t, I s → step e s = some t → I t)
    (hCD : ∀ e s, I s → (C e s ↔ D e s)) {es : List ε} {s : σ} (hs : I s) :
    Always step C es s ↔ Always step D es s :=
  always_congr_of (fun e s t hs _ ht => hstep e s t hs ht) hCD hs

/-- A condition that no event changes can be checked of all events at the start. -/
theorem always_iff_forall (henabled : ∀ e s, C e s → ∃ t, step e s = some t)
    (hframe : ∀ e s t, step e s = some t → ∀ e', C e' t ↔ C e' s) {es : List ε} {s : σ} :
    Always step C es s ↔ ∀ e ∈ es, C e s := by
  induction es generalizing s with
  | nil => simp [Always]
  | cons e es ih =>
    rw [List.forall_mem_cons]
    apply and_congr_right
    intro hC
    obtain ⟨t, ht⟩ := henabled e s hC
    constructor
    · intro h e' he'
      exact (hframe e s t ht e').mp (ih.mp (h t ht) e' he')
    · intro h u hu
      exact ih.mpr fun e' he' => (hframe e s u hu e').mpr (h e' he')

/-- A run on given events is evaluated once, together with what is read off its end. -/
theorem exists_run (step : ε → σ → Option σ) (es : List ε) (s : σ) (P : σ → Prop)
    [DecidablePred P] (h : (run step es s).any fun t => decide (P t)) :
    ∃ t, run step es s = some t ∧ P t := by
  cases hr : run step es s with
  | none => simp [hr] at h
  | some t => exact ⟨t, rfl, by simpa [hr] using h⟩

theorem run_preserves_of (hstep : ∀ e s t, I s → C e s → step e s = some t → I t)
    {es : List ε} {s u : σ} (hs : I s) (hC : Always step C es s)
    (h : run step es s = some u) : I u := by
  induction es generalizing s with
  | nil =>
    obtain rfl : s = u := Option.some.inj h
    exact hs
  | cons e es ih =>
    obtain ⟨t, ht, hu⟩ := run_cons.mp h
    exact ih (hstep e s t hs hC.1 ht) (hC.2 t ht) hu

theorem run_preserves (hstep : ∀ e s t, I s → step e s = some t → I t)
    {es : List ε} {s u : σ} (hs : I s) (h : run step es s = some u) : I u := by
  have hC : Always step (fun _ _ => True) es s := by
    clear h hs
    induction es generalizing s with
    | nil => trivial
    | cons e es ih => exact ⟨trivial, fun t _ => ih⟩
  exact run_preserves_of (fun e s t hs _ ht => hstep e s t hs ht) hs hC h

/-- A measure that the events in `p` make smaller and no event makes larger comes down to
zero, whatever other events come in between. -/
theorem run_measure {p : ε → Bool} {μ : σ → ℕ}
    (hstep : ∀ e s t, I s → step e s = some t → I t ∧ μ t ≤ μ s ∧ (p e → μ t ≤ μ s - 1))
    {es : List ε} {s u : σ} (hs : I s) (h : run step es s = some u) (hle : μ s ≤ es.countP p) :
    μ u = 0 := by
  induction es generalizing s with
  | nil =>
    obtain rfl : s = u := Option.some.inj h
    simpa using hle
  | cons e es ih =>
    obtain ⟨t, ht, hu⟩ := run_cons.mp h
    obtain ⟨hIt, hmono, hdown⟩ := hstep e s t hs ht
    rw [List.countP_cons] at hle
    by_cases hp : p e = true
    · have hd := hdown hp
      rw [if_pos hp] at hle
      exact ih hIt hu (by omega)
    · rw [if_neg hp] at hle
      exact ih hIt hu (by omega)

end Transition
