import RgcFifa.Lib.Monitor

/-! Calls that take effect at one moment, and why the sections under a monitor are such calls. -/

namespace Monitor

open Transition

universe u

/-- What the callers see. -/
inductive Event (τ ω ρ : Type u) where
  | call (t : τ) (o : ω)
  | ret (t : τ) (r : ρ)
  deriving DecidableEq

inductive Status (ω ρ : Type u) where
  | idle
  | called (o : ω)
  | finished (r : ρ)
  deriving DecidableEq

/-- An object that calls act on one at a time. -/
structure Atomic (τ α ω ρ : Type u) where
  value : α
  status : τ → Status ω ρ

variable {τ α ω σ κ ρ : Type u} [DecidableEq τ]

/-- A call waits for its effect, and then for its return. `Effect o a r b` says that the call `o` may
turn `a` into `b` and return `r`. -/
inductive Atomic.Step (Effect : ω → α → ρ → α → Prop) :
    Atomic τ α ω ρ → List (Event τ ω ρ) → Atomic τ α ω ρ → Prop
  | call {s : Atomic τ α ω ρ} {t : τ} (o : ω) (h : s.status t = .idle) :
    Step Effect s [.call t o] { s with status := Function.update s.status t (.called o) }
  | effect {s : Atomic τ α ω ρ} {t : τ} {o : ω} {r : ρ} {b : α} (h : s.status t = .called o)
    (he : Effect o s.value r b) :
    Step Effect s [] ⟨b, Function.update s.status t (.finished r)⟩
  | ret {s : Atomic τ α ω ρ} {t : τ} {r : ρ} (h : s.status t = .finished r) :
    Step Effect s [.ret t r] { s with status := Function.update s.status t .idle }

inductive Atomic.Run (Effect : ω → α → ρ → α → Prop) :
    Atomic τ α ω ρ → List (Event τ ω ρ) → Atomic τ α ω ρ → Prop
  | refl (s : Atomic τ α ω ρ) : Run Effect s [] s
  | step {s t u : Atomic τ α ω ρ} {es fs : List (Event τ ω ρ)} (h : Step Effect s es t)
    (hrest : Run Effect t fs u) : Run Effect s (es ++ fs) u

theorem Atomic.Step.run {Effect : ω → α → ρ → α → Prop} {s t : Atomic τ α ω ρ} {es : List (Event τ ω ρ)}
    (h : Step Effect s es t) : Run Effect s es t := by
  have hrun : Run Effect s (es ++ []) t := .step h (.refl t)
  rwa [List.append_nil] at hrun

theorem Atomic.Run.trans {Effect : ω → α → ρ → α → Prop} {s t u : Atomic τ α ω ρ}
    {es fs : List (Event τ ω ρ)} (h : Run Effect s es t) (h' : Run Effect t fs u) : Run Effect s (es ++ fs) u := by
  induction h with
  | refl => exact h'
  | step hstep _ ih =>
    rw [List.append_assoc]
    exact .step hstep (ih h')

/-! ### The events of a run under the monitor -/

def seen (s : State τ σ κ ρ) : Act τ ω → List (Event τ ω ρ)
  | .call t o => [.call t o]
  | .ret t =>
    match s.pc t with
    | .done r => [.ret t r]
    | _ => []
  | _ => []

def trace (P : Program ω σ κ ρ) : List (Act τ ω) → State τ σ κ ρ → List (Event τ ω ρ)
  | [], _ => []
  | a :: as, s => seen s a ++ ((step P a s).elim [] (trace P as))

/-! ### The moment of the effect -/

/-- How far the call is at a point. -/
inductive Stage (ω ρ : Type u) where
  | before (o : ω)
  | after (r : ρ)

def Stage.status : Stage ω ρ → Status ω ρ
  | before o => .called o
  | after r => .finished r

variable (Effect : ω → α → ρ → α → Prop) (abs : σ → α) (stage : κ → Stage ω ρ)

/-- Going from `k` with `v` to `j` with `w` has no effect, or is the moment of the effect. -/
def Moves (k j : κ) (v w : σ) : Prop :=
  stage j = stage k ∧ abs w = abs v
    ∨ ∃ o r, stage k = .before o ∧ stage j = .after r ∧ Effect o (abs v) r (abs w)

def Instr.Commits (k : κ) (v : σ) : Instr σ κ ρ → Prop
  | .jump j => Moves Effect abs stage k j v v
  | .write w j => Moves Effect abs stage k j v w
  | .broadcast j => stage j = stage k
  | .wait j timeout => stage j = stage k ∧ ∀ i ∈ timeout, stage i = stage k
  | .unlock r => stage k = .after r

def Pc.status : Pc κ ρ → Status ω ρ
  | out => .idle
  | enter k => (stage k).status
  | inside k => (stage k).status
  | asleep k _ => (stage k).status
  | done r => .finished r

def State.atomic (s : State τ σ κ ρ) : Atomic τ α ω ρ := ⟨abs s.shared, fun t => (s.pc t).status stage⟩

/-- A thread that times out is as far as one that is woken. -/
def Even (s : State τ σ κ ρ) : Prop := ∀ t k j, s.pc t = .asleep k (some j) → stage j = stage k

variable {Effect abs stage} {P : Program ω σ κ ρ} {s s' : State τ σ κ ρ} {a : Act τ ω}
  {I : σ → Prop} {A : κ → σ → Prop}

theorem status_goto (s : State τ σ κ ρ) (t : τ) (p : Pc κ ρ) :
    (fun u => ((s.goto t p).pc u).status stage)
      = Function.update (fun u => (s.pc u).status stage) t (p.status stage) := by
  funext u
  by_cases hut : u = t
  · subst hut
    simp [State.goto]
  · simp [State.goto, hut]

theorem atomic_goto (s : State τ σ κ ρ) (t : τ) (p : Pc κ ρ) : (s.goto t p).atomic abs stage
    = { s.atomic abs stage with status := Function.update (s.atomic abs stage).status t (p.status stage) } := by
  rw [State.atomic, status_goto]
  rfl

/-- A thread that goes where its call is as far as before. -/
theorem atomic_same {t : τ} {p : Pc κ ρ} (h : p.status stage = (s.pc t).status stage) :
    (s.goto t p).atomic abs stage = s.atomic abs stage := by
  rw [State.atomic, status_goto, h, Function.update_eq_self]
  rfl

omit [DecidableEq τ] in
theorem status_woken (p : Pc κ ρ) : p.woken.status stage = p.status stage := by
  cases p <;> rfl

/-- An instruction of the thread in the section is no step of the object, or the effect. -/
theorem run_perform {t : τ} {k : κ} (ht : s.pc t = .inside k) {i : Instr σ κ ρ}
    (hi : i.Commits Effect abs stage k s.shared) :
    Atomic.Run Effect (s.atomic abs stage) [] ((s.perform t i).atomic abs stage) := by
  have hstatus : (s.pc t).status stage = (stage k).status := by rw [ht]; rfl
  have hmoves : ∀ j v, Moves Effect abs stage k j s.shared v →
      Atomic.Run Effect (s.atomic abs stage) [] (({ s.goto t (.inside j) with shared := v }).atomic abs stage) := by
    intro j v hj
    have hnext : ({ s.goto t (.inside j) with shared := v }).atomic abs stage
        = ⟨abs v, Function.update (s.atomic abs stage).status t (stage j).status⟩ := by
      show Atomic.mk (abs v) (fun u => ((s.goto t (.inside j)).pc u).status stage) = _
      rw [status_goto]
      rfl
    rw [hnext]
    obtain ⟨hstage, habs⟩ | ⟨o, r, hk, hr, heffect⟩ := hj
    · rw [hstage, habs, ← hstatus]
      exact (congrArg (Atomic.mk (abs s.shared)) (Function.update_eq_self t _)).symm ▸ .refl _
    · have hcalled : (s.atomic abs stage).status t = .called o := hstatus.trans (by rw [hk]; rfl)
      rw [hr]
      exact (Atomic.Step.effect hcalled heffect).run
  cases i with
  | jump j => exact hmoves j s.shared hi
  | write v j => exact hmoves j v hi
  | broadcast j =>
    have hwoken : ({ s with pc := fun u => (s.pc u).woken } : State τ σ κ ρ).atomic abs stage
        = s.atomic abs stage := by
      simp only [State.atomic, status_woken]
    have hsame : (s.perform t (.broadcast j) : State τ σ κ ρ).atomic abs stage = s.atomic abs stage := by
      refine (atomic_same (s := { s with pc := fun u => (s.pc u).woken }) (t := t) (p := .inside j) ?_).trans
        hwoken
      rw [status_woken, hstatus]
      exact congrArg Stage.status hi
    exact hsame ▸ .refl _
  | wait j timeout =>
    have hsame : (s.goto t (.asleep j timeout)).atomic abs stage = s.atomic abs stage :=
      atomic_same (by rw [hstatus]; exact congrArg Stage.status hi.1)
    exact hsame ▸ .refl _
  | unlock r =>
    have hsame : (s.goto t (.done r)).atomic abs stage = s.atomic abs stage :=
      atomic_same (by rw [hstatus, hi]; rfl)
    exact hsame ▸ .refl _

theorem Even.goto (he : Even stage s) {t : τ} {p : Pc κ ρ} (hp : ∀ k j, p = .asleep k (some j) → stage j = stage k) :
    Even stage (s.goto t p) := by
  intro u k j hu
  by_cases hut : u = t
  · subst hut
    exact hp k j (by simpa [State.goto] using hu)
  · exact he u k j (by simpa [State.goto, hut] using hu)

theorem Even.perform (he : Even stage s) {t : τ} {k : κ} {i : Instr σ κ ρ}
    (hi : i.Commits Effect abs stage k s.shared) : Even stage (s.perform t i) := by
  cases i with
  | jump j => exact he.goto (t := t) (p := .inside j) (by simp)
  | write v j => exact he.goto (t := t) (p := .inside j) (by simp)
  | broadcast j =>
    intro u l j' hu
    by_cases hut : u = t
    · subst hut
      simp [State.perform] at hu
    · cases hpc : s.pc u <;> simp [State.perform, hut, hpc, Pc.woken] at hu
  | wait j timeout =>
    refine he.goto (t := t) (p := .asleep j timeout) fun k' j' h => ?_
    obtain ⟨rfl, rfl⟩ := Pc.asleep.inj h
    rw [hi.2 j' rfl, hi.1]
  | unlock r => exact he.goto (t := t) (p := .done r) (by simp)

/-- A step under the monitor is a step of the object with the same event, or none. -/
theorem run_step (hentry : ∀ o, stage (P.entry o) = .before o)
    (hP : ∀ k v, A k v → (P.code k v).Commits Effect abs stage k v) (hs : Sound I A s) (he : Even stage s)
    (h : step P a s = some s') :
    Even stage s' ∧ Atomic.Run Effect (s.atomic abs stage) (seen s a) (s'.atomic abs stage) := by
  obtain ⟨t, o, rfl, ht, rfl⟩ | ⟨t, k, rfl, ht, howner, rfl⟩ | ⟨t, k, rfl, ht, rfl⟩
    | ⟨t, k, timeout, rfl, ht, rfl⟩ | ⟨t, j, k, rfl, ht, rfl⟩ | ⟨t, r, rfl, ht, rfl⟩ := step_cases h
  · refine ⟨he.goto (by simp), ?_⟩
    have hidle : (s.atomic abs stage).status t = .idle := by simp [State.atomic, ht, Pc.status]
    have hcalled : (Pc.enter (P.entry o) : Pc κ ρ).status stage = .called o := by
      rw [Pc.status, hentry]
      rfl
    rw [atomic_goto, hcalled]
    exact (Atomic.Step.call o hidle).run
  · refine ⟨he.goto (t := t) (p := .inside k) (by simp), ?_⟩
    have hsame : (s.goto t (.inside k)).atomic abs stage = s.atomic abs stage := atomic_same (by rw [ht]; rfl)
    exact hsame ▸ .refl _
  · have hcommits := hP k s.shared (by simpa [ht] using hs.fine t)
    exact ⟨he.perform hcommits, run_perform ht hcommits⟩
  · refine ⟨he.goto (by simp), ?_⟩
    have hsame : (s.goto t (.enter k)).atomic abs stage = s.atomic abs stage := atomic_same (by rw [ht]; rfl)
    exact hsame ▸ .refl _
  · refine ⟨he.goto (by simp), ?_⟩
    have hsame : (s.goto t (.enter k)).atomic abs stage = s.atomic abs stage :=
      atomic_same (by rw [ht]; exact congrArg Stage.status (he t j k ht))
    exact hsame ▸ .refl _
  · refine ⟨he.goto (by simp), ?_⟩
    have hfinished : (s.atomic abs stage).status t = .finished r := by simp [State.atomic, ht, Pc.status]
    have hseen : seen s (.ret t : Act τ ω) = [.ret t r] := by simp [seen, ht]
    rw [atomic_goto, hseen]
    exact (Atomic.Step.ret hfinished).run

theorem Even.run (hentry : ∀ o, stage (P.entry o) = .before o) (hR : Rule I A P)
    (hP : ∀ k v, A k v → (P.code k v).Commits Effect abs stage k v) (hs : Sound I A s) (he : Even stage s)
    {as : List (Act τ ω)} (h : Transition.run (step P) as s = some s') : Even stage s' :=
  (run_preserves (I := fun s => Sound I A s ∧ Even stage s)
    (fun _ _ _ hi h => ⟨hi.1.step hR h, (run_step hentry hP hi.1 hi.2 h).1⟩) ⟨hs, he⟩ h).2

/-- Every run under the monitor looks to the callers like one of the object. -/
theorem run_linearizes (hentry : ∀ o, stage (P.entry o) = .before o) (hR : Rule I A P)
    (hP : ∀ k v, A k v → (P.code k v).Commits Effect abs stage k v) (hs : Sound I A s) (he : Even stage s)
    {as : List (Act τ ω)} (h : run (step P) as s = some s') :
    Atomic.Run Effect (s.atomic abs stage) (trace P as s) (s'.atomic abs stage) := by
  induction as generalizing s with
  | nil =>
    obtain rfl : s = s' := Option.some.inj h
    exact .refl _
  | cons a as ih =>
    obtain ⟨u, hu, hrest⟩ := run_cons.mp h
    obtain ⟨heven, hstep⟩ := run_step hentry hP hs he hu
    rw [trace, hu]
    exact hstep.trans (ih (hs.step hR hu) heven hrest)

end Monitor
