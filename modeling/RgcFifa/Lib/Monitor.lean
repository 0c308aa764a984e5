import RgcFifa.Lib.Transition

/-! A mutex with a condition variable, and threads that run the sections of a program under it, in
any order, with spurious wake-ups and with timeouts that may come at any time. -/

namespace Monitor

open Transition

universe u

/-- What a section does next while it holds the mutex. -/
inductive Instr (σ κ ρ : Type u) where
  | jump (k : κ)
  | write (s : σ) (k : κ)
  | broadcast (k : κ)
  | wait (k : κ) (timeout : Option κ)
  | unlock (r : ρ)

structure Program (ω σ κ ρ : Type u) where
  entry : ω → κ
  code : κ → σ → Instr σ κ ρ

/-- Where a thread is: in no call, before the mutex, with it, in the condition variable, at the end of
its call. -/
inductive Pc (κ ρ : Type u) where
  | out
  | enter (k : κ)
  | inside (k : κ)
  | asleep (k : κ) (timeout : Option κ)
  | done (r : ρ)
  deriving DecidableEq

namespace Pc

variable {κ ρ : Type u}

/-- What a broadcast does to a thread. -/
def woken : Pc κ ρ → Pc κ ρ
  | asleep k _ => enter k
  | p => p

end Pc

structure State (τ σ κ ρ : Type u) where
  shared : σ
  owner : Option τ
  pc : τ → Pc κ ρ

inductive Act (τ ω : Type u) where
  | call (t : τ) (o : ω)
  | lock (t : τ)
  | exec (t : τ)
  | wake (t : τ)
  | timeout (t : τ)
  | ret (t : τ)

def Act.thread {τ ω : Type u} : Act τ ω → τ
  | call t _ | lock t | exec t | wake t | timeout t | ret t => t

variable {τ ω σ κ ρ : Type u} [DecidableEq τ] (P : Program ω σ κ ρ)

def start (s : σ) : State τ σ κ ρ := ⟨s, none, fun _ => .out⟩

namespace State

def goto (s : State τ σ κ ρ) (t : τ) (p : Pc κ ρ) : State τ σ κ ρ :=
  { s with pc := Function.update s.pc t p }

def perform (s : State τ σ κ ρ) (t : τ) : Instr σ κ ρ → State τ σ κ ρ
  | .jump k => s.goto t (.inside k)
  | .write v k => { s.goto t (.inside k) with shared := v }
  | .broadcast k => { s with pc := Function.update (fun u => (s.pc u).woken) t (.inside k) }
  | .wait k timeout => { s.goto t (.asleep k timeout) with owner := none }
  | .unlock r => { s.goto t (.done r) with owner := none }

end State

def step (a : Act τ ω) (s : State τ σ κ ρ) : Option (State τ σ κ ρ) :=
  match a with
  | .call t o =>
    match s.pc t with
    | .out => some (s.goto t (.enter (P.entry o)))
    | _ => none
  | .lock t =>
    match s.pc t, s.owner with
    | .enter k, none => some { s.goto t (.inside k) with owner := some t }
    | _, _ => none
  | .exec t =>
    match s.pc t with
    | .inside k => some (s.perform t (P.code k s.shared))
    | _ => none
  | .wake t =>
    match s.pc t with
    | .asleep k _ => some (s.goto t (.enter k))
    | _ => none
  | .timeout t =>
    match s.pc t with
    | .asleep _ (some k) => some (s.goto t (.enter k))
    | _ => none
  | .ret t =>
    match s.pc t with
    | .done _ => some (s.goto t .out)
    | _ => none

variable {P} {s s' : State τ σ κ ρ} {a : Act τ ω}

/-- What a step does, in each case. -/
theorem step_cases (h : step P a s = some s') :
    (∃ t o, a = .call t o ∧ s.pc t = .out ∧ s' = s.goto t (.enter (P.entry o)))
      ∨ (∃ t k, a = .lock t ∧ s.pc t = .enter k ∧ s.owner = none
        ∧ s' = { s.goto t (.inside k) with owner := some t })
      ∨ (∃ t k, a = .exec t ∧ s.pc t = .inside k ∧ s' = s.perform t (P.code k s.shared))
      ∨ (∃ t k timeout, a = .wake t ∧ s.pc t = .asleep k timeout ∧ s' = s.goto t (.enter k))
      ∨ (∃ t j k, a = .timeout t ∧ s.pc t = .asleep j (some k) ∧ s' = s.goto t (.enter k))
      ∨ ∃ t r, a = .ret t ∧ s.pc t = .done r ∧ s' = s.goto t .out := by
  cases a with
  | call t o =>
    cases hpc : s.pc t <;> simp [step, hpc] at h
    exact Or.inl ⟨t, o, rfl, hpc, h.symm⟩
  | lock t =>
    cases hpc : s.pc t <;> cases howner : s.owner <;> simp [step, hpc, howner] at h
    exact Or.inr (Or.inl ⟨t, _, rfl, hpc, rfl, h.symm⟩)
  | exec t =>
    cases hpc : s.pc t <;> simp [step, hpc] at h
    exact Or.inr (Or.inr (Or.inl ⟨t, _, rfl, hpc, h.symm⟩))
  | wake t =>
    cases hpc : s.pc t <;> simp [step, hpc] at h
    exact Or.inr (Or.inr (Or.inr (Or.inl ⟨t, _, _, rfl, hpc, h.symm⟩)))
  | timeout t =>
    cases hpc : s.pc t with
    | asleep j timeout =>
      cases timeout <;> simp [step, hpc] at h
      exact Or.inr (Or.inr (Or.inr (Or.inr (Or.inl ⟨t, j, _, rfl, hpc, h.symm⟩))))
    | _ => simp [step, hpc] at h
  | ret t =>
    cases hpc : s.pc t <;> simp [step, hpc] at h
    exact Or.inr (Or.inr (Or.inr (Or.inr (Or.inr ⟨t, _, rfl, hpc, h.symm⟩))))

/-! ### The monitor rule -/

variable (I : σ → Prop) (A : κ → σ → Prop)

/-- A point that a thread may go on at whenever it gets the mutex. -/
def Ready (k : κ) : Prop := ∀ v, I v → A k v

/-- What must be so before an instruction; `I` when the mutex is given up, `A` at the next point. -/
@[simp] def Instr.Pre (v : σ) : Instr σ κ ρ → Prop
  | .jump k => A k v
  | .write w k => A k w
  | .broadcast k => A k v
  | .wait k timeout => I v ∧ Ready I A k ∧ ∀ j ∈ timeout, Ready I A j
  | .unlock _ => I v

/-- The sections keep `I` between them and `A` in them. -/
structure Rule (P : Program ω σ κ ρ) : Prop where
  entry : ∀ o, Ready I A (P.entry o)
  code : ∀ k v, A k v → (P.code k v).Pre I A v

/-- What holds of a thread. -/
@[simp] def Pc.Fine (v : σ) : Pc κ ρ → Prop
  | enter k => Ready I A k
  | inside k => A k v
  | asleep k timeout => Ready I A k ∧ ∀ j ∈ timeout, Ready I A j
  | _ => True

structure Sound (s : State τ σ κ ρ) : Prop where
  owner : ∀ t, s.owner = some t ↔ ∃ k, s.pc t = .inside k
  free : s.owner = none → I s.shared
  fine : ∀ t, (s.pc t).Fine I A s.shared

variable {I A}

omit [DecidableEq τ] in
theorem sound_start {v : σ} (hv : I v) : Sound I A (start v : State τ σ κ ρ) :=
  ⟨fun t => by simp [start], fun _ => hv, fun _ => trivial⟩

omit [DecidableEq τ] in
/-- Only one thread is in a section. -/
theorem Sound.exclusive (hs : Sound I A s) {t u : τ} {j k : κ} (ht : s.pc t = .inside j)
    (hu : s.pc u = .inside k) : t = u := by
  have h := (hs.owner t).mpr ⟨j, ht⟩
  rw [(hs.owner u).mpr ⟨k, hu⟩] at h
  exact (Option.some.inj h).symm

/-- A thread that is in no section goes elsewhere in no section. -/
theorem Sound.goto (hs : Sound I A s) {t : τ} (ht : ∀ k, s.pc t ≠ .inside k) {p : Pc κ ρ}
    (hp : ∀ k, p ≠ .inside k) (hfine : p.Fine I A s.shared) : Sound I A (s.goto t p) := by
  refine ⟨fun u => ?_, hs.free, fun u => ?_⟩
  · by_cases hut : u = t
    · subst hut
      simpa [State.goto, hp] using fun h => ((hs.owner u).mp h).elim ht
    · simpa [State.goto, hut] using hs.owner u
  · by_cases hut : u = t
    · subst hut
      simpa [State.goto] using hfine
    · simpa [State.goto, hut] using hs.fine u

omit [DecidableEq τ] in
/-- No other thread depends on the shared state while one is in a section. -/
theorem Sound.other (hs : Sound I A s) {t u : τ} {k : κ} (ht : s.pc t = .inside k) (hut : u ≠ t) (v : σ) :
    (s.pc u).Fine I A v := by
  have hfine := hs.fine u
  cases hu : s.pc u with
  | inside j => exact (hut (hs.exclusive hu ht)).elim
  | _ =>
    rw [hu] at hfine
    exact hfine

/-- The thread in the section moves on in it. -/
theorem Sound.inside (hs : Sound I A s) {t : τ} {k j : κ} (ht : s.pc t = .inside k) {v : σ} (hj : A j v) :
    Sound I A { s.goto t (.inside j) with shared := v } := by
  have howner := (hs.owner t).mpr ⟨k, ht⟩
  refine ⟨fun u => ?_, fun h => by simp [State.goto, howner] at h, fun u => ?_⟩
  · by_cases hut : u = t
    · subst hut
      simp [State.goto, howner]
    · simpa [State.goto, hut] using hs.owner u
  · by_cases hut : u = t
    · subst hut
      simpa [State.goto, Pc.Fine] using hj
    · simpa [State.goto, hut] using hs.other ht hut v

theorem Sound.lock (hs : Sound I A s) (howner : s.owner = none) {t : τ} {k : κ} (hk : A k s.shared) :
    Sound I A { s.goto t (.inside k) with owner := some t } := by
  refine ⟨fun u => ?_, fun h => by simp at h, fun u => ?_⟩
  · by_cases hut : u = t
    · subst hut
      simp [State.goto]
    · have hu := hs.owner u
      rw [howner] at hu
      simpa [State.goto, hut, Ne.symm hut] using hu
  · by_cases hut : u = t
    · subst hut
      simpa [State.goto] using hk
    · simpa [State.goto, hut] using hs.fine u

/-- The thread in the section leaves it. -/
theorem Sound.leave (hs : Sound I A s) {t : τ} {k : κ} (ht : s.pc t = .inside k) (hfree : I s.shared)
    {p : Pc κ ρ} (hp : ∀ j, p ≠ .inside j) (hfine : p.Fine I A s.shared) :
    Sound I A { s.goto t p with owner := none } := by
  refine ⟨fun u => ?_, fun _ => hfree, fun u => ?_⟩
  · by_cases hut : u = t
    · subst hut
      simp [State.goto, hp]
    · simpa [State.goto, hut] using fun j hu => hut (hs.exclusive hu ht)
  · by_cases hut : u = t
    · subst hut
      simpa [State.goto] using hfine
    · simpa [State.goto, hut] using hs.fine u

theorem Sound.perform (hs : Sound I A s) {t : τ} {k : κ} (ht : s.pc t = .inside k) {i : Instr σ κ ρ}
    (hi : i.Pre I A s.shared) : Sound I A (s.perform t i) := by
  cases i with
  | jump j => exact hs.inside ht hi
  | write v j => exact hs.inside ht hi
  | broadcast j =>
    have howner := (hs.owner t).mpr ⟨k, ht⟩
    refine ⟨fun u => ?_, fun h => by simp [State.perform, howner] at h, fun u => ?_⟩
    · by_cases hut : u = t
      · subst hut
        simp [State.perform, howner]
      · have := hs.owner u
        cases hu : s.pc u <;> simpa [State.perform, hut, hu, Pc.woken] using this
    · by_cases hut : u = t
      · subst hut
        simpa [State.perform] using hi
      · have := hs.fine u
        cases hu : s.pc u <;> simp_all [State.perform, Pc.woken]
  | wait j timeout => exact hs.leave ht hi.1 (by simp) hi.2
  | unlock r => exact hs.leave ht hi (by simp) trivial

theorem Sound.step (hP : Rule I A P) (hs : Sound I A s) (h : step P a s = some s') : Sound I A s' := by
  obtain ⟨t, o, rfl, ht, rfl⟩ | ⟨t, k, rfl, ht, howner, rfl⟩ | ⟨t, k, rfl, ht, rfl⟩
    | ⟨t, k, timeout, rfl, ht, rfl⟩ | ⟨t, j, k, rfl, ht, rfl⟩ | ⟨t, r, rfl, ht, rfl⟩ := step_cases h
  · exact hs.goto (by simp [ht]) (by simp) (hP.entry o)
  · have hk : Ready I A k := by simpa [ht] using hs.fine t
    exact hs.lock howner (hk _ (hs.free howner))
  · exact hs.perform ht (hP.code k s.shared (by simpa [ht] using hs.fine t))
  · have hk : Ready I A k ∧ ∀ j ∈ timeout, Ready I A j := by simpa [ht] using hs.fine t
    exact hs.goto (by simp [ht]) (by simp) hk.1
  · have hk : Ready I A j ∧ ∀ j ∈ some k, Ready I A j := by simpa [ht] using hs.fine t
    exact hs.goto (by simp [ht]) (by simp) (hk.2 k rfl)
  · exact hs.goto (by simp [ht]) (by simp) trivial

theorem Sound.run (hP : Rule I A P) (hs : Sound I A s) {as : List (Act τ ω)}
    (h : run (Monitor.step P) as s = some s') : Sound I A s' :=
  run_preserves (fun _ _ _ hs h => hs.step hP h) hs h

/-! ### Wake-ups -/

/-- A thread that gets to the point now goes to sleep there. -/
def Blocks (P : Program ω σ κ ρ) (k : κ) (v : σ) : Prop := ∃ j timeout, P.code k v = .wait j timeout

/-- A write that may let a sleeping thread go on leads to a point that owes a broadcast, and the debt
is not left behind in the section. -/
def Instr.Pays (P : Program ω σ κ ρ) (owes : κ → Prop) (k : κ) (v : σ) : Instr σ κ ρ → Prop
  | .jump j => owes k → owes j
  | .write w j => owes j ∨ ¬owes k ∧ ∀ i, Blocks P i v → Blocks P i w
  | .broadcast _ => True
  | .wait j _ => ¬owes k ∧ Blocks P j v
  | .unlock _ => ¬owes k

/-- A thread sleeps only while it would go to sleep again, or a broadcast is owed. -/
def Heard (P : Program ω σ κ ρ) (owes : κ → Prop) (s : State τ σ κ ρ) : Prop :=
  ∀ t k timeout, s.pc t = .asleep k timeout →
    Blocks P k s.shared ∨ ∃ u j, s.pc u = .inside j ∧ owes j

variable {owes : κ → Prop}

omit [DecidableEq τ] in
/-- No thread that can go on sleeps while the mutex is free. -/
theorem Heard.blocks (hh : Heard P owes s) (hs : Sound I A s) (hfree : s.owner = none) {t : τ} {k : κ}
    {timeout : Option κ} (ht : s.pc t = .asleep k timeout) : Blocks P k s.shared := by
  obtain h | ⟨u, j, hu, _⟩ := hh t k timeout ht
  · exact h
  · have howner := (hs.owner u).mpr ⟨j, hu⟩
    simp [hfree] at howner

theorem Heard.goto (hh : Heard P owes s) {t : τ} (ht : ∀ k, s.pc t ≠ .inside k) {p : Pc κ ρ}
    (hp : ∀ k timeout, p ≠ .asleep k timeout) : Heard P owes (s.goto t p) := by
  intro u k timeout hu
  have hut : u ≠ t := by
    rintro rfl
    exact hp k timeout (by simpa [State.goto] using hu)
  obtain h | ⟨w, j, hw, hj⟩ := hh u k timeout (by simpa [State.goto, hut] using hu)
  · exact Or.inl h
  · have hwt : w ≠ t := by
      rintro rfl
      exact ht j hw
    exact Or.inr ⟨w, j, by simpa [State.goto, hwt] using hw, hj⟩

theorem Heard.perform (hs : Sound I A s) (hh : Heard P owes s) {t : τ} {k : κ} (ht : s.pc t = .inside k)
    {i : Instr σ κ ρ} (hi : i.Pays P owes k s.shared) : Heard P owes (s.perform t i) := by
  -- what a sleeping thread waits for, with the debt of the thread in the section
  have hdebt : ∀ u j timeout, s.pc u = .asleep j timeout → Blocks P j s.shared ∨ owes k := by
    intro u j timeout hu
    obtain h | ⟨w, l, hw, hl⟩ := hh u j timeout hu
    · exact Or.inl h
    · obtain rfl := hs.exclusive ht hw
      obtain rfl : k = l := by simpa [ht] using hw
      exact Or.inr hl
  intro u j timeout hu
  by_cases hut : u = t
  · subst hut
    cases i with
    | wait l limit =>
      obtain ⟨rfl, rfl⟩ : l = j ∧ limit = timeout := by simpa [State.perform, State.goto] using hu
      exact Or.inl hi.2
    | _ => simp [State.perform, State.goto] at hu
  · cases i with
    | jump l =>
      obtain h | h := hdebt u j timeout (by simpa [State.perform, State.goto, hut] using hu)
      · exact Or.inl h
      · exact Or.inr ⟨t, l, by simp [State.perform, State.goto], hi h⟩
    | write w l =>
      obtain hl | ⟨hk, hkeep⟩ := hi
      · exact Or.inr ⟨t, l, by simp [State.perform, State.goto], hl⟩
      · have h := (hdebt u j timeout (by simpa [State.perform, State.goto, hut] using hu)).resolve_right hk
        exact Or.inl (hkeep j h)
    | broadcast l =>
      cases hpc : s.pc u <;> simp [State.perform, hut, hpc, Pc.woken] at hu
    | wait l limit =>
      exact Or.inl ((hdebt u j timeout (by simpa [State.perform, State.goto, hut] using hu)).resolve_right hi.1)
    | unlock r =>
      exact Or.inl ((hdebt u j timeout (by simpa [State.perform, State.goto, hut] using hu)).resolve_right hi)

theorem Heard.step (hP : ∀ k v, A k v → (P.code k v).Pays P owes k v) (hs : Sound I A s)
    (hh : Heard P owes s) (h : step P a s = some s') : Heard P owes s' := by
  obtain ⟨t, o, rfl, ht, rfl⟩ | ⟨t, k, rfl, ht, howner, rfl⟩ | ⟨t, k, rfl, ht, rfl⟩
    | ⟨t, k, timeout, rfl, ht, rfl⟩ | ⟨t, j, k, rfl, ht, rfl⟩ | ⟨t, r, rfl, ht, rfl⟩ := step_cases h
  · exact hh.goto (by simp [ht]) (by simp)
  · exact hh.goto (t := t) (p := .inside k) (by simp [ht]) (by simp)
  · exact hh.perform hs ht (hP k s.shared (by simpa [ht] using hs.fine t))
  · exact hh.goto (by simp [ht]) (by simp)
  · exact hh.goto (by simp [ht]) (by simp)
  · exact hh.goto (by simp [ht]) (by simp)

theorem Heard.run (hR : Rule I A P) (hP : ∀ k v, A k v → (P.code k v).Pays P owes k v) (hs : Sound I A s)
    (hh : Heard P owes s) {as : List (Act τ ω)} (h : run (Monitor.step P) as s = some s') :
    Heard P owes s' :=
  (run_preserves (I := fun s => Sound I A s ∧ Heard P owes s)
    (fun _ _ _ hi h => ⟨hi.1.step hR h, hi.2.step hP hi.1 h⟩) ⟨hs, hh⟩ h).2

end Monitor
