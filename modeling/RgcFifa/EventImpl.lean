import RgcFifa.Lib.Linearization

/-! The event of the base library on its mutex and condition variable, with any number of threads that
set it, reset it and wait for it. -/

namespace RgcFifa.EventImpl

open Transition Monitor

/-- `waitImpl()`, and `waitImpl(long milliseconds)`. -/
inductive Call where
  | set
  | reset
  | wait
  | timedWait
  deriving DecidableEq, Repr

inductive Result where
  | set
  | reset
  | passed
  | timedOut
  deriving DecidableEq, Repr

/-- The statements under the mutex. The points of the two waits are told apart by `timed`. -/
inductive Point where
  | setState
  | signal
  | setDone
  | clearState
  | resetDone
  | test (timed : Bool)
  | take (timed : Bool)
  | taken
  | timeout
  | gaveUp
  deriving DecidableEq, Repr

/-- The shared value is `_state`. -/
def program (auto : Bool) : Program Call Bool Point Result where
  entry
    | .set => .setState
    | .reset => .clearState
    | .wait => .test false
    | .timedWait => .test true
  code
    | .setState, _ => .write true .signal
    | .signal, _ => .broadcast .setDone
    | .setDone, _ => .unlock .set
    | .clearState, _ => .write false .resetDone
    | .resetDone, _ => .unlock .reset
    | .test timed, state =>
      if state then .jump (.take timed)
      else .wait (.test timed) (if timed then some .timeout else none)
    | .take _, _ => if auto then .write false .taken else .jump .taken
    | .taken, _ => .unlock .passed
    -- `rc` is not 0, so the state is left as it is
    | .timeout, _ => .jump .gaveUp
    | .gaveUp, _ => .unlock .timedOut

/-- What a call does to an event that it has for itself. -/
inductive Effect (auto : Bool) : Call → Bool → Result → Bool → Prop
  | set (state : Bool) : Effect auto .set state .set true
  | reset (state : Bool) : Effect auto .reset state .reset false
  | wait : Effect auto .wait true .passed (!auto)
  | timedWait : Effect auto .timedWait true .passed (!auto)
  | timeout (state : Bool) : Effect auto .timedWait state .timedOut state

/-- The call that is at a point, up to its effect, or what it returns. -/
def stage : Point → Stage Call Result
  | .setState => .before .set
  | .signal => .after .set
  | .setDone => .after .set
  | .clearState => .before .reset
  | .resetDone => .after .reset
  | .test timed => .before (if timed then .timedWait else .wait)
  | .take timed => .before (if timed then .timedWait else .wait)
  | .taken => .after .passed
  | .timeout => .before .timedWait
  | .gaveUp => .after .timedOut

/-- The event is set where a wait takes it. -/
def Holds : Point → Bool → Prop
  | .take _, state => state = true
  | _, _ => True

theorem rule (auto : Bool) : Rule (fun _ => True) Holds (program auto) where
  entry o := by cases o <;> exact fun _ _ => trivial
  code k v _ := by
    have hready {j : Point} (hj : ∀ timed, j ≠ .take timed) : Ready (fun _ => True) Holds j := by
      intro w _
      cases j <;> first | trivial | exact absurd rfl (hj _)
    cases k with
    | test timed =>
      cases v with
      | true => rfl
      | false =>
        refine ⟨trivial, hready (by simp), ?_⟩
        cases timed <;> simp [hready]
    | take timed => cases auto <;> trivial
    | _ => trivial

/-- `_state = true` owes the broadcast that follows it. -/
def owes (k : Point) : Prop := k = .signal

theorem blocks_iff {auto : Bool} {k : Point} {v : Bool} :
    Blocks (program auto) k v ↔ v = false ∧ ∃ timed, k = .test timed := by
  constructor
  · rintro ⟨j, timeout, h⟩
    cases k <;> cases v <;> cases auto <;> simp [program] at h ⊢
  · rintro ⟨rfl, timed, rfl⟩
    exact ⟨_, _, rfl⟩

theorem pays (auto : Bool) (k : Point) (v : Bool) : ((program auto).code k v).Pays (program auto) owes k v := by
  have hclear : ∀ i, Blocks (program auto) i v → Blocks (program auto) i false := by
    intro i hi
    exact blocks_iff.mpr ⟨rfl, (blocks_iff.mp hi).2⟩
  cases k with
  | setState => exact Or.inl rfl
  | signal => trivial
  | clearState => exact Or.inr ⟨by simp [owes], hclear⟩
  | test timed =>
    cases v with
    | true => simp [program, Instr.Pays, owes]
    | false => exact ⟨by simp [owes], blocks_iff.mpr ⟨rfl, timed, rfl⟩⟩
  | take timed =>
    cases auto with
    | true => exact Or.inr ⟨by simp [owes], hclear⟩
    | false => simp [program, Instr.Pays, owes]
  | _ => simp [program, Instr.Pays, owes]

theorem commits (auto : Bool) (k : Point) (v : Bool) (hk : Holds k v) :
    ((program auto).code k v).Commits (Effect auto) id stage k v := by
  cases k with
  | setState => exact Or.inr ⟨.set, .set, rfl, rfl, .set v⟩
  | clearState => exact Or.inr ⟨.reset, .reset, rfl, rfl, .reset v⟩
  | test timed =>
    cases v with
    | true => exact Or.inl ⟨rfl, rfl⟩
    | false => cases timed <;> simp [program, Instr.Commits, stage]
  | take timed =>
    obtain rfl : v = true := hk
    cases auto <;> cases timed
    · exact Or.inr ⟨.wait, .passed, rfl, rfl, .wait⟩
    · exact Or.inr ⟨.timedWait, .passed, rfl, rfl, .timedWait⟩
    · exact Or.inr ⟨.wait, .passed, rfl, rfl, .wait⟩
    · exact Or.inr ⟨.timedWait, .passed, rfl, rfl, .timedWait⟩
  | timeout => exact Or.inr ⟨.timedWait, .timedOut, rfl, rfl, .timeout v⟩
  | _ => rfl

variable {τ : Type} [DecidableEq τ]

/-- `EventImpl(bool autoReset)`: the event is not set. -/
def created : State τ Bool Point Result := start false

omit [DecidableEq τ] in
theorem sound_created : Sound (fun _ => True) Holds (created : State τ Bool Point Result) := sound_start trivial

omit [DecidableEq τ] in
theorem even_created : Even stage (created : State τ Bool Point Result) := fun t k j ht => by simp [created, start] at ht

omit [DecidableEq τ] in
theorem heard_created (auto : Bool) : Heard (program auto) owes (created : State τ Bool Point Result) :=
  fun t k timeout ht => by simp [created, start] at ht

theorem stage_entry (auto : Bool) (o : Call) : stage ((program auto).entry o) = .before o := by
  cases o <;> rfl

/-- The callers of an event cannot tell it from one that does each call at one moment, in any
interleaving, with spurious wake-ups and with timeouts at any time. -/
theorem event_linearizes {auto : Bool} {as : List (Act τ Call)} {s : State τ Bool Point Result}
    (h : run (step (program auto)) as created = some s) :
    Atomic.Run (Effect auto) ⟨false, fun _ => .idle⟩ (trace (program auto) as created) (s.atomic id stage) :=
  run_linearizes (stage_entry auto) (rule auto) (commits auto) sound_created even_created h

/-- One thread waits and another one sets the event; both stand before their returns. -/
def woken : List (Act Bool Call) :=
  [.call false .wait, .lock false, .exec false, .call true .set, .lock true, .exec true, .exec true, .exec true]

/-- The state after `woken`. -/
def wokenState : State Bool Bool Point Result :=
  (run (step (program true)) woken created).get (by decide)

theorem run_woken : run (step (program true)) woken created = some wokenState := (Option.some_get _).symm

theorem event_linearizes_woken :
    Atomic.Run (Effect true) ⟨false, fun _ => .idle⟩ (trace (program true) woken created)
      (wokenState.atomic id stage) :=
  event_linearizes run_woken

/-! ### How many waits pass -/

def isPassed : Monitor.Event τ Call Result → Bool
  | .ret _ .passed => true
  | _ => false

def isSet : Monitor.Event τ Call Result → Bool
  | .call _ .set => true
  | _ => false

/-- A set that may still come, or a pass that is not returned yet. -/
def weight : Status Call Result → ℕ
  | .called .set => 1
  | .finished .passed => 1
  | _ => 0

theorem sum_update [Fintype τ] (f : τ → Status Call Result) (t : τ) (x : Status Call Result) :
    ∑ u, weight (Function.update f t x u) + weight (f t) = ∑ u, weight (f u) + weight x := by
  have hsplit (g : τ → Status Call Result) :
      ∑ u, weight (g u) = weight (g t) + ∑ u ∈ Finset.univ.erase t, weight (g u) :=
    (Finset.add_sum_erase Finset.univ (fun u => weight (g u)) (Finset.mem_univ t)).symm
  have hrest : ∑ u ∈ Finset.univ.erase t, weight (Function.update f t x u)
      = ∑ u ∈ Finset.univ.erase t, weight (f u) := by
    refine Finset.sum_congr rfl fun u hu => ?_
    rw [Function.update_of_ne (Finset.ne_of_mem_erase hu)]
  rw [hsplit, hsplit f, hrest, Function.update_self]
  omega

theorem step_count [Fintype τ] {a b : Atomic τ Bool Call Result} {es : List (Monitor.Event τ Call Result)}
    (h : Atomic.Step (Effect true) a es b) :
    es.countP isPassed + b.value.toNat + ∑ t, weight (b.status t)
      ≤ es.countP isSet + a.value.toNat + ∑ t, weight (a.status t) := by
  cases h with
  | @call t o ht =>
    have hsum := sum_update a.status t (.called o)
    rw [ht] at hsum
    cases o <;> simp [isPassed, isSet, weight] at hsum ⊢ <;> omega
  | @effect t o r v ht he =>
    have hsum := sum_update a.status t (.finished r)
    rw [ht] at hsum
    have hle := Bool.toNat_le a.value
    generalize a.value = state at he hle ⊢
    cases he <;> simp [weight] at hsum ⊢ <;> omega
  | @ret t r ht =>
    have hsum := sum_update a.status t .idle
    rw [ht] at hsum
    cases r <;> simp [isPassed, isSet, weight] at hsum ⊢ <;> omega

theorem run_count [Fintype τ] {a b : Atomic τ Bool Call Result} {es : List (Monitor.Event τ Call Result)}
    (h : Atomic.Run (Effect true) a es b) :
    es.countP isPassed + b.value.toNat + ∑ t, weight (b.status t)
      ≤ es.countP isSet + a.value.toNat + ∑ t, weight (a.status t) := by
  induction h with
  | refl => simp
  | step hstep _ ih =>
    have hfirst := step_count hstep
    rw [List.countP_append, List.countP_append]
    omega

/-- Each set of an event with automatic reset lets at most one wait through. -/
theorem auto_passes_le_sets [Fintype τ] {as : List (Act τ Call)} {s : State τ Bool Point Result}
    (h : run (step (program true)) as created = some s) :
    (trace (program true) as created).countP isPassed ≤ (trace (program true) as created).countP isSet := by
  have hcount := run_count (run_linearizes (stage_entry true) (rule true) (commits true) sound_created
    even_created h)
  have hidle : ∑ t, weight (((created : State τ Bool Point Result).atomic id stage).status t) = 0 := by
    simp [created, start, State.atomic, Pc.status, weight]
  have hunset : ((created : State τ Bool Point Result).atomic id stage).value = false := rfl
  rw [hidle, hunset, Bool.toNat_false] at hcount
  omega

theorem auto_passes_le_sets_woken :
    (trace (program true) woken created).countP isPassed ≤ (trace (program true) woken created).countP isSet :=
  auto_passes_le_sets run_woken

/-! ### Wake-ups -/

theorem stage_wait {k : Point} (h : stage k = .before .wait) : k = .test false ∨ k = .take false := by
  cases k with
  | test timed => cases timed <;> simp [stage] at h ⊢
  | take timed => cases timed <;> simp [stage] at h ⊢
  | _ => simp [stage] at h

/-- Before the mutex a thread in `wait` is before the test of the state. -/
theorem ready_wait {k : Point} (h : stage k = .before .wait) (hready : Ready (fun _ => True) Holds k) :
    k = .test false := by
  obtain rfl | rfl := stage_wait h
  · rfl
  · exact absurd (hready false trivial) (by simp [Holds])

/-- What keeps a thread in `wait` as long as it is alone. -/
structure Stuck (t : τ) (s : State τ Bool Point Result) : Prop where
  unset : s.shared = false
  alone : ∀ u, s.owner = some u → u = t
  waiting : s.pc t = .enter (.test false) ∨ s.pc t = .inside (.test false)
    ∨ ∃ timeout, s.pc t = .asleep (.test false) timeout ∧ ∀ j ∈ timeout, j = .test false

theorem Stuck.step {auto : Bool} {t : τ} {a : Act τ Call} (hthread : a.thread = t)
    {s s' : State τ Bool Point Result} (hs : Stuck t s) (h : step (program auto) a s = some s') : Stuck t s' := by
  obtain ⟨u, o, rfl, hu, rfl⟩ | ⟨u, k, rfl, hu, howner, rfl⟩ | ⟨u, k, rfl, hu, rfl⟩
    | ⟨u, k, timeout, rfl, hu, rfl⟩ | ⟨u, j, k, rfl, hu, rfl⟩ | ⟨u, r, rfl, hu, rfl⟩ := step_cases h
  all_goals
    obtain rfl : u = t := hthread
    have hwaiting := hs.waiting
    rw [hu] at hwaiting
  · simp at hwaiting
  · obtain rfl : k = .test false := by simpa using hwaiting
    exact ⟨hs.unset, fun w hw => (Option.some.inj hw).symm, Or.inr (Or.inl (by simp [State.goto]))⟩
  · obtain rfl : k = .test false := by simpa using hwaiting
    have hcode : (program auto).code (.test false) s.shared = .wait (.test false) none := by
      rw [hs.unset]
      rfl
    rw [hcode]
    exact ⟨hs.unset, by simp [State.perform], Or.inr (Or.inr ⟨none, by simp [State.perform, State.goto], by simp⟩)⟩
  · obtain rfl : k = .test false := by
      obtain h | h | ⟨_, h, _⟩ := hwaiting
      · simp at h
      · simp at h
      · exact (Pc.asleep.inj h).1
    exact ⟨hs.unset, hs.alone, Or.inl (by simp [State.goto])⟩
  · obtain rfl : k = .test false := by
      obtain h | h | ⟨_, h, hj⟩ := hwaiting
      · simp at h
      · simp at h
      · exact hj k (Pc.asleep.inj h).2.symm
    exact ⟨hs.unset, hs.alone, Or.inl (by simp [State.goto])⟩
  · simp at hwaiting

theorem Stuck.run {auto : Bool} {t : τ} {as : List (Act τ Call)} (hthread : ∀ a ∈ as, a.thread = t)
    {s s' : State τ Bool Point Result} (hs : Stuck t s)
    (h : Transition.run (Monitor.step (program auto)) as s = some s') : Stuck t s' := by
  induction as generalizing s with
  | nil =>
    obtain rfl : s = s' := Option.some.inj h
    exact hs
  | cons a as ih =>
    obtain ⟨u, hu, hrest⟩ := run_cons.mp h
    exact ih (fun b hb => hthread b (by simp [hb])) (hs.step (hthread a (by simp)) hu) hrest

/-- While the mutex is free, a thread in `wait` comes through with no more than the mutex and its own
statements exactly if the event is set: no wake-up is lost. None is made up either: the event is set
even if the thread wakes for no reason on its way. -/
theorem wait_passes_iff {auto : Bool} {as : List (Act τ Call)} {s : State τ Bool Point Result}
    (h : run (step (program auto)) as created = some s) (hfree : s.owner = none) {t : τ}
    (ht : (s.pc t).status stage = .called .wait) :
    ((∃ bs u, (∀ b ∈ bs, b = .lock t ∨ b = .exec t) ∧ run (step (program auto)) bs s = some u
        ∧ u.pc t = .done .passed) ↔ s.shared = true)
      ∧ ∀ bs u, (∀ b ∈ bs, b.thread = t) → run (step (program auto)) bs s = some u →
        u.pc t = .done .passed → s.shared = true := by
  have hs : Sound (fun _ => True) Holds s := sound_created.run (rule auto) h
  have hh : Heard (program auto) owes s :=
    (heard_created auto).run (rule auto) (fun k v _ => pays auto k v) sound_created h
  have he : Even stage s := even_created.run (stage_entry auto) (rule auto) (commits auto) sound_created h
  have hfine := hs.fine t
  have hwaiting : s.pc t = .enter (.test false)
      ∨ ∃ timeout, s.pc t = .asleep (.test false) timeout ∧ ∀ j ∈ timeout, j = .test false := by
    have hbefore {k : Point} (hk : (stage k).status = .called .wait) : stage k = .before .wait := by
      cases hstage : stage k <;> simp_all [Stage.status]
    cases hpc : s.pc t with
    | enter k =>
      rw [hpc] at ht hfine
      rw [ready_wait (hbefore ht) hfine]
      exact Or.inl rfl
    | inside k =>
      have howner := (hs.owner t).mpr ⟨k, hpc⟩
      simp [hfree] at howner
    | asleep k timeout =>
      rw [hpc] at ht hfine
      have hk := hbefore ht
      refine Or.inr ⟨timeout, by rw [ready_wait hk hfine.1], fun j hj => ?_⟩
      obtain rfl : timeout = some j := hj
      exact ready_wait ((he t k j hpc).trans hk) (hfine.2 j rfl)
    | _ => simp [hpc, Pc.status] at ht
  have honly : ∀ bs u, (∀ b ∈ bs, b.thread = t) → run (step (program auto)) bs s = some u →
      u.pc t = .done .passed → s.shared = true := by
    intro bs u hbs hrun hu
    by_contra hset
    have hstuck : Stuck t s :=
      ⟨by simpa using hset, by simp [hfree], hwaiting.imp_right Or.inr⟩
    have hend := (hstuck.run hbs hrun).waiting
    simp [hu] at hend
  refine ⟨⟨?_, fun hset => ?_⟩, honly⟩
  · rintro ⟨bs, u, hbs, hrun, hu⟩
    refine honly bs u (fun b hb => ?_) hrun hu
    obtain rfl | rfl := hbs b hb
    · rfl
    · rfl
  · obtain hpc | ⟨timeout, hpc, _⟩ := hwaiting
    · -- the test, the take and the end of the section
      refine ⟨[.lock t, .exec t, .exec t, .exec t], ?_⟩
      cases auto <;> simp [run, step, hpc, hfree, hset, program, State.goto, State.perform]
    · -- asleep at a set event: excluded, the broadcast of the set is not missed
      have hblocks := (blocks_iff.mp (hh.blocks hs hfree hpc)).1
      simp [hset] at hblocks

theorem wait_passes_iff_woken :
    ((∃ bs u, (∀ b ∈ bs, b = .lock false ∨ b = .exec false) ∧ run (step (program true)) bs wokenState = some u
        ∧ u.pc false = .done .passed) ↔ wokenState.shared = true)
      ∧ ∀ bs u, (∀ b ∈ bs, b.thread = false) → run (step (program true)) bs wokenState = some u →
        u.pc false = .done .passed → wokenState.shared = true :=
  wait_passes_iff run_woken rfl rfl

end RgcFifa.EventImpl
