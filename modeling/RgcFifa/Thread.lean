import RgcFifa.Lib.Simulation

/-! The life of a thread object. Its owner starts and joins it, and the threads of the operating system
run what it is started with. -/

namespace RgcFifa

open Transition

/-- What a thread object is to its owner. It can be started again. -/
inductive Life (τ : Type) where
  | idle
  | starting (target : τ)
  | running (target : τ)
  | ended
  deriving DecidableEq, Repr

inductive LifeEvent (τ : Type) where
  | started (target : τ)
  | refused
  | called (target : τ)
  | finished
  | joined
  deriving DecidableEq, Repr

def Life.step {τ : Type} [DecidableEq τ] : LifeEvent τ → Life τ → Option (Life τ)
  | .started x, .idle => some (.starting x)
  | .started x, .ended => some (.starting x)
  | .refused, .starting x => some (.starting x)
  | .refused, .running x => some (.running x)
  | .called y, .starting x => if y = x then some (.running x) else none
  | .finished, .running _ => some .ended
  | .joined, .ended => some .ended
  | _, _ => none

namespace ThreadImpl

inductive Kind where
  | runnable
  | callable
  deriving DecidableEq, Repr

def Kind.other : Kind → Kind
  | runnable => callable
  | callable => runnable

/-- What `startImpl` is called with: a `Runnable`, or a `Callable` and the pointer for it. -/
inductive Target (ρ κ δ : Type) where
  | runnable (target : ρ)
  | callable (target : κ) (pData : Option δ)
  deriving DecidableEq, Repr

def Target.kind {ρ κ δ : Type} : Target ρ κ δ → Kind
  | runnable _ => .runnable
  | callable _ _ => .callable

/-- The statements of `runnableEntry`, `callableEntry` that other threads notice. Only `callableEntry`
comes to `halfway`: it clears the pointer of its target after the target. -/
inductive Point where
  | entry
  | running
  | returned
  | halfway
  | cleared
  | signalled
  | exited
  deriving DecidableEq, Repr

/-- The target is gone: it has been called and has returned. -/
def Point.past : Point → Bool
  | halfway => true
  | cleared => true
  | signalled => true
  | exited => true
  | _ => false

def Point.hasSet : Point → Bool
  | signalled => true
  | exited => true
  | _ => false

/-- What the owner is in. -/
inductive Call where
  | out
  | create (k : Kind)
  | wait (timed : Bool)
  | join
  deriving DecidableEq, Repr

/-- `ThreadData`, with a thread for each `pthread_create`. `callback` and `pData` are the fields of `pCallbackTarget`.
`thread` tells which of the threads its handle names: none at first, none that can be relied on after a
`pthread_create` that fails, and none after a join. `undefined` records the call of a null target and a `pthread_join`
without a thread. -/
structure State (ρ κ δ : Type) where
  pRunnableTarget : Option ρ
  callback : Option κ
  pData : Option δ
  thread : Option ℕ
  done : Bool
  threads : List (Kind × Point)
  call : Call
  undefined : Bool
  deriving DecidableEq, Repr

inductive Act (ρ κ δ : Type) where
  | start (t : Target ρ κ δ)
  | create (ok : Bool)
  | join
  | tryJoin
  | waited
  | timeout
  | pthreadJoin
  | thread (i : ℕ)
  deriving DecidableEq, Repr

variable {ρ κ δ : Type}

def created : State ρ κ δ := ⟨none, none, none, none, false, [], .out, false⟩

namespace State

/-- What a thread of kind `k` calls. -/
def target (s : State ρ κ δ) : Kind → Option (Target ρ κ δ)
  | .runnable => s.pRunnableTarget.map .runnable
  | .callable => s.callback.map (.callable · s.pData)

/-- What the two `startImpl` ask. -/
def filled (s : State ρ κ δ) : Kind → Bool
  | .runnable => s.pRunnableTarget.isSome
  | .callable => s.callback.isSome

def put (s : State ρ κ δ) : Target ρ κ δ → State ρ κ δ
  | .runnable target => { s with pRunnableTarget := some target }
  | .callable target pData => { s with callback := some target, pData := pData }

/-- What they do after a `pthread_create` that fails. -/
def takeBack (s : State ρ κ δ) : Kind → State ρ κ δ
  | .runnable => { s with pRunnableTarget := none }
  | .callable => { s with callback := none, pData := none }

end State

/-- The next statement of thread `i`. Exceptions of the target are caught. -/
def execute (s : State ρ κ δ) (i : ℕ) : Kind × Point → Option (State ρ κ δ)
  | (k, .entry) => some { s with
      threads := s.threads.set i (k, .running), undefined := s.undefined || (s.target k).isNone }
  | (k, .running) => some { s with threads := s.threads.set i (k, .returned) }
  | (.runnable, .returned) => some { s with
      threads := s.threads.set i (.runnable, .cleared), pRunnableTarget := none }
  | (.callable, .returned) => some { s with threads := s.threads.set i (.callable, .halfway), callback := none }
  | (k, .halfway) => some { s with threads := s.threads.set i (k, .cleared), pData := none }
  | (k, .cleared) => some { s with threads := s.threads.set i (k, .signalled), done := true }
  | (k, .signalled) => some { s with threads := s.threads.set i (k, .exited) }
  | (_, .exited) => none

def step : Act ρ κ δ → State ρ κ δ → Option (State ρ κ δ)
  | .start t, s =>
    if s.call ≠ .out then none
    -- it throws
    else if s.filled t.kind then some s
    else some { s.put t with call := .create t.kind }
  | .create ok, s =>
    match s.call with
    | .create k =>
      if ok then
        some { s with threads := s.threads ++ [(k, .entry)], call := .out, thread := some s.threads.length }
      else some { s.takeBack k with call := .out, thread := none }
    | _ => none
  | .join, s => if s.call = .out then some { s with call := .wait false } else none
  | .tryJoin, s => if s.call = .out then some { s with call := if s.done then .join else .wait true } else none
  | .waited, s =>
    if s.done ∧ (s.call = .wait false ∨ s.call = .wait true) then some { s with call := .join } else none
  | .timeout, s => if s.call = .wait true then some { s with call := .out } else none
  | .pthreadJoin, s =>
    if s.call ≠ .join then none
    else match s.thread with
      | some i =>
        if (s.threads[i]?).map Prod.snd = some .exited then some { s with call := .out, thread := none } else none
      | none => some { s with call := .out, undefined := true }
  | .thread i, s => s.threads[i]?.bind (execute s i)

/-- A thread is joined once, and not behind a `pthread_create` that fails. What `startImpl` does not ask: the object is
not started while a target of the other kind runs, and not with a `Callable` while the thread of the last one is about
to clear the pointer. -/
def Careful (a : Act ρ κ δ) (s : State ρ κ δ) : Prop :=
  match a with
  | .start t => s.filled t.kind.other = false ∧ (t.kind = .callable → ∀ u ∈ s.threads, u.2 ≠ .halfway)
  | .join => s.thread ≠ none ∨ s.threads = []
  | .tryJoin => s.thread ≠ none ∨ s.threads = []
  | _ => True

instance : (a : Act ρ κ δ) → (s : State ρ κ δ) → Decidable (Careful a s)
  | .start t, s =>
    inferInstanceAs (Decidable (s.filled t.kind.other = false ∧
      (t.kind = .callable → ∀ u ∈ s.threads, u.2 ≠ .halfway)))
  | .join, s => inferInstanceAs (Decidable (s.thread ≠ none ∨ s.threads = []))
  | .tryJoin, s => inferInstanceAs (Decidable (s.thread ≠ none ∨ s.threads = []))
  | .create _, _ => .isTrue trivial
  | .waited, _ => .isTrue trivial
  | .timeout, _ => .isTrue trivial
  | .pthreadJoin, _ => .isTrue trivial
  | .thread _, _ => .isTrue trivial

/-- What the owner and the targets see. -/
def seen : Act ρ κ δ → State ρ κ δ → List (LifeEvent (Target ρ κ δ))
  | .start t, s => if s.filled t.kind then [.refused] else []
  | .create ok, s =>
    match s.call with
    | .create k => if ok then (s.target k).toList.map .started else []
    | _ => []
  | .pthreadJoin, s => if s.thread.isSome then [.joined] else []
  | .thread i, s =>
    match s.threads[i]? with
    | some (k, .entry) => (s.target k).toList.map .called
    | some (_, .returned) => [.finished]
    | _ => []
  | _, _ => []

/-- The last thread tells. -/
def State.life (s : State ρ κ δ) : Life (Target ρ κ δ) :=
  match s.threads.getLast? with
  | none => .idle
  | some (k, p) =>
    if p.past then .ended
    else if p = .entry then (s.target k).elim .ended .starting
    else (s.target k).elim .ended .running

/-! ### Which of the threads have a target -/

def AllPast (threads : List (Kind × Point)) : Prop := ∀ u ∈ threads, u.2.past = true

theorem AllPast.set {threads : List (Kind × Point)} (h : AllPast threads) {u : Kind × Point} (hu : u.2.past = true)
    (i : ℕ) : AllPast (threads.set i u) := by
  intro v hv
  obtain hv | rfl := List.mem_or_eq_of_mem_set hv
  · exact h v hv
  · exact hu

theorem AllPast.concat {threads : List (Kind × Point)} (h : AllPast threads) {u : Kind × Point}
    (hu : u.2.past = true) : AllPast (threads ++ [u]) := by
  intro v hv
  obtain hv | rfl : v ∈ threads ∨ v = u := by simpa using hv
  · exact h v hv
  · exact hu

/-- All threads are past their targets, but for the last one while a target runs; and at most one target is there. -/
inductive Phase (filled : Kind → Bool) (threads : List (Kind × Point)) (call : Call) : Prop where
  | resting (out : ∀ k, call ≠ .create k) (past : AllPast threads) (empty : ∀ k, filled k = false)
  | starting {k : Kind} (create : call = .create k) (past : AllPast threads) (here : filled k = true)
      (other : filled k.other = false)
  | busy {k : Kind} {p : Point} {front : List (Kind × Point)} (out : ∀ k, call ≠ .create k)
      (last : threads = front ++ [(k, p)]) (past : AllPast front) (busy : p.past = false) (here : filled k = true)
      (other : filled k.other = false)

theorem Kind.eq_or_other (k l : Kind) : l = k ∨ l = k.other := by
  cases k <;> cases l <;> simp [Kind.other]

theorem index_cases {front : List (Kind × Point)} {last u : Kind × Point} {i : ℕ}
    (h : (front ++ [last])[i]? = some u) : (i < front.length ∧ u ∈ front) ∨ (i = front.length ∧ last = u) := by
  by_cases hlt : i < front.length
  · rw [List.getElem?_append_left hlt] at h
    exact Or.inl ⟨hlt, List.mem_of_getElem? h⟩
  · obtain rfl : i = front.length := by
      have hlen := (List.getElem?_eq_some_iff.mp h).1
      simp at hlen
      omega
    exact Or.inr ⟨rfl, by simpa using h⟩

section

variable {filled : Kind → Bool} {threads : List (Kind × Point)} {call : Call} {i : ℕ} {k : Kind} {p q : Point}

theorem Phase.goto (h : Phase filled threads call) (hout : ∀ k, call ≠ .create k) {c : Call}
    (hc : ∀ k, c ≠ .create k) : Phase filled threads c := by
  cases h with
  | resting _ past empty => exact .resting hc past empty
  | starting create => exact absurd create (hout _)
  | busy _ last past busy here other => exact .busy hc last past busy here other

theorem Phase.move (h : Phase filled threads call) (hi : threads[i]? = some (k, p)) (hpq : q.past = p.past) :
    Phase filled (threads.set i (k, q)) call := by
  have hmem : (k, p) ∈ threads := List.mem_of_getElem? hi
  cases h with
  | resting out past empty => exact .resting out (past.set (hpq.trans (past _ hmem)) i) empty
  | starting create past here other => exact .starting create (past.set (hpq.trans (past _ hmem)) i) here other
  | @busy l r front out last past busy here other =>
    subst last
    obtain ⟨hlt, hfront⟩ | ⟨rfl, heq⟩ := index_cases hi
    · exact .busy out (List.set_append_left i _ hlt) (past.set (hpq.trans (past _ hfront)) i) busy here other
    · obtain ⟨rfl, rfl⟩ := Prod.mk.inj heq
      have hlast : (front ++ [(l, r)]).set front.length (l, q) = front ++ [(l, q)] := by simp
      exact .busy out hlast past (hpq.trans busy) here other

/-- A thread that is not past its target is the last one, and finds it. -/
theorem Phase.index (h : Phase filled threads call) (hi : threads[i]? = some (k, p)) (hp : p.past = false) :
    ∃ front, threads = front ++ [(k, p)] ∧ i = front.length ∧ AllPast front ∧ filled k = true ∧
      filled k.other = false ∧ ∀ l, call ≠ .create l := by
  have hmem : (k, p) ∈ threads := List.mem_of_getElem? hi
  cases h with
  | resting out past empty => simp [past _ hmem] at hp
  | starting create past here other => simp [past _ hmem] at hp
  | @busy l r front out last past busy here other =>
    subst last
    obtain ⟨hlt, hfront⟩ | ⟨rfl, heq⟩ := index_cases hi
    · simp [past _ hfront] at hp
    · obtain ⟨rfl, rfl⟩ := Prod.mk.inj heq
      exact ⟨front, rfl, rfl, past, here, other, out⟩

/-- It is past its target once that is cleared. -/
theorem Phase.clear (h : Phase filled threads call) (hi : threads[i]? = some (k, p)) (hp : p.past = false)
    (hq : q.past = true) {cleared : Kind → Bool} (hk : cleared k = false)
    (hother : cleared k.other = filled k.other) : Phase cleared (threads.set i (k, q)) call := by
  obtain ⟨front, rfl, rfl, past, _, other, out⟩ := h.index hi hp
  refine .resting out ?_ fun l => ?_
  · rw [List.set_append_right _ _ le_rfl, Nat.sub_self]
    exact past.concat hq
  · obtain rfl | rfl := k.eq_or_other l
    · exact hk
    · exact hother.trans other

end

/-- What holds in every state of a careful owner. -/
structure Sound (s : State ρ κ δ) : Prop where
  defined : s.undefined = false
  phase : Phase s.filled s.threads s.call
  halfway : s.callback ≠ none → ∀ u ∈ s.threads, u.2 ≠ .halfway
  named : ∀ i, s.thread = some i → i + 1 = s.threads.length
  done : s.done = true → s.threads ≠ []
  hasSet : ∀ u ∈ s.threads, u.2.hasSet = true → s.done = true
  waiting : ∀ timed, s.call = .wait timed → s.thread ≠ none ∨ s.threads = []
  joining : s.call = .join → s.thread ≠ none

theorem sound_created : Sound (created : State ρ κ δ) where
  defined := rfl
  phase := .resting nofun nofun fun k => by cases k <;> rfl
  halfway := nofun
  named := nofun
  done := nofun
  hasSet := nofun
  waiting := nofun
  joining := nofun

theorem set_ne_nil {α : Type} {l : List α} (h : l ≠ []) (i : ℕ) (a : α) : l.set i a ≠ [] :=
  fun hset => h (by simpa using hset)

theorem filled_iff_target (s : State ρ κ δ) (k : Kind) : s.filled k = (s.target k).isSome := by
  cases k <;> simp [State.filled, State.target]

/-- A thread goes on, and it does not clear its target. -/
theorem Sound.move {s : State ρ κ δ} (hs : Sound s) {i : ℕ} {k : Kind} {p q : Point}
    (hi : s.threads[i]? = some (k, p)) (hpq : q.past = p.past) (hhalf : q ≠ .halfway)
    (hq : q.hasSet = true → s.done = true) : Sound { s with threads := s.threads.set i (k, q) } where
  defined := hs.defined
  phase := hs.phase.move hi hpq
  halfway hcallback u hu := by
    obtain hu | rfl := List.mem_or_eq_of_mem_set hu
    · exact hs.halfway hcallback u hu
    · exact hhalf
  named j hj := by
    rw [List.length_set]
    exact hs.named j hj
  done hdone := set_ne_nil (hs.done hdone) i _
  hasSet u hu hset := by
    obtain hu | rfl := List.mem_or_eq_of_mem_set hu
    · exact hs.hasSet u hu hset
    · exact hq hset
  waiting timed hcall := (hs.waiting timed hcall).imp_right fun hnil => by simp [hnil]
  joining := hs.joining

/-- A thread goes on and clears its target. -/
theorem Sound.clear {s : State ρ κ δ} (hs : Sound s) {i : ℕ} {k : Kind} {q : Point}
    (hi : s.threads[i]? = some (k, .returned)) (hq : q.past = true) (hset : q.hasSet = false) (target : Option ρ)
    (hk : ({ s with pRunnableTarget := target, callback := none } : State ρ κ δ).filled k = false)
    (hother : ({ s with pRunnableTarget := target, callback := none } : State ρ κ δ).filled k.other =
      s.filled k.other) :
    Sound ({ s with threads := s.threads.set i (k, q), pRunnableTarget := target, callback := none } :
      State ρ κ δ) where
  defined := hs.defined
  phase := hs.phase.clear hi rfl hq hk hother
  halfway hsome := absurd rfl hsome
  named j hj := by
    rw [List.length_set]
    exact hs.named j hj
  done hdone := set_ne_nil (hs.done hdone) i _
  hasSet u hu hset' := by
    obtain hu | rfl := List.mem_or_eq_of_mem_set hu
    · exact hs.hasSet u hu hset'
    · simp [hset] at hset'
  waiting timed hcall := (hs.waiting timed hcall).imp_right fun hnil => by simp [hnil]
  joining := hs.joining

theorem Sound.execute {s s' : State ρ κ δ} (hs : Sound s) {i : ℕ} {k : Kind} {p : Point}
    (hi : s.threads[i]? = some (k, p)) (h : execute s i (k, p) = some s') : Sound s' := by
  have hmem : (k, p) ∈ s.threads := List.mem_of_getElem? hi
  cases p with
  | entry =>
    obtain rfl := Option.some.inj h
    obtain ⟨_, _, _, _, hfilled, _⟩ := hs.phase.index hi rfl
    have hundef : (s.undefined || (s.target k).isNone) = s.undefined := by
      rw [filled_iff_target] at hfilled
      simp [hs.defined, Option.isNone_eq_false_iff.mpr hfilled]
    rw [hundef]
    exact hs.move hi rfl nofun nofun
  | running =>
    obtain rfl := Option.some.inj h
    exact hs.move hi rfl nofun nofun
  | returned =>
    obtain ⟨_, _, _, _, _, hother, _⟩ := hs.phase.index hi rfl
    cases k with
    | runnable =>
      obtain rfl := Option.some.inj h
      have hcallback : s.callback = none := by simpa [State.filled, Kind.other] using hother
      have hclear := hs.clear (q := .cleared) hi rfl rfl none rfl (by simp [State.filled, Kind.other, hcallback])
      rwa [← hcallback] at hclear
    | callable =>
      obtain rfl := Option.some.inj h
      exact hs.clear hi rfl rfl s.pRunnableTarget rfl rfl
  | halfway =>
    obtain rfl := Option.some.inj h
    have hdata : Sound ({ s with pData := none } : State ρ κ δ) := { hs with }
    exact hdata.move hi rfl nofun nofun
  | cleared =>
    obtain rfl := Option.some.inj h
    have hdone : Sound { s with done := true } :=
      { hs with done := fun _ => List.ne_nil_of_mem hmem, hasSet := fun _ _ _ => rfl }
    exact hdone.move hi rfl nofun fun _ => rfl
  | signalled =>
    obtain rfl := Option.some.inj h
    exact hs.move hi rfl nofun fun _ => hs.hasSet _ hmem rfl
  | exited => cases h

/-- The owner goes on, outside of `startImpl`. -/
theorem Sound.goto {s : State ρ κ δ} (hs : Sound s) (c : Call) {j : Option ℕ} (hj : j = s.thread ∨ j = none)
    (hout : ∀ k, s.call ≠ .create k) (hc : ∀ k, c ≠ .create k)
    (hwait : ∀ timed, c = .wait timed → j ≠ none ∨ s.threads = []) (hjoin : c = .join → j ≠ none) :
    Sound { s with call := c, thread := j } where
  defined := hs.defined
  phase := hs.phase.goto hout hc
  halfway := hs.halfway
  named i hi := by
    obtain rfl | rfl := hj
    · exact hs.named i hi
    · cases hi
  done := hs.done
  hasSet := hs.hasSet
  waiting := hwait
  joining := hjoin

/-- When a start is not refused, all threads are past their targets. -/
theorem Sound.free {s : State ρ κ δ} (hs : Sound s) {t : Target ρ κ δ} (ht : Careful (.start t) s)
    (hfree : s.filled t.kind = false) : AllPast s.threads := by
  cases hs.phase with
  | resting _ past _ => exact past
  | starting _ past _ _ => exact past
  | @busy k _ _ _ _ _ _ here _ =>
    obtain hk | hk := t.kind.eq_or_other k
    · simp [hk, hfree] at here
    · simp [hk, ht.1] at here

theorem Sound.creating {s : State ρ κ δ} (hs : Sound s) {k : Kind} (hcall : s.call = .create k) :
    AllPast s.threads ∧ s.filled k = true ∧ s.filled k.other = false := by
  cases hs.phase with
  | resting out => exact absurd hcall (out k)
  | starting create past here other =>
    obtain rfl := Call.create.inj (hcall.symm.trans create)
    exact ⟨past, here, other⟩
  | busy out => exact absurd hcall (out k)

theorem Sound.start {s : State ρ κ δ} (hs : Sound s) {t : Target ρ κ δ} (ht : Careful (.start t) s)
    (hfree : s.filled t.kind = false) : Sound { s.put t with call := .create t.kind } := by
  have hpast := hs.free ht hfree
  cases t with
  | runnable target =>
    have hcallback : s.callback = none := by simpa [State.filled, Target.kind, Kind.other] using ht.1
    exact ⟨hs.defined, .starting rfl hpast rfl ht.1, fun hsome => absurd hcallback hsome, hs.named, hs.done, hs.hasSet,
      nofun, nofun⟩
  | callable target pData =>
    exact ⟨hs.defined, .starting rfl hpast rfl ht.1, fun _ => ht.2 rfl, hs.named, hs.done, hs.hasSet, nofun, nofun⟩

theorem Sound.create {s : State ρ κ δ} (hs : Sound s) {k : Kind} (hcall : s.call = .create k) :
    Sound { s with threads := s.threads ++ [(k, .entry)], call := .out, thread := some s.threads.length } := by
  obtain ⟨hpast, hhere, hother⟩ := hs.creating hcall
  refine ⟨hs.defined, .busy nofun rfl hpast rfl hhere hother, fun hcallback u hu => ?_, fun i hi => ?_,
    fun _ => by simp, fun u hu hset => ?_, nofun, nofun⟩
  · obtain hu | rfl : u ∈ s.threads ∨ u = (k, .entry) := by simpa using hu
    · exact hs.halfway hcallback u hu
    · nofun
  · obtain rfl := Option.some.inj hi
    simp
  · obtain hu | rfl : u ∈ s.threads ∨ u = (k, .entry) := by simpa using hu
    · exact hs.hasSet u hu hset
    · cases hset

theorem Sound.takeBack {s : State ρ κ δ} (hs : Sound s) {k : Kind} (hcall : s.call = .create k) :
    Sound { s.takeBack k with call := .out, thread := none } := by
  obtain ⟨hpast, -, hother⟩ := hs.creating hcall
  cases k with
  | runnable =>
    refine ⟨hs.defined, .resting nofun hpast fun l => ?_, hs.halfway, nofun, hs.done, hs.hasSet, nofun, nofun⟩
    cases l with
    | runnable => rfl
    | callable => exact hother
  | callable =>
    refine ⟨hs.defined, .resting nofun hpast fun l => ?_, nofun, nofun, hs.done, hs.hasSet, nofun, nofun⟩
    cases l with
    | runnable => exact hother
    | callable => rfl

theorem Sound.step {a : Act ρ κ δ} {s s' : State ρ κ δ} (hs : Sound s) (ha : Careful a s) (h : step a s = some s') :
    Sound s' := by
  cases a with
  | start t =>
    rw [ThreadImpl.step] at h
    split_ifs at h with hcall hfilled
    · obtain rfl := Option.some.inj h
      exact hs
    · obtain rfl := Option.some.inj h
      exact hs.start ha (Bool.eq_false_of_not_eq_true hfilled)
  | create ok =>
    rw [ThreadImpl.step] at h
    split at h
    case h_1 k hcall =>
      split_ifs at h with hok
      · obtain rfl := Option.some.inj h
        exact hs.create hcall
      · obtain rfl := Option.some.inj h
        exact hs.takeBack hcall
    case h_2 => cases h
  | join =>
    rw [ThreadImpl.step] at h
    split_ifs at h with hcall
    obtain rfl := Option.some.inj h
    exact hs.goto (.wait false) (.inl rfl) (by simp [hcall]) nofun (fun _ _ => ha) nofun
  | tryJoin =>
    rw [ThreadImpl.step] at h
    split_ifs at h with hcall hdone
    · obtain rfl := Option.some.inj h
      have hnamed : s.thread ≠ none := ha.resolve_right (hs.done hdone)
      exact hs.goto .join (.inl rfl) (by simp [hcall]) nofun nofun (fun _ => hnamed)
    · obtain rfl := Option.some.inj h
      exact hs.goto (.wait true) (.inl rfl) (by simp [hcall]) nofun (fun _ _ => ha) nofun
  | waited =>
    rw [ThreadImpl.step] at h
    split_ifs at h with hcall
    obtain rfl := Option.some.inj h
    obtain ⟨hdone, hwait | hwait⟩ := hcall
    · have hnamed := (hs.waiting _ hwait).resolve_right (hs.done hdone)
      exact hs.goto .join (.inl rfl) (by simp [hwait]) nofun nofun (fun _ => hnamed)
    · have hnamed := (hs.waiting _ hwait).resolve_right (hs.done hdone)
      exact hs.goto .join (.inl rfl) (by simp [hwait]) nofun nofun (fun _ => hnamed)
  | timeout =>
    rw [ThreadImpl.step] at h
    split_ifs at h with hcall
    obtain rfl := Option.some.inj h
    exact hs.goto .out (.inl rfl) (by simp [hcall]) nofun nofun nofun
  | pthreadJoin =>
    rw [ThreadImpl.step] at h
    split_ifs at h with hcall
    have hcall : s.call = .join := not_not.mp hcall
    obtain ⟨i, hi⟩ := Option.ne_none_iff_exists'.mp (hs.joining hcall)
    simp only [hi] at h
    split_ifs at h with hlast
    obtain rfl := Option.some.inj h
    exact hs.goto .out (.inr rfl) (by simp [hcall]) nofun nofun nofun
  | thread i =>
    obtain ⟨⟨k, p⟩, hi, hp⟩ := Option.bind_eq_some_iff.mp h
    exact hs.execute hi hp

/-! ### What its owner sees -/

theorem life_past {s : State ρ κ δ} (h : AllPast s.threads) :
    s.life = if s.threads = [] then .idle else .ended := by
  cases hlast : s.threads.getLast? with
  | none =>
    rw [State.life, hlast, if_pos (List.getLast?_eq_none_iff.mp hlast)]
  | some u =>
    have hmem : u ∈ s.threads := List.mem_of_getLast? hlast
    rw [State.life, hlast, if_neg (List.ne_nil_of_mem hmem)]
    exact if_pos (h u hmem)

theorem life_last {s : State ρ κ δ} {front : List (Kind × Point)} {k : Kind} {p : Point} {x : Target ρ κ δ}
    (hthreads : s.threads = front ++ [(k, p)]) (hp : p.past = false) (hx : s.target k = some x) :
    s.life = if p = .entry then .starting x else .running x := by
  simp [State.life, hthreads, hp, hx]

/-- A thread that is past its target goes on unseen. -/
theorem life_behind {s s' : State ρ κ δ} (hs : Phase s.filled s.threads s.call) {i : ℕ} {k : Kind} {p q : Point}
    (hi : s.threads[i]? = some (k, p)) (hp : p.past = true) (hq : q.past = true)
    (hthreads : s'.threads = s.threads.set i (k, q)) (htarget : ∀ l, s.filled l = true → s'.target l = s.target l) :
    s'.life = s.life := by
  have hpast (h : AllPast s.threads) : s'.life = s.life := by
    have hset : AllPast s'.threads := hthreads ▸ h.set hq i
    rw [life_past hset, life_past h, hthreads]
    simp
  cases hs with
  | resting _ past _ => exact hpast past
  | starting _ past _ _ => exact hpast past
  | @busy l r front _ last _ busy here _ =>
    rw [last] at hi
    obtain ⟨hlt, _⟩ | ⟨_, heq⟩ := index_cases hi
    · obtain ⟨x, hx⟩ := Option.isSome_iff_exists.mp ((filled_iff_target s l).symm.trans here)
      have hlast : s'.threads = front.set i (k, q) ++ [(l, r)] := by
        rw [hthreads, last, List.set_append_left i _ hlt]
      rw [life_last last busy hx, life_last hlast busy ((htarget l here).trans hx)]
    · obtain ⟨_, rfl⟩ := Prod.mk.inj heq
      simp [hp] at busy

/-- The thread that the handle names is the last one. -/
theorem Sound.ended_of_exited {s : State ρ κ δ} (hs : Sound s) {i : ℕ} (hi : s.thread = some i)
    (hexited : (s.threads[i]?).map Prod.snd = some .exited) : s.life = .ended := by
  have hlen := hs.named i hi
  obtain ⟨⟨k, p⟩, hget, rfl⟩ := Option.map_eq_some_iff.mp hexited
  have hlast : s.threads.getLast? = some (k, .exited) := by
    rw [List.getLast?_eq_getElem?, show s.threads.length - 1 = i by omega]
    exact hget
  rw [State.life, hlast]
  rfl

variable [DecidableEq ρ] [DecidableEq κ] [DecidableEq δ]

theorem follows_execute {s s' : State ρ κ δ} (hs : Sound s) {i : ℕ} {k : Kind} {p : Point}
    (hi : s.threads[i]? = some (k, p)) (h : execute s i (k, p) = some s') :
    run Life.step (seen (.thread i) s) s.life = some s'.life := by
  cases hp : p.past with
  | false =>
    -- it is the last one, and its target is there
    obtain ⟨front, hthreads, rfl, hfront, hfilled, -⟩ := hs.phase.index hi hp
    obtain ⟨x, hx⟩ := Option.isSome_iff_exists.mp ((filled_iff_target s k).symm.trans hfilled)
    have hrunning {t : State ρ κ δ} {q : Point} (hq : q.past = false) (hne : q ≠ .entry)
        (ht : t.threads = s.threads.set front.length (k, q)) (htarget : t.target k = s.target k) :
        t.life = .running x := by
      have hlast : t.threads = front ++ [(k, q)] := by
        rw [ht, hthreads]
        simp
      rw [life_last hlast hq (htarget.trans hx), if_neg hne]
    cases p with
    | entry =>
      obtain rfl := Option.some.inj h
      rw [seen, hi, life_last hthreads rfl hx, hrunning (q := .running) rfl (by decide) rfl (by cases k <;> rfl)]
      simp [run, hx, Life.step]
    | running =>
      obtain rfl := Option.some.inj h
      rw [seen, hi, life_last hthreads rfl hx, hrunning (q := .returned) rfl (by decide) rfl (by cases k <;> rfl)]
      rfl
    | returned =>
      have hended {t : State ρ κ δ} {q : Point} (hq : q.past = true)
          (ht : t.threads = s.threads.set front.length (k, q)) : t.life = .ended := by
        rw [life_past, if_neg (by simp [ht, hthreads])]
        rw [ht, hthreads, List.set_append_right _ _ le_rfl, Nat.sub_self]
        exact hfront.concat hq
      rw [seen, hi, life_last hthreads rfl hx]
      cases k with
      | runnable =>
        obtain rfl := Option.some.inj h
        rw [hended (q := .cleared) rfl rfl]
        rfl
      | callable =>
        obtain rfl := Option.some.inj h
        rw [hended (q := .halfway) rfl rfl]
        rfl
    | _ => cases hp
  | true =>
    have hmem : (k, p) ∈ s.threads := List.mem_of_getElem? hi
    cases p with
    | halfway =>
      obtain rfl := Option.some.inj h
      have hcallback : s.callback = none := by
        by_contra hsome
        exact hs.halfway hsome _ hmem rfl
      rw [seen, hi]
      exact congrArg some (life_behind hs.phase hi rfl rfl rfl fun l _ => by
        cases l <;> simp [State.target, hcallback]).symm
    | cleared =>
      obtain rfl := Option.some.inj h
      rw [seen, hi]
      exact congrArg some (life_behind hs.phase hi rfl rfl rfl fun l _ => by cases l <;> rfl).symm
    | signalled =>
      obtain rfl := Option.some.inj h
      rw [seen, hi]
      exact congrArg some (life_behind hs.phase hi rfl rfl rfl fun l _ => by cases l <;> rfl).symm
    | exited => cases h
    | _ => cases hp

theorem follows {a : Act ρ κ δ} {s s' : State ρ κ δ} (hs : Sound s) (ha : Careful a s) (h : step a s = some s') :
    run Life.step (seen a s) s.life = some s'.life := by
  cases a with
  | start t =>
    rw [ThreadImpl.step] at h
    split_ifs at h with hcall hfilled
    · obtain rfl := Option.some.inj h
      rw [seen, if_pos hfilled]
      cases hs.phase with
      | resting _ _ empty => simp [empty] at hfilled
      | starting create => simp [create] at hcall
      | @busy k p _ _ last _ busy here _ =>
        obtain ⟨x, hx⟩ := Option.isSome_iff_exists.mp ((filled_iff_target s k).symm.trans here)
        rw [life_last last busy hx]
        split_ifs <;> rfl
    · obtain rfl := Option.some.inj h
      have hpast := hs.free ha (Bool.eq_false_of_not_eq_true hfilled)
      have hthreads : (s.put t).threads = s.threads := by cases t <;> rfl
      have hbehind : AllPast ({ s.put t with call := .create t.kind } : State ρ κ δ).threads := hthreads ▸ hpast
      rw [seen, if_neg hfilled, life_past hpast, life_past hbehind, hthreads]
      rfl
  | create ok =>
    rw [ThreadImpl.step] at h
    split at h
    case h_1 k hcall =>
      split_ifs at h with hok
      · obtain rfl := Option.some.inj h
        obtain ⟨hpast, hfilled, -⟩ := hs.creating hcall
        obtain ⟨x, hx⟩ := Option.isSome_iff_exists.mp ((filled_iff_target s k).symm.trans hfilled)
        have hstarting {t : State ρ κ δ} (ht : t.threads = s.threads ++ [(k, .entry)])
            (htarget : t.target k = s.target k) : t.life = .starting x := by
          rw [life_last ht rfl (htarget.trans hx), if_pos rfl]
        have hseen : seen (.create ok) s = [.started x] := by simp [seen, hcall, hok, hx]
        rw [hseen, life_past hpast, hstarting rfl (by cases k <;> rfl)]
        split_ifs <;> rfl
      · obtain rfl := Option.some.inj h
        have hpast := (hs.creating hcall).1
        have hthreads : (s.takeBack k).threads = s.threads := by cases k <;> rfl
        have hbehind : AllPast ({ s.takeBack k with call := .out, thread := none } : State ρ κ δ).threads :=
          hthreads ▸ hpast
        have hseen : seen (.create ok) s = [] := by simp [seen, hcall, hok]
        rw [hseen, life_past hpast, life_past hbehind, hthreads]
        rfl
    case h_2 => cases h
  | join =>
    rw [ThreadImpl.step] at h
    split_ifs at h with hcall
    obtain rfl := Option.some.inj h
    rfl
  | tryJoin =>
    rw [ThreadImpl.step] at h
    split_ifs at h with hcall hdone
    · obtain rfl := Option.some.inj h
      rfl
    · obtain rfl := Option.some.inj h
      rfl
  | waited =>
    rw [ThreadImpl.step] at h
    split_ifs at h with hcall
    obtain rfl := Option.some.inj h
    rfl
  | timeout =>
    rw [ThreadImpl.step] at h
    split_ifs at h with hcall
    obtain rfl := Option.some.inj h
    rfl
  | pthreadJoin =>
    rw [ThreadImpl.step] at h
    split_ifs at h with hcall
    have hcall : s.call = .join := not_not.mp hcall
    obtain ⟨i, hi⟩ := Option.ne_none_iff_exists'.mp (hs.joining hcall)
    simp only [hi] at h
    split_ifs at h with hlast
    obtain rfl := Option.some.inj h
    have hseen : seen .pthreadJoin s = [.joined] := by simp [seen, hi]
    have hended := hs.ended_of_exited hi hlast
    rw [hseen, hended]
    exact congrArg some hended.symm
  | thread i =>
    obtain ⟨⟨k, p⟩, hi, hp⟩ := Option.bind_eq_some_iff.mp h
    exact follows_execute hs hi hp

omit [DecidableEq ρ] [DecidableEq κ] [DecidableEq δ]

/-- A thread that is past its target gets to its end. -/
theorem last_exits {s : State ρ κ δ} (hs : Sound s) {front : List (Kind × Point)} {k : Kind} {p : Point}
    (hthreads : s.threads = front ++ [(k, p)]) (hpast : p.past = true) :
    ∃ n d, run step (List.replicate n (.thread front.length)) s
      = some { s with pData := d, threads := front ++ [(k, .exited)], done := true } := by
  have hmem : (k, p) ∈ s.threads := by simp [hthreads]
  obtain ⟨pRunnableTarget, callback, pData, thread, done, threads, call, undefined⟩ := s
  obtain rfl : threads = front ++ [(k, p)] := hthreads
  cases p with
  | halfway =>
    exact ⟨3, none, by simp [run, step, execute, List.replicate]⟩
  | cleared =>
    exact ⟨2, pData, by simp [run, step, execute, List.replicate]⟩
  | signalled =>
    obtain rfl : done = true := hs.hasSet _ hmem rfl
    exact ⟨1, pData, by simp [run, step, execute]⟩
  | exited =>
    obtain rfl : done = true := hs.hasSet _ hmem rfl
    exact ⟨0, pData, rfl⟩
  | _ => cases hpast

theorem last_of_ended {s : State ρ κ δ} (hs : Sound s) (hended : s.life = .ended) :
    ∃ front k p, s.threads = front ++ [(k, p)] ∧ p.past = true := by
  have hne : s.threads ≠ [] := fun hnil => by simp [State.life, hnil] at hended
  obtain ⟨front, ⟨k, p⟩, hthreads⟩ := List.eq_nil_or_concat s.threads |>.resolve_left hne
  rw [List.concat_eq_append] at hthreads
  refine ⟨front, k, p, hthreads, ?_⟩
  by_contra hbusy
  have hbusy : p.past = false := Bool.eq_false_of_not_eq_true hbusy
  have hlast : s.threads[front.length]? = some (k, p) := by simp [hthreads]
  obtain ⟨_, _, _, _, hfilled, _⟩ := hs.phase.index hlast hbusy
  obtain ⟨x, hx⟩ := Option.isSome_iff_exists.mp ((filled_iff_target s k).symm.trans hfilled)
  rw [life_last hthreads hbusy hx] at hended
  split_ifs at hended

/-- Once the target has returned, a join returns by what is left of the thread, and needs nobody else. -/
theorem join_returns {as : List (Act ρ κ δ)} {s : State ρ κ δ} (h : run step as created = some s)
    (hC : Always step Careful as created) {timed : Bool} (hcall : s.call = .wait timed) (hended : s.life = .ended) :
    ∃ bs t, (∀ b ∈ bs, b = .waited ∨ b = .pthreadJoin ∨ ∃ i, b = .thread i) ∧ run step bs s = some t ∧
      t.call = .out ∧ t.thread = none := by
  have hs := run_preserves_of (fun _ _ _ hs ha ht => hs.step ha ht) sound_created hC h
  obtain ⟨front, k, p, hthreads, hpast⟩ := last_of_ended hs hended
  obtain ⟨n, d, hexits⟩ := last_exits hs hthreads hpast
  obtain ⟨i, hi⟩ := Option.ne_none_iff_exists'.mp ((hs.waiting timed hcall).resolve_right (by simp [hthreads]))
  obtain rfl : i = front.length := by
    have hlen := hs.named i hi
    rw [hthreads, List.length_append, List.length_singleton] at hlen
    omega
  have hjoin : run step [.waited, .pthreadJoin]
      { s with pData := d, threads := front ++ [(k, .exited)], done := true } = some { s with
        pData := d, threads := front ++ [(k, .exited)], done := true, call := .out, thread := none } := by
    cases timed <;> simp [run, step, hi, hcall]
  refine ⟨_, _, fun b hb => ?_, run_append hexits hjoin, rfl, rfl⟩
  obtain hb | hb := List.mem_append.mp hb
  · exact Or.inr (Or.inr ⟨front.length, List.eq_of_mem_replicate hb⟩)
  · obtain rfl | rfl : b = .waited ∨ b = .pthreadJoin := by simpa using hb
    · exact Or.inl rfl
    · exact Or.inr (Or.inl rfl)

/-- A target that is started again between its end and the event, then one of the other kind after a
`pthread_create` that fails, and a join behind it. -/
def restarted : List (Act Bool Bool Bool) :=
  [.start (.runnable false), .create true, .thread 0, .thread 0, .thread 0, .start (.runnable true), .create true,
    .thread 0, .thread 1, .thread 1, .thread 1, .start (.callable false none), .create false,
    .start (.callable true (some true)), .create true, .thread 2, .thread 2, .join, .thread 2]

def restartedState : State Bool Bool Bool := (run step restarted created).get (by decide)

theorem run_restarted : run step restarted created = some restartedState := (Option.some_get _).symm

theorem join_returns_restarted :
    ∃ bs t, (∀ b ∈ bs, b = .waited ∨ b = .pthreadJoin ∨ ∃ i, b = .thread i) ∧
      run step bs restartedState = some t ∧ t.call = .out ∧ t.thread = none :=
  have hcall : restartedState.call = .wait false := rfl
  join_returns run_restarted (by decide) hcall rfl

/-- A `Callable` is not refused while a `Runnable` runs. -/
example : (run step [.start (.runnable false), .create true, .thread 0, .start (.callable true none), .create true,
    .thread 1] (created : State Bool Bool Bool)).map State.threads =
      some [(.runnable, .running), (.callable, .running)] := by decide

/-- The thread of the last `Callable` clears the pointer of the next one. -/
example : (run step [.start (.callable false (some false)), .create true, .thread 0, .thread 0, .thread 0,
    .start (.callable true (some true)), .create true, .thread 0]
      (created : State Bool Bool Bool)).map (fun s => s.target .callable) =
        some (some (.callable true none)) := by decide

end ThreadImpl

end RgcFifa
