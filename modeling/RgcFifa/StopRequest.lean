import RgcFifa.Lib.StopFlag

/-! Stopping a thread. `TcpService::run` and `WorkerRunner::Run` set their flag themselves
when they begin, so that a stop that comes before is undone. -/

namespace RgcFifa

inductive ServicePc where
  | entry | check | dispatch | destroy | finished
  deriving DecidableEq, Repr

/-- A service and the thread in its `run`. `asked` records that `uninit` has been called. -/
structure TcpService where
  running : Bool
  pc : ServicePc
  asked : Bool
  deriving DecidableEq, Repr

/-- `dispatchReturns` is a return of `event_base_dispatch` without a `loopbreak`. -/
inductive ServiceEvent where
  | run | onOpCheck | dispatchReturns | uninit
  deriving DecidableEq, Repr

namespace TcpService

def start : TcpService := ⟨false, .entry, false⟩

/-- The next statement of `run`, outside of `event_base_dispatch`. -/
def runStep (s : TcpService) : Option TcpService :=
  match s.pc with
  | .entry => some { s with running := true, pc := .check }
  | .check => some { s with pc := if s.running then .dispatch else .finished }
  | .destroy => some { s with pc := .check }
  | .dispatch => none
  | .finished => none

def step : ServiceEvent → TcpService → Option TcpService
  | .run, s => s.runStep
  | .onOpCheck, s =>
      if s.pc = .dispatch then some (if s.running then s else { s with pc := .destroy }) else none
  | .dispatchReturns, s => if s.pc = .dispatch then some { s with pc := .destroy } else none
  | .uninit, s => some { s with running := false, asked := true }

/-- The assignment with which `run` begins. -/
def Enters (e : ServiceEvent) (s : TcpService) : Prop := e = .run ∧ s.pc = .entry

instance (e : ServiceEvent) (s : TcpService) : Decidable (Enters e s) :=
  inferInstanceAs (Decidable (_ ∧ _))

/-- What is left of `run` once the flag is down: the next check in the loop ends it. -/
def exitEvents : ServicePc → List ServiceEvent
  | .entry => []
  | .check => [.run]
  | .dispatch => [.onOpCheck, .run, .run]
  | .destroy => [.run, .run]
  | .finished => []

variable {s t : TcpService}

theorem raised : StopFlag.Raised step running asked Enters where
  enabled := by
    rintro e s ⟨rfl, hpc⟩
    exact ⟨{ s with running := true, pc := .check }, by simp [step, runStep, hpc], rfl, rfl⟩
  other := by
    intro e s t ht hr hs
    cases e with
    | run =>
      cases hpc : s.pc with
      | entry => exact absurd ⟨rfl, hpc⟩ hr
      | check =>
        simp only [step, runStep, hpc, Option.some.injEq] at ht
        rw [← ht]
        exact hs
      | destroy =>
        simp only [step, runStep, hpc, Option.some.injEq] at ht
        rw [← ht]
        exact hs
      | dispatch => simp [step, runStep, hpc] at ht
      | finished => simp [step, runStep, hpc] at ht
    | onOpCheck =>
      simp only [step] at ht
      split_ifs at ht
      · rw [← Option.some.inj ht]
        exact hs
      · rw [← Option.some.inj ht]
        exact hs
    | dispatchReturns =>
      simp only [step] at ht
      split_ifs at ht
      rw [← Option.some.inj ht]
      exact hs
    | uninit =>
      rw [← Option.some.inj ht]
      exact fun _ => rfl

theorem exits (hdown : s.running = false) (hpc : s.pc ≠ .entry) :
    Transition.run step (exitEvents s.pc) s = some { s with pc := .finished } := by
  obtain ⟨running, pc, asked⟩ := s
  obtain rfl : running = false := hdown
  cases pc with
  | entry => exact absurd rfl hpc
  | check => rfl
  | dispatch => rfl
  | destroy => rfl
  | finished => rfl

end TcpService

inductive RunnerPc where
  | newHandler | addMsgTimer | addTimer | activate | enterLoop | loop | finished
  deriving DecidableEq, Repr

/-- A runner and the thread in its `RunnerProc`. `eventBreak` is the flag of the event base
that `event_base_loopbreak` raises and `event_base_loop` clears when it is entered;
`m_MsgHandler` holds the handler's `m_RunnerShutdown`. `asked` records that a `Shutdown` has
made its assignment. -/
structure WorkerRunner where
  m_IsActive : Bool
  m_Timerinterval : ℕ
  m_MsgHandler : Option Bool
  eventBreak : Bool
  pc : RunnerPc
  asked : Bool
  deriving DecidableEq, Repr

inductive RunnerEvent where
  | run | doProcess | loopReturns | setActive | setRunnerShutdown
  deriving DecidableEq, Repr

namespace WorkerRunner

def start (tv : ℕ) : WorkerRunner := ⟨false, tv, none, false, .newHandler, false⟩

/-- What `DoProcessMsg` and `DoProcessTimer` begin with. -/
def checkActive (r : WorkerRunner) : WorkerRunner :=
  if r.m_IsActive then r else { r with eventBreak := true }

/-- The next statement of `RunnerProc` and `Run`. `AddTimer` calls its callback once. -/
def runStep (r : WorkerRunner) : Option WorkerRunner :=
  match r.pc with
  | .newHandler => some { r with m_MsgHandler := some false, pc := .addMsgTimer }
  | .addMsgTimer => some { r.checkActive with pc := .addTimer }
  | .addTimer =>
      some { (if r.m_Timerinterval > 0 then r.checkActive else r) with pc := .activate }
  | .activate => some { r with m_IsActive := true, pc := .enterLoop }
  | .enterLoop => some { r with eventBreak := false, pc := .loop }
  | .loop => none
  | .finished => none

/-- `setActive` and `setRunnerShutdown` are the two statements of `Shutdown`. -/
def step : RunnerEvent → WorkerRunner → Option WorkerRunner
  | .run, r => r.runStep
  | .doProcess, r =>
      if r.pc = .loop then
        let r := r.checkActive
        some (if r.eventBreak then { r with pc := .finished } else r)
      else none
  | .loopReturns, r => if r.pc = .loop then some { r with pc := .finished } else none
  | .setActive, r => some { r with m_IsActive := false, asked := true }
  | .setRunnerShutdown, r => some { r with m_MsgHandler := r.m_MsgHandler.map fun _ => true }

/-- The assignment that `Run` makes behind its timers. -/
def Activates (e : RunnerEvent) (r : WorkerRunner) : Prop := e = .run ∧ r.pc = .activate

variable {r : WorkerRunner}

@[simp] theorem checkActive_m_IsActive (r : WorkerRunner) :
    r.checkActive.m_IsActive = r.m_IsActive := by
  unfold checkActive
  split_ifs <;> rfl

@[simp] theorem checkActive_asked (r : WorkerRunner) : r.checkActive.asked = r.asked := by
  unfold checkActive
  split_ifs <;> rfl

theorem raised : StopFlag.Raised step m_IsActive asked Activates where
  enabled := by
    rintro e r ⟨rfl, hpc⟩
    exact ⟨{ r with m_IsActive := true, pc := .enterLoop }, by simp [step, runStep, hpc], rfl, rfl⟩
  other := by
    intro e r t ht hr hs
    cases e with
    | run =>
      cases hpc : r.pc with
      | activate => exact absurd ⟨rfl, hpc⟩ hr
      | newHandler =>
        simp only [step, runStep, hpc, Option.some.injEq] at ht
        rw [← ht]
        exact hs
      | addMsgTimer =>
        simp only [step, runStep, hpc, Option.some.injEq] at ht
        rw [← ht]
        simpa using hs
      | addTimer =>
        simp only [step, runStep, hpc, Option.some.injEq] at ht
        rw [← ht]
        by_cases htv : r.m_Timerinterval > 0
        · simpa [htv] using hs
        · simpa [htv] using hs
      | enterLoop =>
        simp only [step, runStep, hpc, Option.some.injEq] at ht
        rw [← ht]
        exact hs
      | loop => simp [step, runStep, hpc] at ht
      | finished => simp [step, runStep, hpc] at ht
    | doProcess =>
      simp only [step] at ht
      split_ifs at ht
      · rw [← Option.some.inj ht]
        simpa using hs
      · rw [← Option.some.inj ht]
        simpa using hs
    | loopReturns =>
      simp only [step] at ht
      split_ifs at ht
      rw [← Option.some.inj ht]
      exact hs
    | setActive =>
      rw [← Option.some.inj ht]
      exact fun _ => rfl
    | setRunnerShutdown =>
      rw [← Option.some.inj ht]
      exact hs

/-- The next timer callback in the loop ends it. -/
theorem exits (hdown : r.m_IsActive = false) (hpc : r.pc = .loop) :
    step .doProcess r = some { r with eventBreak := true, pc := .finished } := by
  simp [step, hpc, checkActive, hdown]

end WorkerRunner

/-- A stop is kept, in all states of a run, exactly when the thread has made the assignment
it begins with before the stop is asked for, or never makes it. -/
theorem stop_kept_iff (tv : ℕ) :
    (∀ es, Transition.Always TcpService.step (fun e s => TcpService.Enters e s → s.asked = false)
        es TcpService.start ↔
      ∀ pre suf s, es = pre ++ suf → Transition.run TcpService.step pre TcpService.start = some s →
        s.asked = true → s.running = false) ∧
    (∀ es, Transition.Always WorkerRunner.step
        (fun e r => WorkerRunner.Activates e r → r.asked = false) es (WorkerRunner.start tv) ↔
      ∀ pre suf r, es = pre ++ suf →
        Transition.run WorkerRunner.step pre (WorkerRunner.start tv) = some r →
        r.asked = true → r.m_IsActive = false) ∧
    (∀ s : TcpService, s.running = false → s.pc ≠ .entry →
      Transition.run TcpService.step (TcpService.exitEvents s.pc) s =
        some { s with pc := .finished }) ∧
    ∀ r : WorkerRunner, r.m_IsActive = false → r.pc = .loop →
      WorkerRunner.step .doProcess r = some { r with eventBreak := true, pc := .finished } :=
  ⟨fun es => TcpService.raised.kept_iff rfl es, fun es => WorkerRunner.raised.kept_iff rfl es,
    fun _ hdown hpc => TcpService.exits hdown hpc, fun _ hdown hpc => WorkerRunner.exits hdown hpc⟩

/-- A service is stopped while its thread dispatches. -/
theorem stop_kept_in_dispatch : ∃ s,
    Transition.run TcpService.step [.run, .run, .uninit] TcpService.start = some s ∧
      s.running = false ∧ Transition.run TcpService.step [.onOpCheck, .run, .run] s =
        some { s with pc := .finished } := by
  obtain ⟨s, hs, hasked, hpc⟩ := Transition.exists_run TcpService.step [.run, .run, .uninit]
    TcpService.start (fun s => s.asked = true ∧ s.pc = .dispatch) (by decide)
  obtain ⟨hservice, _, hexits, _⟩ := stop_kept_iff 0
  have hdown := (hservice [.run, .run, .uninit]).mp (by decide) _ [] s rfl hs hasked
  have hrun := hexits s hdown (by rw [hpc]; decide)
  rw [hpc] at hrun
  exact ⟨s, hs, hdown, hrun⟩

/-- The stop comes before the thread begins: both threads are in their loops with the flag
up, and no check in the loop changes that. -/
theorem stop_lost :
    (∃ s, Transition.run TcpService.step [.uninit, .run, .run] TcpService.start = some s ∧
      s.asked = true ∧ s.running = true ∧ s.pc = .dispatch ∧
        TcpService.step .onOpCheck s = some s) ∧
    ∃ r, Transition.run WorkerRunner.step
      [.setActive, .setRunnerShutdown, .run, .run, .run, .run, .run] (WorkerRunner.start 0) =
        some r ∧ r.asked = true ∧ r.m_IsActive = true ∧ r.pc = .loop ∧
        r.m_MsgHandler = some false ∧ WorkerRunner.step .doProcess r = some r :=
  ⟨Transition.exists_run TcpService.step _ _ _ (by decide),
    Transition.exists_run WorkerRunner.step _ _ _ (by decide)⟩

end RgcFifa
