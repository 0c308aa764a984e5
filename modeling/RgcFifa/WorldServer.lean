import RgcFifa.StopRequest
import RgcFifa.TcpServer
import RgcFifa.Thread

/-! The shutdown of the server by a signal: the main thread with the signal's handler in it, the thread of
the logic, that of the master server and those of its workers. -/

namespace RgcFifa.WorldServer

open Transition

/-- `Run`, and what `main` does behind it. -/
inductive MainPc where
  | runLogic
  | construct
  | start
  | joinLogic
  | joinTcp
  | delete
  | exited
  deriving DecidableEq, Repr

/-- `Shutdown`, with `uninit` of the master server and `Shutdown` of the logic, which tests `m_MsgHandler` before it
uses it. It sleeps as long as it likes. -/
inductive HandlerPc where
  | unInit
  | stopMaster
  | shutdownSocket
  | stopWorker (i : ℕ)
  | joinWorker (i : ℕ)
  | stopLogic
  | testHandler
  | setRunnerShutdown
  | returned
  deriving DecidableEq, Repr

/-- `TcpService::run` with `postInitServer` of the master server. -/
inductive MasterPc where
  | unstarted
  | entry
  | check
  | newWorker (i : ℕ)
  | startWorker (i : ℕ)
  | dispatch
  | destroy
  | finished
  deriving DecidableEq, Repr

/-- `RunnerProc` behind `Run`: its `Destroy` deletes the message handler, and then clears `m_MsgHandler`. -/
inductive TailPc where
  | run
  | deleted
  | ended
  deriving DecidableEq, Repr

inductive Wrapper where
  | null
  | alive
  | deleted
  deriving DecidableEq, Repr

/-- `handler` is `none` before the signal. `fault` records a use of what is not there. -/
structure Process where
  main : MainPc
  handler : Option HandlerPc
  wrapper : Wrapper
  logic : WorkerRunner
  tail : TailPc
  running : Bool
  master : MasterPc
  socketDown : Bool
  workers : List TcpService
  started : ℕ → Bool
  fault : Bool

inductive Act where
  | main
  | signal
  | handler
  | master
  | masterBreaks
  | worker (i : ℕ) (e : ServiceEvent)
  | logic (e : RunnerEvent)
  | destroyLogic
  deriving DecidableEq, Repr

namespace Process

def start (tv : ℕ) : Process where
  main := .runLogic
  handler := none
  wrapper := .null
  logic := WorkerRunner.start tv
  tail := .run
  running := false
  master := .unstarted
  socketDown := false
  workers := []
  started _ := false
  fault := false

/-- The thread of a worker has been started and is not at its end. -/
def Busy (s : Process) (i : ℕ) : Prop :=
  s.started i = true ∧ (s.workers[i]?).map TcpService.pc ≠ some .finished

instance (s : Process) (i : ℕ) : Decidable (s.Busy i) := inferInstanceAs (Decidable (_ ∧ _))

/-- The thread object of a worker. -/
def life (s : Process) (i : ℕ) : Life ℕ := if s.Busy i then .running i else if s.started i then .ended else .idle

def mainStep (s : Process) : Option Process :=
  match s.main with
  | .runLogic => some { s with main := .construct }
  | .construct => some { s with main := .start, wrapper := .alive }
  | .start => some { s with main := .joinLogic, master := .entry }
  | .joinLogic => if s.tail = .ended then some { s with main := .joinTcp } else none
  | .joinTcp => if s.master = .finished then some { s with main := .delete } else none
  -- the services are deleted with the wrapper
  | .delete => some { s with main := .exited, wrapper := .deleted, fault := decide (∃ i < WORKERS, s.Busy i) }
  | .exited => none

def handlerStep (s : Process) : HandlerPc → Option Process
  | .unInit => some { s with handler := some .stopMaster, fault := decide (s.wrapper ≠ .alive) }
  | .stopMaster => some { s with handler := some .shutdownSocket, running := false }
  | .shutdownSocket => some { s with handler := some (.stopWorker 0), socketDown := true }
  | .stopWorker i =>
    match s.workers[i]? with
    | none => some { s with fault := true }
    | some w => (TcpService.step .uninit w).map fun w =>
      { s with handler := some (.joinWorker i), workers := s.workers.set i w }
  | .joinWorker i =>
    if (Life.step .joined (s.life i)).isSome then
      some { s with handler := some (if i + 1 < WORKERS then .stopWorker (i + 1) else .stopLogic) }
    else none
  | .stopLogic => (WorkerRunner.step .setActive s.logic).map fun r =>
    { s with handler := some .testHandler, logic := r }
  | .testHandler => some { s with
      handler := some (if s.logic.m_MsgHandler.isSome ∧ s.tail ≠ .ended then .setRunnerShutdown else .returned) }
  | .setRunnerShutdown =>
    if s.tail ≠ .run then some { s with fault := true }
    else (WorkerRunner.step .setRunnerShutdown s.logic).map fun r => { s with handler := some .returned, logic := r }
  | .returned => none

def masterStep (s : Process) : Option Process :=
  match s.master with
  | .unstarted => none
  | .entry => some { s with master := .check, running := true }
  | .check => some { s with master := if s.running then .newWorker 0 else .finished }
  | .newWorker i => some { s with
      master := if i + 1 < WORKERS then .newWorker (i + 1) else .startWorker 0
      workers := s.workers ++ [TcpService.start] }
  | .startWorker i =>
    -- the exception of a thread that is running already ends the master's
    if (Life.step (.started i) (s.life i)).isNone then some { s with master := .finished }
    else some { s with
      master := if i + 1 < WORKERS then .startWorker (i + 1) else .dispatch
      started := Function.update s.started i true
      workers := s.workers.modify i fun w => { w with pc := .entry } }
  | .dispatch => none
  | .destroy => some { s with master := .check }
  | .finished => none

/-- The next statement of the logic thread behind its loop. -/
def destroyLogic (s : Process) : Option Process :=
  match s.tail with
  | .run => some { s with tail := .deleted }
  | .deleted => some { s with tail := .ended }
  | .ended => none

/-- The loop of the master server is broken by `onTimerCheck` without the flag, and by `on_server_write`: the
socket that listens is not written to before it is shut down. -/
def step (a : Act) (s : Process) : Option Process :=
  if s.fault then none
  else
    match a with
    | .main => if s.handler = none ∨ s.handler = some .returned then s.mainStep else none
    | .signal => if s.handler = none then some { s with handler := some .unInit } else none
    | .handler => s.handler.bind s.handlerStep
    | .master => s.masterStep
    | .masterBreaks =>
      if s.master = .dispatch ∧ (s.running = false ∨ s.socketDown = true) then some { s with master := .destroy }
      else none
    | .worker i e =>
      if s.started i ∧ e ≠ .uninit then
        (s.workers[i]?.bind (TcpService.step e)).map fun w => { s with workers := s.workers.set i w }
      else none
    | .logic e =>
      if s.main ≠ .runLogic ∧ (e = .run ∨ e = .doProcess) then
        (WorkerRunner.step e s.logic).map fun r => { s with logic := r }
      else none
    | .destroyLogic => if s.logic.pc = .finished then s.destroyLogic else none

theorem refused_iff (s : Process) (i : ℕ) : (Life.step (.started i) (s.life i)).isNone = true ↔ s.Busy i := by
  by_cases hbusy : s.Busy i
  · simp [life, hbusy, Life.step]
  · by_cases hstarted : s.started i = true <;> simp [life, hbusy, hstarted, Life.step]

theorem joins_iff (s : Process) (i : ℕ) :
    (Life.step .joined (s.life i)).isSome = true ↔ s.started i = true ∧ ¬s.Busy i := by
  by_cases hbusy : s.Busy i
  · simp [life, hbusy, Life.step]
  · by_cases hstarted : s.started i = true <;> simp [life, hbusy, hstarted, Life.step]

end Process

/-- The test of `m_MsgHandler` and its use are not mixed with its deletion, though nothing in the source keeps the two
threads apart. -/
def Apart (a : Act) (s : Process) : Prop :=
  match a with
  | .handler => s.handler = some .testHandler → s.tail ≠ .deleted
  | .destroyLogic => s.handler ≠ some .setRunnerShutdown
  | _ => True

instance : (a : Act) → (s : Process) → Decidable (Apart a s)
  | .handler, s => inferInstanceAs (Decidable (s.handler = some .testHandler → s.tail ≠ .deleted))
  | .destroyLogic, s => inferInstanceAs (Decidable (s.handler ≠ some .setRunnerShutdown))
  | .main, _ => .isTrue trivial
  | .signal, _ => .isTrue trivial
  | .master, _ => .isTrue trivial
  | .masterBreaks, _ => .isTrue trivial
  | .worker _ _, _ => .isTrue trivial
  | .logic _, _ => .isTrue trivial

/-- The steps of the interleavings in which they are not mixed. -/
def stepApart (a : Act) (s : Process) : Option Process := if Apart a s then Process.step a s else none

theorem stepApart_eq {a : Act} {s : Process} (h : Apart a s) : stepApart a s = Process.step a s := if_pos h

theorem apart_of_step {a : Act} {s s' : Process} (h : stepApart a s = some s') :
    Apart a s ∧ Process.step a s = some s' := by
  rw [stepApart] at h
  split_ifs at h with hapart
  exact ⟨hapart, h⟩

theorem run_of_apart {as : List Act} {s s' : Process} (h : run stepApart as s = some s') :
    run Process.step as s = some s' := by
  induction as generalizing s with
  | nil => exact h
  | cons a as ih =>
    obtain ⟨t, ht, hrest⟩ := run_cons.mp h
    exact run_cons.mpr ⟨t, (apart_of_step ht).2, ih hrest⟩

/-! ### Before the signal -/

/-- The runner gets to its loop and stays there. -/
structure Lively (r : WorkerRunner) : Prop where
  active : r.m_IsActive = true ↔ r.pc = .enterLoop ∨ r.pc = .loop
  runs : r.pc ≠ .finished
  unbroken : r.pc = .loop → r.eventBreak = false
  msgHandler : r.m_MsgHandler = none → r.pc = .newHandler

theorem Lively.step {r r' : WorkerRunner} {e : RunnerEvent} (hr : Lively r) (he : e = .run ∨ e = .doProcess)
    (h : WorkerRunner.step e r = some r') : Lively r' := by
  obtain ⟨active, interval, msgHandler, broken, pc, asked⟩ := r
  have hactive := hr.active
  have hruns := hr.runs
  have hunbroken := hr.unbroken
  have hhandler := hr.msgHandler
  obtain rfl | rfl := he
  · cases pc <;> simp [WorkerRunner.step, WorkerRunner.runStep, WorkerRunner.checkActive] at h hactive <;>
      subst h <;> (try split_ifs) <;> constructor <;> simp_all
  · cases pc <;> simp [WorkerRunner.step, WorkerRunner.checkActive] at h hactive hunbroken
    subst hactive hunbroken
    simp at h
    subst h
    exact hr

/-- How many workers there are, in the first round of the master's loop. -/
def MasterPc.pushed : MasterPc → ℕ
  | newWorker i => i
  | startWorker _ => WORKERS
  | dispatch => WORKERS
  | _ => 0

/-- How many of them have been started. -/
def MasterPc.begun : MasterPc → ℕ
  | startWorker i => i
  | dispatch => WORKERS
  | _ => 0

/-- What holds before the signal. -/
structure Quiet (s : Process) : Prop where
  fault : s.fault = false
  handler : s.handler = none
  main : s.main = .joinLogic ∨
    s.master = .unstarted ∧ (s.main = .runLogic ∨ s.main = .construct ∨ s.main = .start)
  wrapper : s.main = .joinLogic ∨ s.main = .start → s.wrapper = .alive
  master : s.master ≠ .destroy ∧ s.master ≠ .finished
  running : s.master ≠ .unstarted → s.master ≠ .entry → s.running = true
  socketDown : s.socketDown = false
  pushed : s.workers.length = s.master.pushed
  index : ∀ i, s.master = .newWorker i ∨ s.master = .startWorker i → i < WORKERS
  started : ∀ i, s.started i = true ↔ i < s.master.begun
  logic : Lively s.logic
  tail : s.tail = .run

theorem quiet_start (tv : ℕ) : Quiet (Process.start tv) := by
  constructor <;> simp [Process.start, MasterPc.pushed, MasterPc.begun]
  constructor <;> simp [WorkerRunner.start]

theorem step_iff {a : Act} {s s' : Process} (hs : s.fault = false) (h : Process.step a s = some s') :
    (a = .main ∧ (s.handler = none ∨ s.handler = some .returned) ∧ s.mainStep = some s') ∨
    (a = .signal ∧ s.handler = none ∧ s' = { s with handler := some .unInit }) ∨
    (a = .handler ∧ ∃ pc, s.handler = some pc ∧ s.handlerStep pc = some s') ∨
    (a = .master ∧ s.masterStep = some s') ∨
    (a = .masterBreaks ∧ s.master = .dispatch ∧ (s.running = false ∨ s.socketDown = true) ∧
      s' = { s with master := .destroy }) ∨
    (∃ i e w w', a = .worker i e ∧ s.started i = true ∧ e ≠ .uninit ∧ s.workers[i]? = some w ∧
      TcpService.step e w = some w' ∧ s' = { s with workers := s.workers.set i w' }) ∨
    (∃ e r, a = .logic e ∧ s.main ≠ .runLogic ∧ (e = .run ∨ e = .doProcess) ∧
      WorkerRunner.step e s.logic = some r ∧ s' = { s with logic := r }) ∨
    (a = .destroyLogic ∧ s.logic.pc = .finished ∧ s.destroyLogic = some s') := by
  rw [Process.step.eq_def, if_neg (by simp [hs])] at h
  cases a with
  | main =>
    dsimp only at h
    split_ifs at h with hfree
    exact Or.inl ⟨rfl, hfree, h⟩
  | signal =>
    dsimp only at h
    split_ifs at h with hnone
    exact Or.inr (Or.inl ⟨rfl, hnone, (Option.some.inj h).symm⟩)
  | handler =>
    obtain ⟨pc, hpc, hstep⟩ := Option.bind_eq_some_iff.mp h
    exact Or.inr (Or.inr (Or.inl ⟨rfl, pc, hpc, hstep⟩))
  | master => exact Or.inr (Or.inr (Or.inr (Or.inl ⟨rfl, h⟩)))
  | masterBreaks =>
    dsimp only at h
    split_ifs at h with hbreaks
    exact Or.inr (Or.inr (Or.inr (Or.inr (Or.inl ⟨rfl, hbreaks.1, hbreaks.2, (Option.some.inj h).symm⟩))))
  | worker i e =>
    dsimp only at h
    split_ifs at h with hstarted
    obtain ⟨w', hw', rfl⟩ := Option.map_eq_some_iff.mp h
    obtain ⟨w, hw, hstep⟩ := Option.bind_eq_some_iff.mp hw'
    exact Or.inr (Or.inr (Or.inr (Or.inr (Or.inr (Or.inl ⟨i, e, w, w', rfl, hstarted.1, hstarted.2, hw, hstep, rfl⟩)))))
  | logic e =>
    dsimp only at h
    split_ifs at h with hruns
    obtain ⟨r, hr, rfl⟩ := Option.map_eq_some_iff.mp h
    exact Or.inr (Or.inr (Or.inr (Or.inr (Or.inr (Or.inr (Or.inl ⟨e, r, rfl, hruns.1, hruns.2, hr, rfl⟩))))))
  | destroyLogic =>
    dsimp only at h
    split_ifs at h with hfinished
    exact Or.inr (Or.inr (Or.inr (Or.inr (Or.inr (Or.inr (Or.inr ⟨rfl, hfinished, h⟩))))))

theorem Quiet.mainStep {s s' : Process} (hs : Quiet s) (h : s.mainStep = some s') : Quiet s' := by
  obtain hmain | ⟨hmaster, hmain | hmain | hmain⟩ := hs.main
  · rw [Process.mainStep, hmain] at h
    dsimp only at h
    rw [if_neg (by simp [hs.tail])] at h
    cases h
  all_goals
    rw [Process.mainStep, hmain] at h
    obtain rfl := Option.some.inj h
    have hpushed := hs.pushed
    have hstarted := hs.started
    rw [hmaster] at hpushed hstarted
  · exact ⟨hs.fault, hs.handler, Or.inr ⟨hmaster, by simp⟩, by simp, hs.master, hs.running, hs.socketDown, hs.pushed,
      hs.index, hs.started, hs.logic, hs.tail⟩
  · exact ⟨hs.fault, hs.handler, Or.inr ⟨hmaster, by simp⟩, by simp, hs.master, hs.running, hs.socketDown, hs.pushed,
      hs.index, hs.started, hs.logic, hs.tail⟩
  · exact ⟨hs.fault, hs.handler, Or.inl rfl, fun _ => hs.wrapper (Or.inr hmain), by simp, by simp, hs.socketDown,
      hpushed, by simp, hstarted, hs.logic, hs.tail⟩

theorem Quiet.masterStep {s s' : Process} (hs : Quiet s) (h : s.masterStep = some s') : Quiet s' := by
  have hmain (hne : s.master ≠ .unstarted) : s.main = .joinLogic := hs.main.resolve_right fun hm => hne hm.1
  have hpushed := hs.pushed
  have hstarted := hs.started
  have hindex := hs.index
  cases hmaster : s.master with
  | unstarted => simp [Process.masterStep, hmaster] at h
  | dispatch => simp [Process.masterStep, hmaster] at h
  | destroy => exact absurd hmaster hs.master.1
  | finished => exact absurd hmaster hs.master.2
  | entry =>
    rw [Process.masterStep, hmaster] at h
    obtain rfl := Option.some.inj h
    rw [hmaster] at hpushed hstarted
    exact ⟨hs.fault, hs.handler, Or.inl (hmain (by simp [hmaster])), hs.wrapper, by simp, by simp, hs.socketDown,
      hpushed, by simp, hstarted, hs.logic, hs.tail⟩
  | check =>
    have hrunning := hs.running (by simp [hmaster]) (by simp [hmaster])
    rw [Process.masterStep, hmaster] at h
    obtain rfl := Option.some.inj h
    rw [hmaster] at hpushed hstarted
    simp only [hrunning, if_true]
    exact ⟨hs.fault, hs.handler, Or.inl (hmain (by simp [hmaster])), hs.wrapper, by simp, fun _ _ => rfl,
      hs.socketDown, hpushed, by simp [WORKERS], hstarted, hs.logic, hs.tail⟩
  | newWorker i =>
    have hrunning := hs.running (by simp [hmaster]) (by simp [hmaster])
    have hi := hindex i (Or.inl hmaster)
    rw [Process.masterStep, hmaster] at h
    obtain rfl := Option.some.inj h
    rw [hmaster] at hpushed hstarted
    have hlen : (s.workers ++ [TcpService.start]).length = i + 1 := by simpa [MasterPc.pushed] using hpushed
    by_cases hlast : i + 1 < WORKERS
    · simp only [hlast, if_true]
      exact ⟨hs.fault, hs.handler, Or.inl (hmain (by simp [hmaster])), hs.wrapper, by simp, fun _ _ => hrunning,
        hs.socketDown, hlen, by simp [hlast], hstarted, hs.logic, hs.tail⟩
    · have hall : i + 1 = WORKERS := by omega
      simp only [hlast, if_false]
      exact ⟨hs.fault, hs.handler, Or.inl (hmain (by simp [hmaster])), hs.wrapper, by simp, fun _ _ => hrunning,
        hs.socketDown, hlen.trans hall, by simp [WORKERS], hstarted, hs.logic, hs.tail⟩
  | startWorker i =>
    have hrunning := hs.running (by simp [hmaster]) (by simp [hmaster])
    have hi := hindex i (Or.inr hmaster)
    rw [hmaster] at hpushed hstarted
    have hidle : ¬s.Busy i := fun hbusy => lt_irrefl i ((hstarted i).mp hbusy.1)
    rw [Process.masterStep, hmaster] at h
    dsimp only at h
    rw [if_neg (mt (s.refused_iff i).mp hidle)] at h
    obtain rfl := Option.some.inj h
    have hlen : (s.workers.modify i fun w => { w with pc := .entry }).length = WORKERS := by
      rw [List.length_modify]
      exact hpushed
    have hnext : ∀ j, Function.update s.started i true j = true ↔ j < i + 1 := by
      intro j
      by_cases hj : j = i
      · simp [hj]
      · rw [Function.update_of_ne hj, hstarted j]
        simp only [MasterPc.begun]
        omega
    by_cases hlast : i + 1 < WORKERS
    · simp only [hlast, if_true]
      exact ⟨hs.fault, hs.handler, Or.inl (hmain (by simp [hmaster])), hs.wrapper, by simp, fun _ _ => hrunning,
        hs.socketDown, hlen, by simp [hlast], hnext, hs.logic, hs.tail⟩
    · have hall : i + 1 = WORKERS := by omega
      simp only [hlast, if_false]
      exact ⟨hs.fault, hs.handler, Or.inl (hmain (by simp [hmaster])), hs.wrapper, by simp, fun _ _ => hrunning,
        hs.socketDown, hlen, by simp, fun j => (hnext j).trans (by rw [hall]; rfl), hs.logic, hs.tail⟩

theorem Quiet.step {a : Act} {s s' : Process} (hs : Quiet s) (ha : a ≠ .signal) (h : Process.step a s = some s') :
    Quiet s' := by
  obtain ⟨_, _, h⟩ | ⟨rfl, _⟩ | ⟨_, pc, hpc, _⟩ | ⟨_, h⟩ | ⟨_, hmaster, hbreaks, _⟩
    | ⟨i, e, w, w', _, _, _, _, _, rfl⟩ | ⟨e, r, _, _, he, hr, rfl⟩ | ⟨_, hfinished, _⟩ := step_iff hs.fault h
  · exact hs.mainStep h
  · exact absurd rfl ha
  · simp [hs.handler] at hpc
  · exact hs.masterStep h
  · obtain hrunning | hdown := hbreaks
    · simp [hs.running (by simp [hmaster]) (by simp [hmaster])] at hrunning
    · simp [hs.socketDown] at hdown
  · exact { hs with pushed := (List.length_set ..).trans hs.pushed }
  · exact { hs with logic := hs.logic.step he hr }
  · exact absurd hfinished hs.logic.runs

/-- A worker is past the beginning of `run`. -/
def BegunAt (s : Process) (i : ℕ) : Prop :=
  s.started i = true ∧ ∃ w, s.workers[i]? = some w ∧ w.pc ≠ .entry

/-- All flags of the loops are up, that of the logic too. -/
def Begun (s : Process) : Prop := (∀ i < WORKERS, BegunAt s i) ∧ s.logic.m_IsActive = true

theorem Quiet.master_of_begun {s : Process} (hs : Quiet s) (hb : Begun s) : s.master = .dispatch := by
  have hlast : WORKERS - 1 < s.master.begun := (hs.started _).mp (hb.1 _ (by simp [WORKERS])).1
  cases hmaster : s.master with
  | dispatch => rfl
  | startWorker i =>
    have hi := hs.index i (Or.inr hmaster)
    rw [hmaster, MasterPc.begun] at hlast
    omega
  | _ => simp [hmaster, MasterPc.begun] at hlast

/-! ### After the signal -/

namespace HandlerPc

/-- The flag of the master server is down. -/
def asked : HandlerPc → Bool
  | unInit => false
  | stopMaster => false
  | _ => true

/-- So many workers have been asked to stop. -/
def stopped : HandlerPc → ℕ
  | unInit => 0
  | stopMaster => 0
  | shutdownSocket => 0
  | stopWorker i => i
  | joinWorker i => i + 1
  | _ => WORKERS

/-- So many have been joined. -/
def joined : HandlerPc → ℕ
  | unInit => 0
  | stopMaster => 0
  | shutdownSocket => 0
  | stopWorker i => i
  | joinWorker i => i
  | _ => WORKERS

def stoppedLogic : HandlerPc → Bool
  | testHandler => true
  | setRunnerShutdown => true
  | returned => true
  | _ => false

end HandlerPc

/-- What holds of a worker that has begun. -/
structure Stopping (pc : HandlerPc) (workers : List TcpService) (i : ℕ) (w : TcpService) : Prop where
  found : workers[i]? = some w
  begun : w.pc ≠ .entry
  stopped : i < pc.stopped → w.running = false
  joined : i < pc.joined → w.pc = .finished

/-- What holds after a signal behind the beginning of all loops. -/
structure Calm (pc : HandlerPc) (s : Process) : Prop where
  fault : s.fault = false
  handler : s.handler = some pc
  wrapper : s.main ≠ .exited → s.wrapper = .alive
  main : s.main = .joinLogic ∨ pc = .returned ∧ (s.main = .joinTcp ∨ s.main = .delete ∨ s.main = .exited)
  before : pc.asked = false → s.running = true ∧ s.socketDown = false
  after : pc.asked = true → s.running = false
  master : s.master = .dispatch ∨
    pc.asked = true ∧ (s.master = .destroy ∨ s.master = .check ∨ s.master = .finished)
  index : ∀ i, pc = .stopWorker i ∨ pc = .joinWorker i → i < WORKERS
  workers : ∀ i < WORKERS, s.started i = true ∧ ∃ w, Stopping pc s.workers i w
  logic : s.logic.pc = .enterLoop ∨ s.logic.pc = .loop ∨ s.logic.pc = .finished
  inactive : pc.stoppedLogic = true → s.logic.m_IsActive = false
  tail : s.tail ≠ .run → s.logic.pc = .finished
  used : pc = .setRunnerShutdown → s.tail = .run

theorem Quiet.calm {s : Process} (hs : Quiet s) (hb : Begun s) :
    Calm .unInit { s with handler := some .unInit } := by
  have hmaster := hs.master_of_begun hb
  have hmain : s.main = .joinLogic := hs.main.resolve_right fun hm => by simp [hm.1] at hmaster
  refine ⟨hs.fault, rfl, fun _ => hs.wrapper (Or.inl hmain), Or.inl hmain, fun _ => ⟨?_, hs.socketDown⟩, nofun,
    Or.inl hmaster, fun i h => ?_, fun i hi => ?_, ?_, nofun, fun htail => absurd hs.tail htail, nofun⟩
  · exact hs.running (by simp [hmaster]) (by simp [hmaster])
  · simp at h
  · obtain ⟨hstarted, w, hw, hpc⟩ := hb.1 i hi
    exact ⟨hstarted, w, hw, hpc, nofun, nofun⟩
  · obtain hpc | hpc := hs.logic.active.mp hb.2
    · exact Or.inl hpc
    · exact Or.inr (Or.inl hpc)

/-- A worker that has begun does not begin again on its own, and does not raise its flag. -/
theorem service_step {e : ServiceEvent} {w w' : TcpService} (he : e ≠ .uninit) (hw : w.pc ≠ .entry)
    (h : TcpService.step e w = some w') : w'.pc ≠ .entry ∧ w'.running = w.running ∧ w.pc ≠ .finished := by
  obtain ⟨running, pc, asked⟩ := w
  cases e with
  | uninit => exact absurd rfl he
  | run => cases pc <;> cases running <;> simp [TcpService.step, TcpService.runStep] at h hw ⊢ <;> simp [← h]
  | onOpCheck => cases pc <;> cases running <;> simp [TcpService.step] at h hw ⊢ <;> simp [← h]
  | dispatchReturns =>
    cases pc <;> simp [TcpService.step] at h hw ⊢
    simp [← h]

theorem Calm.worker {pc : HandlerPc} {s : Process} (hs : Calm pc s) {i : ℕ} {e : ServiceEvent} {w w' : TcpService}
    (he : e ≠ .uninit) (hi : s.workers[i]? = some w) (h : TcpService.step e w = some w') :
    Calm pc { s with workers := s.workers.set i w' } := by
  have hlt : i < s.workers.length := (List.getElem?_eq_some_iff.mp hi).1
  refine { hs with workers := fun j hj => ?_ }
  obtain ⟨hstarted, v, hv⟩ := hs.workers j hj
  by_cases hij : j = i
  · subst hij
    obtain rfl : v = w := Option.some.inj (hv.found.symm.trans hi)
    obtain ⟨hbegun, hrunning, hrest⟩ := service_step he hv.begun h
    have hfound : (s.workers.set j w')[j]? = some w' := by simp [hlt]
    exact ⟨hstarted, w', hfound, hbegun, fun hstop => hrunning.trans (hv.stopped hstop),
      fun hjoin => absurd (hv.joined hjoin) hrest⟩
  · have hfound : (s.workers.set i w')[j]? = some v := by
      rw [List.getElem?_set_ne (Ne.symm hij)]
      exact hv.found
    exact ⟨hstarted, v, hfound, hv.begun, hv.stopped, hv.joined⟩

theorem runner_step {e : RunnerEvent} {r r' : WorkerRunner} (he : e = .run ∨ e = .doProcess)
    (hr : r.pc = .enterLoop ∨ r.pc = .loop ∨ r.pc = .finished) (h : WorkerRunner.step e r = some r') :
    (r'.pc = .enterLoop ∨ r'.pc = .loop ∨ r'.pc = .finished) ∧ r'.m_IsActive = r.m_IsActive ∧ r.pc ≠ .finished := by
  obtain ⟨active, interval, msgHandler, broken, pc, asked⟩ := r
  obtain rfl | rfl := he
  · obtain rfl | rfl | rfl := hr
    · obtain rfl := Option.some.inj h
      exact ⟨Or.inr (Or.inl rfl), rfl, nofun⟩
    · cases h
    · cases h
  · obtain rfl | rfl | rfl := hr
    · cases h
    · cases active <;> cases broken <;> simp [WorkerRunner.step, WorkerRunner.checkActive] at h <;> subst h <;> simp
    · cases h

theorem Calm.not_busy {pc : HandlerPc} {s : Process} (hs : Calm pc s) {i : ℕ} (hi : i < WORKERS)
    (hjoined : i < pc.joined) : ¬s.Busy i := by
  obtain ⟨_, w, hw⟩ := hs.workers i hi
  intro hbusy
  exact hbusy.2 (by rw [hw.found, Option.map_some, hw.joined hjoined])

theorem Calm.mainStep {s s' : Process} (hs : Calm .returned s) (h : s.mainStep = some s') : Calm .returned s' := by
  obtain hmain | ⟨_, hmain | hmain | hmain⟩ := hs.main
  · rw [Process.mainStep, hmain] at h
    dsimp only at h
    split_ifs at h
    obtain rfl := Option.some.inj h
    exact { hs with main := Or.inr ⟨rfl, Or.inl rfl⟩, wrapper := fun _ => hs.wrapper (by simp [hmain]) }
  · rw [Process.mainStep, hmain] at h
    dsimp only at h
    split_ifs at h
    obtain rfl := Option.some.inj h
    exact { hs with
      main := Or.inr ⟨rfl, Or.inr (Or.inl rfl)⟩
      wrapper := fun _ => hs.wrapper (by simp [hmain]) }
  · have hidle : ¬∃ i < WORKERS, s.Busy i := fun ⟨i, hi, hbusy⟩ => hs.not_busy hi hi hbusy
    rw [Process.mainStep, hmain] at h
    obtain rfl := Option.some.inj h
    exact { hs with
      fault := decide_eq_false hidle
      main := Or.inr ⟨rfl, Or.inr (Or.inr rfl)⟩
      wrapper := fun hne => absurd rfl hne }
  · rw [Process.mainStep, hmain] at h
    cases h

theorem Calm.masterStep {pc : HandlerPc} {s s' : Process} (hs : Calm pc s) (h : s.masterStep = some s') :
    Calm pc s' := by
  obtain hmaster | ⟨hasked, hmaster | hmaster | hmaster⟩ := hs.master
  · simp [Process.masterStep, hmaster] at h
  · rw [Process.masterStep, hmaster] at h
    obtain rfl := Option.some.inj h
    exact { hs with master := Or.inr ⟨hasked, Or.inr (Or.inl rfl)⟩ }
  · rw [Process.masterStep, hmaster] at h
    obtain rfl := Option.some.inj h
    have hfinished : (if s.running then MasterPc.newWorker 0 else .finished) = .finished := by simp [hs.after hasked]
    rw [hfinished]
    exact { hs with master := Or.inr ⟨hasked, Or.inr (Or.inr rfl)⟩ }
  · simp [Process.masterStep, hmaster] at h

/-- The handler goes on. -/
theorem Calm.goto {pc pc' : HandlerPc} {s : Process} (hs : Calm pc s) (hpc : pc ≠ .returned) {running down : Bool}
    {r : WorkerRunner} {ws : List TcpService}
    (hbefore : pc'.asked = false → running = true ∧ down = false) (hafter : pc'.asked = true → running = false)
    (hasked : pc.asked = true → pc'.asked = true)
    (hindex : ∀ i, pc' = .stopWorker i ∨ pc' = .joinWorker i → i < WORKERS)
    (hworkers : ∀ i < WORKERS, ∀ w, Stopping pc s.workers i w → ∃ w', Stopping pc' ws i w')
    (hlogic : r.pc = s.logic.pc) (hinactive : pc'.stoppedLogic = true → r.m_IsActive = false)
    (hused : pc' = .setRunnerShutdown → s.tail = .run) :
    Calm pc' { s with handler := some pc', running := running, socketDown := down, logic := r, workers := ws } where
  fault := hs.fault
  handler := rfl
  wrapper := hs.wrapper
  main := Or.inl (hs.main.resolve_right fun hm => hpc hm.1)
  before := hbefore
  after := hafter
  master := hs.master.imp_right fun h => ⟨hasked h.1, h.2⟩
  index := hindex
  workers i hi := by
    obtain ⟨hstarted, w, hw⟩ := hs.workers i hi
    exact ⟨hstarted, hworkers i hi w hw⟩
  logic := by
    show r.pc = _ ∨ r.pc = _ ∨ r.pc = _
    rw [hlogic]
    exact hs.logic
  inactive := hinactive
  tail htail := hlogic.trans (hs.tail htail)
  used := hused

/-- A worker that the handler has stopped or joined by then stays as it is. -/
theorem Stopping.mono {pc pc' : HandlerPc} {ws : List TcpService} {i : ℕ} {w : TcpService}
    (hw : Stopping pc ws i w) (hstopped : i < pc'.stopped → i < pc.stopped) (hjoined : i < pc'.joined → i < pc.joined) :
    ∃ w', Stopping pc' ws i w' :=
  ⟨w, hw.found, hw.begun, fun h => hw.stopped (hstopped h), fun h => hw.joined (hjoined h)⟩

theorem handlerStep_stopWorker {s : Process} {i : ℕ} {w : TcpService} (h : s.workers[i]? = some w) :
    s.handlerStep (.stopWorker i) = some { s with
      handler := some (.joinWorker i)
      workers := s.workers.set i { w with running := false, asked := true } } := by
  simp [Process.handlerStep, h, TcpService.step]

theorem Calm.stopWorker {s s' : Process} {i : ℕ} (hs : Calm (.stopWorker i) s)
    (h : s.handlerStep (.stopWorker i) = some s') : Calm (.joinWorker i) s' := by
  obtain ⟨_, w, hw⟩ := hs.workers i (hs.index i (Or.inl rfl))
  have hlt : i < s.workers.length := (List.getElem?_eq_some_iff.mp hw.found).1
  rw [handlerStep_stopWorker hw.found] at h
  obtain rfl := Option.some.inj h
  refine hs.goto (by simp) (fun h => by cases h) (fun _ => hs.after rfl) (fun _ => rfl) ?_ (fun j hj v hv => ?_) rfl
    (fun h => by cases h) nofun
  · rintro j (hj | hj)
    · cases hj
    · obtain rfl := HandlerPc.joinWorker.inj hj
      exact hs.index i (Or.inl rfl)
  · by_cases hij : j = i
    · subst hij
      exact ⟨{ w with running := false, asked := true }, by simp [hlt], hw.begun, fun _ => rfl,
        fun hlt => absurd hlt (lt_irrefl j)⟩
    · have hfound : (s.workers.set i { w with running := false, asked := true })[j]? = some v := by
        rw [List.getElem?_set_ne (Ne.symm hij)]
        exact hv.found
      refine ⟨v, hfound, hv.begun, fun hstop => hv.stopped ?_, hv.joined⟩
      have hle : j < i + 1 := hstop
      show j < i
      omega

theorem Calm.joinWorker {s s' : Process} {i : ℕ} (hs : Calm (.joinWorker i) s)
    (h : s.handlerStep (.joinWorker i) = some s') : ∃ pc', Calm pc' s' := by
  have hi := hs.index i (Or.inr rfl)
  have hdone : s.started i = true ∧ ¬s.Busy i := by
    by_contra hdone
    rw [Process.handlerStep, if_neg (mt (s.joins_iff i).mp hdone)] at h
    cases h
  rw [Process.handlerStep, if_pos ((s.joins_iff i).mpr hdone)] at h
  obtain rfl := Option.some.inj h
  obtain ⟨hstarted, w, hw⟩ := hs.workers i hi
  have hfinished : w.pc = .finished := by
    by_contra hne
    exact hdone.2 ⟨hstarted, by simpa [hw.found] using hne⟩
  have hnext {pc' : HandlerPc} (hasked : pc'.asked = true) (hstopped : pc'.stopped ≤ i + 1)
      (hjoined : pc'.joined ≤ i + 1) (hindex : ∀ j, pc' = .stopWorker j ∨ pc' = .joinWorker j → j < WORKERS)
      (hlogic : pc'.stoppedLogic = false) : Calm pc' { s with handler := some pc' } := by
    refine hs.goto nofun (fun h => by simp [hasked] at h) (fun _ => hs.after rfl) (fun _ => hasked) hindex
      (fun j hj v hv => ?_) rfl (fun h => by simp [hlogic] at h) fun h => by simp [h, HandlerPc.stoppedLogic] at hlogic
    refine ⟨v, hv.found, hv.begun, fun hstop => hv.stopped (lt_of_lt_of_le hstop hstopped), fun hjoin => ?_⟩
    by_cases hij : j = i
    · subst hij
      obtain rfl : v = w := Option.some.inj (hv.found.symm.trans hw.found)
      exact hfinished
    · have hle := lt_of_lt_of_le hjoin hjoined
      exact hv.joined (by show j < i; omega)
  by_cases hlast : i + 1 < WORKERS
  · rw [if_pos hlast]
    refine ⟨_, hnext rfl le_rfl le_rfl ?_ rfl⟩
    rintro j (hj | hj)
    · obtain rfl := HandlerPc.stopWorker.inj hj
      exact hlast
    · cases hj
  · have hall : WORKERS ≤ i + 1 := not_lt.mp hlast
    rw [if_neg hlast]
    exact ⟨_, hnext rfl hall hall (by simp) rfl⟩

theorem Calm.handlerStep {pc : HandlerPc} {s s' : Process} (hs : Calm pc s) (hapart : Apart .handler s)
    (h : s.handlerStep pc = some s') : ∃ pc', Calm pc' s' := by
  cases pc with
  | unInit =>
    obtain rfl := Option.some.inj h
    have hmain : s.main = .joinLogic := hs.main.resolve_right fun hm => by cases hm.1
    have hwrapper := hs.wrapper (by simp [hmain])
    have hnext : Calm .stopMaster { s with handler := some .stopMaster } :=
      hs.goto nofun (fun _ => hs.before rfl) nofun nofun (by simp) (fun i _ w hw => hw.mono nofun nofun) rfl nofun nofun
    exact ⟨.stopMaster, { hnext with fault := by simp [hwrapper] }⟩
  | stopMaster =>
    obtain rfl := Option.some.inj h
    exact ⟨.shutdownSocket, hs.goto nofun nofun (fun _ => rfl) nofun (by simp)
      (fun i _ w hw => hw.mono nofun nofun) rfl nofun nofun⟩
  | shutdownSocket =>
    obtain rfl := Option.some.inj h
    exact ⟨.stopWorker 0, hs.goto nofun nofun (fun _ => hs.after rfl) (fun _ => rfl) (by simp [WORKERS])
      (fun i _ w hw => hw.mono id id) rfl nofun nofun⟩
  | stopWorker i => exact ⟨_, hs.stopWorker h⟩
  | joinWorker i => exact hs.joinWorker h
  | stopLogic =>
    obtain rfl := Option.some.inj h
    exact ⟨.testHandler, hs.goto nofun nofun (fun _ => hs.after rfl) (fun _ => rfl) (by simp)
      (fun i _ w hw => hw.mono id id) rfl (fun _ => rfl) nofun⟩
  | testHandler =>
    obtain rfl := Option.some.inj h
    have hdeleted : s.tail ≠ .deleted := hapart hs.handler
    split_ifs with hthere
    · have htail : s.tail = .run := by
        cases htail : s.tail with
        | run => rfl
        | deleted => exact absurd htail hdeleted
        | ended => exact absurd htail hthere.2
      exact ⟨.setRunnerShutdown, hs.goto nofun nofun (fun _ => hs.after rfl) (fun _ => rfl) (by simp)
        (fun i _ w hw => hw.mono id id) rfl (fun _ => hs.inactive rfl) fun _ => htail⟩
    · exact ⟨.returned, hs.goto nofun nofun (fun _ => hs.after rfl) (fun _ => rfl) (by simp)
        (fun i _ w hw => hw.mono id id) rfl (fun _ => hs.inactive rfl) nofun⟩
  | setRunnerShutdown =>
    rw [Process.handlerStep, if_neg (not_not.mpr (hs.used rfl))] at h
    obtain rfl := Option.some.inj h
    exact ⟨.returned, hs.goto nofun nofun (fun _ => hs.after rfl) (fun _ => rfl) (by simp)
      (fun i _ w hw => hw.mono id id) rfl (fun _ => hs.inactive rfl) nofun⟩
  | returned => cases h

theorem Calm.destroyLogic {pc : HandlerPc} {s s' : Process} (hs : Calm pc s) (hapart : Apart .destroyLogic s)
    (hfinished : s.logic.pc = .finished) (h : s.destroyLogic = some s') : Calm pc s' := by
  have hunused : pc ≠ .setRunnerShutdown := fun hpc => hapart (hpc ▸ hs.handler)
  cases htail : s.tail with
  | run =>
    rw [Process.destroyLogic, htail] at h
    obtain rfl := Option.some.inj h
    exact { hs with tail := fun _ => hfinished, used := fun hpc => absurd hpc hunused }
  | deleted =>
    rw [Process.destroyLogic, htail] at h
    obtain rfl := Option.some.inj h
    exact { hs with tail := fun _ => hfinished, used := fun hpc => absurd hpc hunused }
  | ended =>
    rw [Process.destroyLogic, htail] at h
    cases h

theorem Calm.step {pc : HandlerPc} {a : Act} {s s' : Process} (hs : Calm pc s) (h : stepApart a s = some s') :
    ∃ pc', Calm pc' s' ∧ (pc = .returned → pc' = .returned) := by
  obtain ⟨hapart, h⟩ := apart_of_step h
  obtain ⟨_, hfree, h⟩ | ⟨_, hnone, _⟩ | ⟨rfl, pc', hpc, h⟩ | ⟨_, h⟩ | ⟨_, hmaster, hbreaks, rfl⟩
    | ⟨i, e, w, w', _, _, he, hw, hstep, rfl⟩ | ⟨e, r, _, _, he, hr, rfl⟩ | ⟨rfl, hfinished, h⟩ := step_iff hs.fault h
  · obtain rfl : pc = .returned := by simpa [hs.handler] using hfree
    exact ⟨_, hs.mainStep h, id⟩
  · simp [hs.handler] at hnone
  · obtain rfl : pc = pc' := Option.some.inj (hs.handler.symm.trans hpc)
    obtain ⟨pc', hs'⟩ := hs.handlerStep hapart h
    refine ⟨pc', hs', fun hpc => ?_⟩
    subst hpc
    cases h
  · exact ⟨pc, hs.masterStep h, id⟩
  · have hasked : pc.asked = true := by
      by_contra hasked
      have hbefore := hs.before (by simpa using hasked)
      simp [hbefore.1, hbefore.2] at hbreaks
    exact ⟨pc, { hs with master := Or.inr ⟨hasked, Or.inl rfl⟩ }, id⟩
  · exact ⟨pc, hs.worker he hw hstep, id⟩
  · obtain ⟨hlogic, hactive, hrest⟩ := runner_step he hs.logic hr
    exact ⟨pc, { hs with
      logic := hlogic
      inactive := fun h => hactive.trans (hs.inactive h)
      tail := fun htail => absurd (hs.tail htail) hrest }, id⟩
  · exact ⟨pc, hs.destroyLogic hapart hfinished h, id⟩

theorem Calm.run {pc : HandlerPc} {as : List Act} {s s' : Process} (hs : Calm pc s)
    (h : Transition.run stepApart as s = some s') : ∃ pc', Calm pc' s' :=
  run_preserves (I := fun s => ∃ pc, Calm pc s) (fun _ _ _ ⟨_, hs⟩ ht => (hs.step ht).imp fun _ h => h.1) ⟨pc, hs⟩ h

theorem Calm.stays {as : List Act} {s s' : Process} (hs : Calm .returned s)
    (h : Transition.run stepApart as s = some s') : Calm .returned s' := by
  refine run_preserves (I := Calm .returned) (fun a s t hs ht => ?_) hs h
  obtain ⟨pc', ht', hpc⟩ := hs.step ht
  exact hpc rfl ▸ ht'

/-! ### The way to the end -/

theorem run_worker {es : List ServiceEvent} {s : Process} {i : ℕ} {w w' : TcpService} (hs : s.fault = false)
    (hstarted : s.started i = true) (hw : s.workers[i]? = some w) (hes : .uninit ∉ es)
    (h : Transition.run TcpService.step es w = some w') :
    Transition.run stepApart (es.map (.worker i)) s = some { s with workers := s.workers.set i w' } := by
  have hlt : i < s.workers.length := (List.getElem?_eq_some_iff.mp hw).1
  induction es generalizing s w with
  | nil =>
    obtain rfl : w = w' := Option.some.inj h
    have hsame : s.workers.set i w = s.workers := by
      rw [← (List.getElem?_eq_some_iff.mp hw).2, List.set_getElem_self]
    rw [List.map_nil, Transition.run, hsame]
  | cons e es ih =>
    obtain ⟨v, hv, hrest⟩ := run_cons.mp h
    obtain ⟨he, hes⟩ : e ≠ .uninit ∧ .uninit ∉ es := by
      simp only [List.mem_cons, not_or] at hes
      exact ⟨fun he => hes.1 he.symm, hes.2⟩
    have hstep : stepApart (.worker i e) s = some { s with workers := s.workers.set i v } := by
      rw [stepApart_eq (a := .worker i e) trivial, Process.step.eq_def, if_neg (by simp [hs])]
      simp [hstarted, he, hw, hv]
    rw [List.map_cons]
    refine run_cons.mpr ⟨_, hstep, ?_⟩
    have hnext := ih (s := { s with workers := s.workers.set i v }) hs hstarted (by simp [hlt]) hes hrest
      (by simpa using hlt)
    simpa using hnext

theorem uninit_not_mem_exitEvents (pc : ServicePc) : .uninit ∉ TcpService.exitEvents pc := by
  cases pc <;> simp [TcpService.exitEvents]

/-- How far it is to the end of the handler. -/
def HandlerPc.rank : HandlerPc → ℕ
  | unInit => 2 * WORKERS + 6
  | stopMaster => 2 * WORKERS + 5
  | shutdownSocket => 2 * WORKERS + 4
  | stopWorker i => 2 * (WORKERS - i) + 3
  | joinWorker i => 2 * (WORKERS - i) + 2
  | stopLogic => 3
  | testHandler => 2
  | setRunnerShutdown => 1
  | returned => 0

theorem run_handler {s t : Process} {pc : HandlerPc} (hfault : s.fault = false) (hpc : s.handler = some pc)
    (hapart : Apart .handler s) (h : s.handlerStep pc = some t) : Transition.run stepApart [.handler] s = some t := by
  refine run_cons.mpr ⟨t, ?_, rfl⟩
  rw [stepApart_eq hapart, Process.step.eq_def, if_neg (by simp [hfault])]
  simp [hpc, h]

theorem apart_handler {s : Process} {pc : HandlerPc} (hpc : s.handler = some pc) (hne : pc ≠ .testHandler) :
    Apart .handler s :=
  fun htest => absurd (Option.some.inj (hpc.symm.trans htest)) hne

/-- The handler gets past its wait for a worker that has begun and is asked to stop. -/
theorem run_joinWorker {s : Process} {i : ℕ} {w : TcpService} (hfault : s.fault = false)
    (hpc : s.handler = some (.joinWorker i)) (hstarted : s.started i = true) (hw : s.workers[i]? = some w)
    (hdown : w.running = false) (hbegun : w.pc ≠ .entry) :
    ∃ as, Transition.run stepApart as s = some { s with
      workers := s.workers.set i { w with pc := .finished }
      handler := some (if i + 1 < WORKERS then .stopWorker (i + 1) else .stopLogic) } := by
  have hlt : i < s.workers.length := (List.getElem?_eq_some_iff.mp hw).1
  have hexits := run_worker hfault hstarted hw (uninit_not_mem_exitEvents w.pc) (TcpService.exits hdown hbegun)
  have hdone : s.started i = true
      ∧ ¬Process.Busy { s with workers := s.workers.set i { w with pc := .finished } } i := by
    refine ⟨hstarted, fun hbusy => hbusy.2 ?_⟩
    simp [hlt]
  have hjoin : Process.handlerStep { s with workers := s.workers.set i { w with pc := .finished } } (.joinWorker i)
      = some { s with
        workers := s.workers.set i { w with pc := .finished }
        handler := some (if i + 1 < WORKERS then .stopWorker (i + 1) else .stopLogic) } := by
    rw [Process.handlerStep, if_pos ((Process.joins_iff ..).mpr hdone)]
  exact ⟨_, run_append hexits (run_handler hfault hpc (apart_handler hpc nofun) hjoin)⟩

theorem run_destroyLogic {s t : Process} (hfault : s.fault = false) (hapart : s.handler ≠ some .setRunnerShutdown)
    (hfinished : s.logic.pc = .finished) (h : s.destroyLogic = some t) :
    Transition.run stepApart [.destroyLogic] s = some t := by
  refine run_cons.mpr ⟨t, ?_, rfl⟩
  rw [stepApart_eq (a := .destroyLogic) hapart, Process.step.eq_def, if_neg (by simp [hfault])]
  simp [hfinished, h]

theorem Calm.handler_goes {pc : HandlerPc} {s : Process} (hs : Calm pc s) (hpc : pc ≠ .returned) :
    ∃ as s' pc', Transition.run stepApart as s = some s' ∧ s'.handler = some pc' ∧ pc'.rank < pc.rank := by
  have hone {s' : Process} (hne : pc ≠ .testHandler) (h : s.handlerStep pc = some s') :
      Transition.run stepApart [.handler] s = some s' :=
    run_handler hs.fault hs.handler (apart_handler hs.handler hne) h
  cases pc with
  | unInit => exact ⟨[.handler], _, _, hone nofun rfl, rfl, by simp [HandlerPc.rank]⟩
  | stopMaster => exact ⟨[.handler], _, _, hone nofun rfl, rfl, by simp [HandlerPc.rank]⟩
  | shutdownSocket => exact ⟨[.handler], _, _, hone nofun rfl, rfl, by simp [HandlerPc.rank]⟩
  | stopWorker i =>
    obtain ⟨_, w, hw⟩ := hs.workers i (hs.index i (Or.inl rfl))
    exact ⟨[.handler], _, _, hone nofun (handlerStep_stopWorker hw.found), rfl, by simp [HandlerPc.rank]⟩
  | joinWorker i =>
    have hi := hs.index i (Or.inr rfl)
    obtain ⟨hstarted, w, hw⟩ := hs.workers i hi
    have hdown : w.running = false := hw.stopped (Nat.lt_succ_self i)
    obtain ⟨as, hjoined⟩ := run_joinWorker hs.fault hs.handler hstarted hw.found hdown hw.begun
    refine ⟨as, _, _, hjoined, rfl, ?_⟩
    split_ifs with hlast
    · simp only [HandlerPc.rank]
      omega
    · simp only [HandlerPc.rank]
      omega
  | stopLogic => exact ⟨[.handler], _, _, hone nofun rfl, rfl, by simp [HandlerPc.rank]⟩
  | testHandler =>
    have htest {t : Process} (hfault : t.fault = false) (ht : t.handler = some .testHandler)
        (hdeleted : t.tail ≠ .deleted) :
        ∃ as s' pc', Transition.run stepApart as t = some s' ∧ s'.handler = some pc' ∧
          pc'.rank < HandlerPc.rank .testHandler := by
      refine ⟨[.handler], _, _, run_handler hfault ht (fun _ => hdeleted) rfl, rfl, ?_⟩
      split_ifs <;> simp [HandlerPc.rank]
    by_cases hdeleted : s.tail = .deleted
    · -- first the logic thread clears what it has deleted
      have hclear : s.destroyLogic = some { s with tail := .ended } := by rw [Process.destroyLogic, hdeleted]
      have hfinished := hs.tail (by simp [hdeleted])
      have hcleared := run_destroyLogic hs.fault (by simp [hs.handler]) hfinished hclear
      obtain ⟨as, s', pc', hrun, hnext⟩ := htest (t := { s with tail := .ended }) hs.fault hs.handler nofun
      exact ⟨_, s', pc', run_append hcleared hrun, hnext⟩
    · exact htest hs.fault hs.handler hdeleted
  | setRunnerShutdown =>
    have hcall : s.handlerStep .setRunnerShutdown = some { s with
        handler := some .returned
        logic := { s.logic with m_MsgHandler := s.logic.m_MsgHandler.map fun _ => true } } := by
      rw [Process.handlerStep, if_neg (not_not.mpr (hs.used rfl))]
      rfl
    exact ⟨[.handler], _, _, hone nofun hcall, rfl, by simp [HandlerPc.rank]⟩
  | returned => exact absurd rfl hpc

theorem Calm.handler_returns {pc : HandlerPc} {s : Process} (hs : Calm pc s) :
    ∃ as s', Transition.run stepApart as s = some s' ∧ Calm .returned s' := by
  induction hrank : pc.rank using Nat.strongRecOn generalizing pc s with
  | ind n ih =>
    by_cases hpc : pc = .returned
    · exact ⟨[], s, rfl, hpc ▸ hs⟩
    · obtain ⟨as, t, pc', ht, hpc', hlt⟩ := hs.handler_goes hpc
      obtain ⟨pc'', ht'⟩ := hs.run ht
      obtain rfl : pc'' = pc' := Option.some.inj (ht'.handler.symm.trans hpc')
      obtain ⟨bs, u, hu, hend⟩ := ih _ (hrank ▸ hlt) ht' rfl
      exact ⟨as ++ bs, u, run_append ht hu, hend⟩

/-- A state in which the handler has returned, and a step of one thread in it. -/
theorem step_returned {s : Process} (hs : Calm .returned s) :
    stepApart .main s = s.mainStep ∧ stepApart .master s = s.masterStep := by
  constructor
  · rw [stepApart_eq (a := .main) trivial, Process.step.eq_def, if_neg (by simp [hs.fault])]
    simp [hs.handler]
  · rw [stepApart_eq (a := .master) trivial, Process.step.eq_def, if_neg (by simp [hs.fault])]

/-- The main thread can get there on a run of all threads. -/
def Leads (step : Act → Process → Option Process) (s : Process) (main : MainPc) : Prop :=
  ∃ as s', Transition.run step as s = some s' ∧ s'.main = main

theorem Leads.of_run {step : Act → Process → Option Process} {s t : Process} {main : MainPc} {as : List Act}
    (h : Transition.run step as s = some t) (ht : Leads step t main) : Leads step s main := by
  obtain ⟨bs, u, hu, hmain⟩ := ht
  exact ⟨as ++ bs, u, run_append h hu, hmain⟩

theorem Leads.of_apart {s : Process} {main : MainPc} (h : Leads stepApart s main) : Leads Process.step s main := by
  obtain ⟨as, t, ht, hmain⟩ := h
  exact ⟨as, t, run_of_apart ht, hmain⟩

/-- The loop of the logic ends when its flag is down. -/
theorem run_logic {s : Process} (hfault : s.fault = false) (hmain : s.main = .joinLogic)
    (hdown : s.logic.m_IsActive = false)
    (hpc : s.logic.pc = .enterLoop ∨ s.logic.pc = .loop ∨ s.logic.pc = .finished) :
    ∃ as r, Transition.run stepApart as s = some { s with logic := r } ∧ r.pc = .finished := by
  have hloop {r : WorkerRunner} (hdown : r.m_IsActive = false) (hpc : r.pc = .loop) :
      Transition.run stepApart [.logic .doProcess] { s with logic := r }
        = some { s with logic := { r with eventBreak := true, pc := .finished } } := by
    have hexits := WorkerRunner.exits hdown hpc
    rw [Transition.run, stepApart_eq (a := .logic .doProcess) trivial, Process.step.eq_def, if_neg (by simp [hfault])]
    simp [hmain, hexits, Transition.run]
  obtain hpc | hpc | hpc := hpc
  · have henter : Transition.run stepApart [.logic .run] s
        = some { s with logic := { s.logic with eventBreak := false, pc := .loop } } := by
      rw [Transition.run, stepApart_eq (a := .logic .run) trivial, Process.step.eq_def, if_neg (by simp [hfault])]
      simp [hmain, WorkerRunner.step, WorkerRunner.runStep, hpc, Transition.run]
    exact ⟨_, _, run_append henter (hloop hdown rfl), rfl⟩
  · exact ⟨_, _, hloop hdown hpc, rfl⟩
  · exact ⟨[], s.logic, rfl, hpc⟩

theorem Calm.logic_ends {s : Process} (hs : Calm .returned s) (hmain : s.main = .joinLogic) :
    Leads stepApart s .joinTcp := by
  have hended {t : Process} (ht : Calm .returned t) (hmain : t.main = .joinLogic) (htail : t.tail = .ended) :
      Leads stepApart t .joinTcp := by
    refine ⟨[.main], { t with main := .joinTcp }, ?_, rfl⟩
    rw [Transition.run, (step_returned ht).1, Process.mainStep, hmain]
    simp [htail, Transition.run]
  have hdeleted {t : Process} (ht : Calm .returned t) (hmain : t.main = .joinLogic) (htail : t.tail = .deleted) :
      Leads stepApart t .joinTcp := by
    have hclear : t.destroyLogic = some { t with tail := .ended } := by rw [Process.destroyLogic, htail]
    have hstep := run_destroyLogic ht.fault (by simp [ht.handler]) (ht.tail (by simp [htail])) hclear
    exact .of_run hstep (hended (ht.stays hstep) hmain rfl)
  have hrun {t : Process} (ht : Calm .returned t) (hmain : t.main = .joinLogic) (hpc : t.logic.pc = .finished)
      (htail : t.tail = .run) : Leads stepApart t .joinTcp := by
    have hdelete : t.destroyLogic = some { t with tail := .deleted } := by rw [Process.destroyLogic, htail]
    have hstep := run_destroyLogic ht.fault (by simp [ht.handler]) hpc hdelete
    exact .of_run hstep (hdeleted (ht.stays hstep) hmain rfl)
  cases htail : s.tail with
  | run =>
    obtain ⟨as, r, hfinish, hpc⟩ := run_logic hs.fault hmain (hs.inactive rfl) hs.logic
    exact .of_run hfinish (hrun (hs.stays hfinish) hmain hpc htail)
  | deleted => exact hdeleted hs hmain htail
  | ended => exact hended hs hmain htail

theorem Calm.master_ends {s : Process} (hs : Calm .returned s) (hmain : s.main = .joinTcp) :
    Leads stepApart s .delete := by
  have hended {t : Process} (ht : Calm .returned t) (hmain : t.main = .joinTcp) (hmaster : t.master = .finished) :
      Leads stepApart t .delete := by
    refine ⟨[.main], { t with main := .delete }, ?_, rfl⟩
    rw [Transition.run, (step_returned ht).1, Process.mainStep, hmain]
    simp [hmaster, Transition.run]
  have hcheck {t : Process} (ht : Calm .returned t) (hmain : t.main = .joinTcp) (hmaster : t.master = .check) :
      Leads stepApart t .delete := by
    have hstep : Transition.run stepApart [.master] t = some { t with master := .finished } := by
      rw [Transition.run, (step_returned ht).2, Process.masterStep, hmaster]
      simp [ht.after rfl, Transition.run]
    exact .of_run hstep (hended (ht.stays hstep) hmain rfl)
  have hdestroy {t : Process} (ht : Calm .returned t) (hmain : t.main = .joinTcp) (hmaster : t.master = .destroy) :
      Leads stepApart t .delete := by
    have hstep : Transition.run stepApart [.master] t = some { t with master := .check } := by
      rw [Transition.run, (step_returned ht).2, Process.masterStep, hmaster]
      rfl
    exact .of_run hstep (hcheck (ht.stays hstep) hmain rfl)
  obtain hmaster | ⟨_, hmaster | hmaster | hmaster⟩ := hs.master
  · have hstep : Transition.run stepApart [.masterBreaks] s = some { s with master := .destroy } := by
      rw [Transition.run, stepApart_eq (a := .masterBreaks) trivial, Process.step.eq_def, if_neg (by simp [hs.fault])]
      simp [hmaster, hs.after rfl, Transition.run]
    exact .of_run hstep (hdestroy (hs.stays hstep) hmain rfl)
  · exact hdestroy hs hmain hmaster
  · exact hcheck hs hmain hmaster
  · exact hended hs hmain hmaster

theorem Calm.deletes {s : Process} (hs : Calm .returned s) (hmain : s.main = .delete) : Leads stepApart s .exited := by
  have hstep : s.mainStep = some { s with
      main := .exited, wrapper := .deleted, fault := decide (∃ i < WORKERS, s.Busy i) } := by
    rw [Process.mainStep, hmain]
  exact ⟨[.main], _, run_cons.mpr ⟨_, (step_returned hs).1.trans hstep, rfl⟩, rfl⟩

theorem Calm.exits {pc : HandlerPc} {s : Process} (hs : Calm pc s) : Leads stepApart s .exited := by
  have hdeleted {t : Process} (ht : Calm .returned t) (hmain : t.main = .joinTcp) : Leads stepApart t .exited := by
    obtain ⟨as, u, hu, hdelete⟩ := ht.master_ends hmain
    exact .of_run hu ((ht.stays hu).deletes hdelete)
  obtain ⟨as, t, ht, hreturned⟩ := hs.handler_returns
  refine .of_run ht ?_
  obtain hmain | ⟨_, hmain | hmain | hmain⟩ := hreturned.main
  · obtain ⟨bs, u, hu, hjoined⟩ := hreturned.logic_ends hmain
    exact .of_run hu (hdeleted (hreturned.stays hu) hjoined)
  · exact hdeleted hreturned hmain
  · exact hreturned.deletes hmain
  · exact ⟨[], t, rfl, hmain⟩

theorem Quiet.run {as : List Act} {s s' : Process} (hs : Quiet s) (hquiet : .signal ∉ as)
    (h : Transition.run Process.step as s = some s') : Quiet s' := by
  have hC : Always Process.step (fun a _ => a ≠ .signal) as s := by
    refine always_iff.mpr fun pre a suf t has _ ha => hquiet ?_
    simp [has, ha]
  exact run_preserves_of (fun _ _ _ hs ha ht => hs.step ha ht) hs hC h

theorem Quiet.signal {s : Process} (hs : Quiet s) :
    stepApart .signal s = some { s with handler := some .unInit } := by
  rw [stepApart_eq (a := .signal) trivial, Process.step.eq_def, if_neg (by simp [hs.fault])]
  simp [hs.handler]

/-- A signal ends the process in any interleaving: nothing is used that is not there, the services are deleted
behind the ends of their threads, and the main thread can always get to its end. -/
def Orderly (step : Act → Process → Option Process) (s : Process) : Prop :=
  ∀ bs t, Transition.run step (.signal :: bs) s = some t →
    t.fault = false ∧ (t.main = .exited ∨ t.wrapper = .alive) ∧ Leads step t .exited

theorem Quiet.orderly {s : Process} (hs : Quiet s) (hb : Begun s) : Orderly stepApart s := by
  intro bs t h
  obtain ⟨u, hu, hrest⟩ := run_cons.mp h
  obtain rfl : { s with handler := some .unInit } = u := Option.some.inj (hs.signal.symm.trans hu)
  obtain ⟨pc, ht⟩ := (hs.calm hb).run hrest
  refine ⟨ht.fault, ?_, ht.exits⟩
  by_cases hmain : t.main = .exited
  · exact Or.inl hmain
  · exact Or.inr (ht.wrapper hmain)

/-! ### A signal that comes too early -/

/-- The flag of the worker is still to be raised, or up in its loop. -/
def Endless (w : TcpService) : Prop := w.pc = .entry ∨ w.running = true ∧ w.pc ≠ .finished

theorem Endless.step {e : ServiceEvent} {w w' : TcpService} (he : e ≠ .uninit) (hw : Endless w)
    (h : TcpService.step e w = some w') : Endless w' := by
  obtain ⟨running, pc, asked⟩ := w
  obtain hentry | ⟨hrunning, hpc⟩ := hw
  · obtain rfl : pc = .entry := hentry
    cases e with
    | uninit => exact absurd rfl he
    | run =>
      obtain rfl := Option.some.inj h
      exact Or.inr ⟨rfl, by simp⟩
    | onOpCheck => cases h
    | dispatchReturns => cases h
  · obtain rfl : running = true := hrunning
    refine Or.inr ?_
    cases e <;> cases pc <;> simp [TcpService.step, TcpService.runStep] at h hpc he ⊢ <;> simp [← h]

/-- The handler waits for a worker that does not end, and the main thread with it. -/
structure Stuck (i : ℕ) (s : Process) : Prop where
  handler : s.handler = some (.joinWorker i)
  main : s.main ≠ .exited
  worker : ∃ w, s.workers[i]? = some w ∧ (s.started i = true → Endless w)

theorem fault_of_step {a : Act} {s s' : Process} (h : Process.step a s = some s') : s.fault = false := by
  by_contra hfault
  rw [Process.step.eq_def, if_pos (by simpa using hfault)] at h
  cases h

theorem masterStep_frame {s s' : Process} (h : s.masterStep = some s') :
    s'.handler = s.handler ∧ s'.main = s.main ∧ s'.logic = s.logic ∧ s'.tail = s.tail := by
  cases hmaster : s.master with
  | unstarted | dispatch | finished => simp [Process.masterStep, hmaster] at h
  | entry | check | newWorker | destroy =>
    rw [Process.masterStep, hmaster] at h
    obtain rfl := Option.some.inj h
    exact ⟨rfl, rfl, rfl, rfl⟩
  | startWorker =>
    rw [Process.masterStep, hmaster] at h
    dsimp only at h
    split_ifs at h <;> obtain rfl := Option.some.inj h <;> exact ⟨rfl, rfl, rfl, rfl⟩

theorem Stuck.masterStep {s s' : Process} {i : ℕ} (hs : Stuck i s) (h : s.masterStep = some s') : Stuck i s' := by
  obtain ⟨w, hw, hend⟩ := hs.worker
  cases hmaster : s.master with
  | unstarted => simp [Process.masterStep, hmaster] at h
  | dispatch => simp [Process.masterStep, hmaster] at h
  | finished => simp [Process.masterStep, hmaster] at h
  | entry | check | destroy =>
    rw [Process.masterStep, hmaster] at h
    obtain rfl := Option.some.inj h
    exact ⟨hs.handler, hs.main, w, hw, hend⟩
  | newWorker j =>
    rw [Process.masterStep, hmaster] at h
    obtain rfl := Option.some.inj h
    have hlt : i < s.workers.length := (List.getElem?_eq_some_iff.mp hw).1
    exact ⟨hs.handler, hs.main, w, (List.getElem?_append_left hlt).trans hw, hend⟩
  | startWorker j =>
    rw [Process.masterStep, hmaster] at h
    dsimp only at h
    split_ifs at h
    · obtain rfl := Option.some.inj h
      exact ⟨hs.handler, hs.main, w, hw, hend⟩
    all_goals
      obtain rfl := Option.some.inj h
      by_cases hij : j = i
      · subst hij
        exact ⟨hs.handler, hs.main, { w with pc := .entry }, by simp [hw], fun _ => Or.inl rfl⟩
      · refine ⟨hs.handler, hs.main, w, by simp [hw, hij], fun hstarted => hend ?_⟩
        simpa [Function.update_of_ne (Ne.symm hij)] using hstarted

theorem Stuck.step {a : Act} {s s' : Process} {i : ℕ} (hs : Stuck i s) (h : Process.step a s = some s') :
    Stuck i s' := by
  obtain ⟨w, hw, hend⟩ := hs.worker
  obtain ⟨_, hfree, _⟩ | ⟨_, hnone, _⟩ | ⟨_, pc, hpc, h⟩ | ⟨_, h⟩ | ⟨_, _, _, rfl⟩
    | ⟨j, e, v, v', _, hstarted, he, hv, hstep, rfl⟩ | ⟨_, _, _, _, _, _, rfl⟩ | ⟨_, _, h⟩ :=
      step_iff (fault_of_step h) h
  · simp [hs.handler] at hfree
  · simp [hs.handler] at hnone
  · obtain rfl : .joinWorker i = pc := Option.some.inj (hs.handler.symm.trans hpc)
    have hwaits : ¬(Life.step .joined (s.life i)).isSome = true := by
      intro hjoins
      obtain ⟨hstarted, hidle⟩ := (s.joins_iff i).mp hjoins
      refine hidle ⟨hstarted, ?_⟩
      rw [hw]
      obtain hentry | ⟨_, hfinished⟩ := hend hstarted
      · simp [hentry]
      · simpa using hfinished
    rw [Process.handlerStep, if_neg hwaits] at h
    cases h
  · exact hs.masterStep h
  · exact ⟨hs.handler, hs.main, w, hw, hend⟩
  · by_cases hij : j = i
    · subst hij
      obtain rfl : v = w := Option.some.inj (hv.symm.trans hw)
      have hlt : j < s.workers.length := (List.getElem?_eq_some_iff.mp hw).1
      exact ⟨hs.handler, hs.main, v', by simp [hlt], fun _ => (hend hstarted).step he hstep⟩
    · exact ⟨hs.handler, hs.main, w, (List.getElem?_set_ne hij).trans hw, hend⟩
  · exact ⟨hs.handler, hs.main, w, hw, hend⟩
  · rw [Process.destroyLogic] at h
    split at h <;> cases h <;> exact ⟨hs.handler, hs.main, w, hw, hend⟩

theorem Stuck.not_leads {s : Process} {i : ℕ} (hs : Stuck i s) : ¬Leads Process.step s .exited := by
  rintro ⟨bs, t, ht, hmain⟩
  exact (run_preserves (I := Stuck i) (fun _ _ _ => Stuck.step) hs ht).main hmain

/-- The handler has returned and the loop of the logic is still to come. -/
structure Waiting (s : Process) : Prop where
  handler : s.handler = some .returned
  main : s.main = .joinLogic
  logic : Lively s.logic
  tail : s.tail = .run

theorem Waiting.step {a : Act} {s s' : Process} (hs : Waiting s) (h : Process.step a s = some s') : Waiting s' := by
  obtain ⟨_, _, h⟩ | ⟨_, hnone, _⟩ | ⟨_, pc, hpc, h⟩ | ⟨_, h⟩ | ⟨_, _, _, rfl⟩
    | ⟨_, _, _, _, _, _, _, _, _, rfl⟩ | ⟨e, r, _, _, he, hr, rfl⟩ | ⟨_, hfinished, _⟩ := step_iff (fault_of_step h) h
  · rw [Process.mainStep, hs.main] at h
    dsimp only at h
    rw [if_neg (by simp [hs.tail])] at h
    cases h
  · simp [hs.handler] at hnone
  · obtain rfl : .returned = pc := Option.some.inj (hs.handler.symm.trans hpc)
    cases h
  · obtain ⟨hhandler, hmain, hlogic, htail⟩ := masterStep_frame h
    exact ⟨hhandler.trans hs.handler, hmain.trans hs.main, hlogic ▸ hs.logic, htail.trans hs.tail⟩
  · exact ⟨hs.handler, hs.main, hs.logic, hs.tail⟩
  · exact ⟨hs.handler, hs.main, hs.logic, hs.tail⟩
  · exact ⟨hs.handler, hs.main, hs.logic.step he hr, hs.tail⟩
  · exact absurd hfinished hs.logic.runs

theorem Waiting.not_leads {s : Process} (hs : Waiting s) : ¬Leads Process.step s .exited := by
  rintro ⟨bs, t, ht, hmain⟩
  have hend := (run_preserves (I := Waiting) (fun _ _ _ => Waiting.step) hs ht).main
  simp [hmain] at hend

/-- The handler has dealt with the workers before those that it stops next, and nothing else has happened. -/
structure Handling (s : Process) (pc : HandlerPc) (t : Process) : Prop where
  fault : t.fault = false
  handler : t.handler = some pc
  main : t.main = s.main
  started : t.started = s.started
  logic : t.logic = s.logic
  tail : t.tail = s.tail
  workers : ∀ j, pc.stopped ≤ j → t.workers[j]? = s.workers[j]?

theorem Quiet.handling {s : Process} (hs : Quiet s) (hwrapper : s.wrapper = .alive) :
    ∃ bs t, Transition.run stepApart (.signal :: bs) s = some t ∧ Handling s (.stopWorker 0) t := by
  have hfault : decide (s.wrapper ≠ .alive) = false := by simp [hwrapper]
  have hcalls := run_append (run_handler (s := { s with handler := some .unInit }) hs.fault rfl nofun rfl)
    (run_append (run_handler hfault rfl nofun rfl) (run_handler hfault rfl nofun rfl))
  exact ⟨_, _, run_cons.mpr ⟨_, hs.signal, hcalls⟩, hfault, rfl, rfl, rfl, rfl, rfl, fun _ _ => rfl⟩

/-- A worker that has begun is stopped and joined. -/
theorem Handling.next {s t : Process} {i : ℕ} (ht : Handling s (.stopWorker i) t) (hi : i < WORKERS)
    (hb : BegunAt s i) :
    ∃ bs u, Transition.run stepApart bs t = some u ∧
      Handling s (if i + 1 < WORKERS then .stopWorker (i + 1) else .stopLogic) u := by
  obtain ⟨hstarted, w, hw, hpc⟩ := hb
  have hfound : t.workers[i]? = some w := (ht.workers i le_rfl).trans hw
  have hlt : i < t.workers.length := (List.getElem?_eq_some_iff.mp hfound).1
  have hstop := run_handler ht.fault ht.handler (apart_handler ht.handler nofun) (handlerStep_stopWorker hfound)
  obtain ⟨bs, hjoined⟩ := run_joinWorker (s := { t with
      handler := some (.joinWorker i)
      workers := t.workers.set i { w with running := false, asked := true } })
    (w := { w with running := false, asked := true }) ht.fault rfl ((congrFun ht.started i).trans hstarted)
    (by simp [hlt]) rfl hpc
  refine ⟨_, _, run_append hstop hjoined, ht.fault, rfl, ht.main, ht.started, ht.logic, ht.tail, fun j hj => ?_⟩
  have hij : i < j := by
    split_ifs at hj with hlast
    · exact hj
    · exact lt_of_lt_of_le hi hj
  rw [List.getElem?_set_ne hij.ne, List.getElem?_set_ne hij.ne]
  exact ht.workers j hij.le

theorem Quiet.reaches {s : Process} {n : ℕ} (hs : Quiet s) (hwrapper : s.wrapper = .alive) (hn : n < WORKERS)
    (hb : ∀ i < n, BegunAt s i) :
    ∃ bs t, Transition.run stepApart (.signal :: bs) s = some t ∧ Handling s (.stopWorker n) t := by
  induction n with
  | zero => exact hs.handling hwrapper
  | succ n ih =>
    obtain ⟨bs, t, ht, hhandling⟩ := ih (by omega) fun i hi => hb i (by omega)
    obtain ⟨cs, u, hu, hnext⟩ := hhandling.next (by omega) (hb n (by omega))
    rw [if_pos hn] at hnext
    exact ⟨bs ++ cs, u, run_append ht hu, hnext⟩

/-- All workers are joined, and the flag of the logic is down. -/
theorem Quiet.reaches_test {s : Process} (hs : Quiet s) (hwrapper : s.wrapper = .alive)
    (hb : ∀ i < WORKERS, BegunAt s i) :
    ∃ bs t, Transition.run stepApart (.signal :: bs) s = some t ∧ t.fault = false ∧ t.handler = some .testHandler ∧
      t.main = .joinLogic ∧ t.logic = { s.logic with m_IsActive := false, asked := true } ∧ t.tail = .run := by
  have hlast : WORKERS - 1 < WORKERS := by simp [WORKERS]
  obtain ⟨bs, t, ht, hhandling⟩ := hs.reaches hwrapper hlast fun i hi => hb i (by omega)
  obtain ⟨cs, u, hu, hnext⟩ := hhandling.next hlast (hb _ hlast)
  rw [if_neg (by simp [WORKERS])] at hnext
  have hdown := run_handler hnext.fault hnext.handler (apart_handler hnext.handler nofun) rfl
  have hmain : s.main = .joinLogic := by
    refine hs.main.resolve_right fun hunstarted => ?_
    have hbegun := (hs.started _).mp (hb _ hlast).1
    simp [hunstarted.1, MasterPc.begun] at hbegun
  refine ⟨_, _, run_append ht (run_append hu hdown), hnext.fault, rfl, hnext.main.trans hmain, ?_,
    hnext.tail.trans hs.tail⟩
  rw [hnext.logic]

theorem Lively.stopped {r : WorkerRunner} (hr : Lively r) (hinactive : r.m_IsActive = false) :
    Lively { r with m_IsActive := false, asked := true } :=
  ⟨hinactive ▸ hr.active, hr.runs, hr.unbroken, hr.msgHandler⟩

theorem Quiet.misses_logic {s : Process} (hs : Quiet s) (hwrapper : s.wrapper = .alive)
    (hb : ∀ i < WORKERS, BegunAt s i) (hinactive : s.logic.m_IsActive = false) :
    ∃ bs t, Transition.run stepApart (.signal :: bs) s = some t ∧ Waiting t := by
  obtain ⟨bs, t, ht, hfault, hhandler, hmain, hlogic, htail⟩ := hs.reaches_test hwrapper hb
  have hlively : Lively t.logic := hlogic ▸ hs.logic.stopped hinactive
  have htest := run_handler hfault hhandler (fun _ => by simp [htail]) rfl
  by_cases hthere : t.logic.m_MsgHandler.isSome ∧ t.tail ≠ .ended
  · rw [if_pos hthere] at htest
    have hcall : Process.handlerStep { t with handler := some .setRunnerShutdown } .setRunnerShutdown = some { t with
        handler := some .returned
        logic := { t.logic with m_MsgHandler := t.logic.m_MsgHandler.map fun _ => true } } := by
      rw [Process.handlerStep, if_neg (by simp [htail])]
      rfl
    have hreturn := run_handler (s := { t with handler := some .setRunnerShutdown }) hfault rfl nofun hcall
    refine ⟨_, _, run_append ht (run_append htest hreturn), rfl, hmain, ?_, htail⟩
    exact ⟨hlively.active, hlively.runs, hlively.unbroken, fun hnone => hlively.msgHandler (by simpa using hnone)⟩
  · rw [if_neg hthere] at htest
    exact ⟨_, _, run_append ht htest, rfl, hmain, hlively, htail⟩

theorem Quiet.misses_worker {s : Process} {i : ℕ} (hs : Quiet s) (hwrapper : s.wrapper = .alive) (hi : i < WORKERS)
    (hbefore : ∀ j < i, BegunAt s j) (hb : ¬BegunAt s i) :
    ∃ bs t, Transition.run stepApart (.signal :: bs) s = some t ∧ (t.fault = true ∨ Stuck i t) := by
  obtain ⟨bs, t, ht, hhandling⟩ := hs.reaches hwrapper hi hbefore
  cases hfound : t.workers[i]? with
  | none =>
    have hfault : t.handlerStep (.stopWorker i) = some { t with fault := true } := by
      rw [Process.handlerStep, hfound]
    have hstop := run_handler hhandling.fault hhandling.handler (apart_handler hhandling.handler nofun) hfault
    exact ⟨_, _, run_append ht hstop, Or.inl rfl⟩
  | some w =>
    have hlt : i < t.workers.length := (List.getElem?_eq_some_iff.mp hfound).1
    have hw : s.workers[i]? = some w := (hhandling.workers i le_rfl).symm.trans hfound
    have hstop := run_handler hhandling.fault hhandling.handler (apart_handler hhandling.handler nofun)
      (handlerStep_stopWorker hfound)
    refine ⟨_, _, run_append ht hstop, Or.inr ⟨rfl, ?_, _, by simp [hlt]; rfl, fun hstarted => Or.inl ?_⟩⟩
    · rw [hhandling.main]
      obtain hmain | ⟨_, hmain | hmain | hmain⟩ := hs.main <;> simp [hmain]
    · by_contra hpc
      exact hb ⟨(congrFun hhandling.started i).symm.trans hstarted, w, hw, hpc⟩

/-- A signal before that can make it use what is not there, or keep the main thread from its end for good. -/
theorem Quiet.misses {s : Process} (hs : Quiet s) (hb : ¬Begun s) :
    ∃ bs t, Transition.run stepApart (.signal :: bs) s = some t ∧ (t.fault = true ∨ ¬Leads Process.step t .exited) := by
  by_cases hwrapper : s.wrapper = .alive
  · by_cases hall : ∀ i < WORKERS, BegunAt s i
    · have hinactive : s.logic.m_IsActive = false := by
        by_contra hactive
        exact hb ⟨hall, by simpa using hactive⟩
      obtain ⟨bs, t, ht, hwaiting⟩ := hs.misses_logic hwrapper hall hinactive
      exact ⟨bs, t, ht, Or.inr hwaiting.not_leads⟩
    · classical
      push Not at hall
      -- the first worker that the handler deals with too early
      obtain ⟨hi, hnot⟩ := Nat.find_spec hall
      have hbefore : ∀ j < Nat.find hall, BegunAt s j := by
        intro j hj
        by_contra hbegun
        exact Nat.find_min hall hj ⟨hj.trans hi, hbegun⟩
      obtain ⟨bs, t, ht, hmissed⟩ := hs.misses_worker hwrapper hi hbefore hnot
      exact ⟨bs, t, ht, hmissed.imp_right Stuck.not_leads⟩
  · have hfault : decide (s.wrapper ≠ .alive) = true := by simp [hwrapper]
    have hcall := run_handler (s := { s with handler := some .unInit }) hs.fault rfl nofun rfl
    exact ⟨_, _, run_cons.mpr ⟨_, hs.signal, hcall⟩, Or.inl hfault⟩

/-- When all loops have begun, the handler of the logic can be deleted under the hands of the signal's. -/
theorem Quiet.uses_deleted {s : Process} (hs : Quiet s) (hb : Begun s) :
    ∃ bs t, Transition.run Process.step (.signal :: bs) s = some t ∧ t.fault = true := by
  have hwrapper := hs.wrapper (Or.inl (hs.main.resolve_right fun hm => by simp [hs.master_of_begun hb] at hm))
  obtain ⟨bs, t, ht, hfault, hhandler, hmain, hlogic, htail⟩ := hs.reaches_test hwrapper hb.1
  have hpc := hs.logic.active.mp hb.2
  have hthere : t.logic.m_MsgHandler.isSome ∧ t.tail ≠ .ended := by
    refine ⟨?_, by simp [htail]⟩
    rw [hlogic]
    by_contra hnone
    have hnew := hs.logic.msgHandler (by simpa using hnone)
    simp [hnew] at hpc
  have htest := run_handler hfault hhandler (fun _ => by simp [htail]) rfl
  rw [if_pos hthere] at htest
  obtain ⟨cs, r, hfinish, hfinished⟩ := run_logic (s := { t with handler := some .setRunnerShutdown }) hfault hmain
    (by simp [hlogic]) (by simpa [hlogic] using hpc.imp_right Or.inl)
  have hdelete : Transition.run Process.step [.destroyLogic, .handler]
      { t with handler := some .setRunnerShutdown, logic := r }
        = some { t with handler := some .setRunnerShutdown, logic := r, tail := .deleted, fault := true } := by
    simp [Transition.run, Process.step, Process.destroyLogic, Process.handlerStep, hfault, htail, hfinished]
  exact ⟨_, _, run_append (run_of_apart (run_append ht (run_append htest hfinish))) hdelete, rfl⟩

/-- A signal ends the process in any interleaving that does not mix the test of `m_MsgHandler` with its deletion exactly
when it comes behind the beginning of all loops; over all interleavings it never does. -/
theorem shutdown_orderly_iff {tv : ℕ} {as : List Act} {s : Process} (hrun : run Process.step as (.start tv) = some s)
    (hquiet : .signal ∉ as) : (Orderly stepApart s ↔ Begun s) ∧ ¬Orderly Process.step s := by
  have hs : Quiet s := (quiet_start tv).run hquiet hrun
  refine ⟨⟨fun horderly => ?_, hs.orderly⟩, fun horderly => ?_⟩
  · by_contra hb
    obtain ⟨bs, t, ht, hfault | hstays⟩ := hs.misses hb
    · simp [(horderly bs t ht).1] at hfault
    · exact hstays (horderly bs t ht).2.2.of_apart
  · by_cases hb : Begun s
    · obtain ⟨bs, t, ht, hfault⟩ := hs.uses_deleted hb
      simp [(horderly bs t ht).1] at hfault
    · obtain ⟨bs, t, ht, hfault | hstays⟩ := hs.misses hb
      · simp [(horderly bs t (run_of_apart ht)).1] at hfault
      · exact hstays (horderly bs t (run_of_apart ht)).2.2

/-- The process comes up, with all its threads in their loops. -/
def comesUp : List Act :=
  [.main, .main, .main, .master, .master, .master, .master, .master, .master, .worker 0 .run, .worker 1 .run,
    .logic .run, .logic .run, .logic .run, .logic .run]

def upState : Process := (run Process.step comesUp (.start 0)).get (by decide)

theorem run_comesUp : run Process.step comesUp (.start 0) = some upState := (Option.some_get _).symm

theorem begun_upState : Begun upState := by
  refine ⟨fun i hi => ?_, rfl⟩
  obtain rfl | rfl : i = 0 ∨ i = 1 := by
    simp only [WORKERS] at hi
    omega
  · exact ⟨rfl, ⟨true, .check, false⟩, rfl, nofun⟩
  · exact ⟨rfl, ⟨true, .check, false⟩, rfl, nofun⟩

theorem shutdown_orderly_iff_up :
    (Orderly stepApart upState ∧ ¬Orderly Process.step upState) ∧ ¬Orderly stepApart (.start 0) := by
  have hstart : run Process.step [] (.start 0) = some (.start 0) := rfl
  have hinactive : ¬Begun (.start 0) := fun hb => absurd hb.2 (by decide)
  obtain ⟨hup, hmixed⟩ := shutdown_orderly_iff run_comesUp (by decide)
  exact ⟨⟨hup.mpr begun_upState, hmixed⟩, mt (shutdown_orderly_iff hstart (by decide)).1.mp hinactive⟩

end RgcFifa.WorldServer
