import RgcFifa.Lib.Faulting
import RgcFifa.Runner

/-! The life of a `WorkerRunner`: `RunnerProc`, and `Destroy` at its end and in the destructor. -/

namespace RgcFifa

open Faulting

namespace Runner

section Calls

variable (s : Runner)

def newLog : Runner :=
  let new := s.logMem.alloc ()
  { s with log := some new.1, logMem := new.2 }

def event_base_new (ok : Bool) : Runner :=
  if ok then
    let new := s.baseMem.alloc ()
    { s with event_base := some new.1, baseMem := new.2 }
  else { s with event_base := none }

def newHandler : Runner :=
  let new := s.handlerMem.alloc ()
  { s with msgHandler := some new.1, handlerMem := new.2 }

/-- An access through `m_Log`. -/
def atLog : Except RunnerFault Unit :=
  match s.log with
  | none => .error .null
  | some l => match s.logMem.cells l with
    | some _ => .ok ()
    | none => .error .freed

/-- An access through `m_MsgHandler`. -/
def atHandler : Except RunnerFault ℕ :=
  match s.msgHandler with
  | none => .error .null
  | some h => match s.handlerMem.cells h with
    | some _ => .ok h
    | none => .error .freed

/-- Returns at once for a null pointer. -/
def event_base_free (base : Option ℕ) : Except RunnerFault Runner :=
  match base with
  | none => .ok s
  | some b => match s.baseMem.cells b with
    | some _ => .ok { s with baseMem := s.baseMem.release b }
    | none => .error .freed

/-- `SAFE_DELETE(m_Log)`. -/
def deleteLog : Except RunnerFault Runner :=
  match s.log with
  | none => .ok s
  | some l => match s.logMem.cells l with
    | some _ => .ok { s with log := none, logMem := s.logMem.release l }
    | none => .error .freed

end Calls

/-- The loop of `Destroy`. -/
def destroyEvents : List (ℕ × ℕ) → RunnerCall
  | [], s => .ok s
  | (ev, te) :: es, s => do
      let _ ← s.atLog
      let s ← s.event_free ev
      let s ← s.deleteTimer te
      destroyEvents es s

def destroyBase (s : Runner) : Except RunnerFault Runner :=
  if s.event_base = none then do
    let _ ← s.atLog
    let s ← s.event_base_free s.event_base
    .ok { s with event_base := none }
  else .ok s

def destroyHandler (s : Runner) : Except RunnerFault Runner :=
  if s.msgHandler ≠ none then do
    let h ← s.atHandler
    let _ ← s.atLog
    .ok { s with msgHandler := none, handlerMem := s.handlerMem.release h }
  else .ok s

def destroy (s : Runner) : Except RunnerFault Runner := do
  let s ← destroyEvents s.events.toList s
  let s ← { s with events := ∅ }.destroyBase
  let s ← s.destroyHandler
  s.deleteLog

/-- `body` is what the user code does that is called, `OnPause` or the handlers of the messages. -/
def doProcessMsg (body : Script) (s : Runner) : Except RunnerFault Runner :=
  if s.isPause then
    if s.checkPause then do
      let s ← body.exec s
      .ok { s with checkPause := false }
    else .ok s
  else do
    let _ ← s.atHandler
    body.exec s

def doProcessTimer (body : Script) (s : Runner) : Except RunnerFault Runner :=
  if s.isPause then
    if s.checkPause then do
      let s ← body.exec s
      .ok { s with checkPause := false }
    else .ok s
  else body.exec s

end Runner

/-- What happens while `event_base_loop` runs, with what user code does in the callback. -/
inductive LoopEvent where
  | expire (ev : ℕ) (body : Script) (ok : Bool)
  | pause
  | resume
  | shutdown

namespace Runner

/-- The two timers that `Run` adds, if it could. -/
structure RunTimers where
  msg : Option ℕ
  timer : Option ℕ

def RunTimers.callback (own : RunTimers) (ev : ℕ) (body : Script) : RunnerCall :=
  if own.msg = some ev then doProcessMsg body
  else if own.timer = some ev then doProcessTimer body
  else body.exec

/-- Whether the callback calls `event_base_loopbreak`. -/
def RunTimers.breaks (own : RunTimers) (ev : ℕ) (s : Runner) : Bool :=
  (own.msg == some ev || own.timer == some ev) && !s.isActive

def pending (ev : ℕ) (s : Runner) : Bool :=
  (s.eventMem.cells ev).any fun e => e.pending.isSome

def shutdown (s : Runner) : Except RunnerFault Runner :=
  let s := { s with isActive := false }
  if s.msgHandler ≠ none then do
    let _ ← s.atHandler
    .ok s
  else .ok s

def pause (s : Runner) : Runner :=
  if s.isPause then s else { s with checkPause := true, isPause := true }

def resume (s : Runner) : Runner := if s.isPause then { s with isPause := false } else s

/-- Only what is pending expires. -/
def event_base_loop (own : RunTimers) : List LoopEvent → RunnerCall
  | [], s => .ok s
  | .expire ev body ok :: es, s =>
      if s.pending ev then do
        let t ← s.expire ev (own.callback ev body) ok
        if own.breaks ev s then .ok t else event_base_loop own es t
      else event_base_loop own es s
  | .pause :: es, s => event_base_loop own es s.pause
  | .resume :: es, s => event_base_loop own es s.resume
  | .shutdown :: es, s => do
      let s ← s.shutdown
      event_base_loop own es s

end Runner

/-- What the outside decides about a call of `RunnerProc`: which calls succeed and what the user
code does. -/
structure RunnerOutcome where
  log : Bool
  base : Bool
  init : Script
  inits : Bool
  msgTimer : TimerCalls
  firstMsg : Script
  timer : TimerCalls
  firstTimer : Script
  loop : List LoopEvent
  unInit : Script

namespace Runner

/-- The second timer of `Run`. -/
def runTimer (o : RunnerOutcome) (s : Runner) : Except RunnerFault (Option ℕ × Runner) :=
  if s.timerinterval > 0 then
    s.addTimer s.timerinterval 0 o.timer (doProcessTimer o.firstTimer)
  else .ok (none, s)

def run (o : RunnerOutcome) (s : Runner) : Except RunnerFault Runner := do
  let (msg, s) ← s.addTimer 25 0 o.msgTimer (doProcessMsg o.firstMsg)
  let (timer, s) ← s.runTimer o
  event_base_loop ⟨msg, timer⟩ o.loop { s with isActive := true }

/-- Between the creation of the base and `Destroy`. -/
def initRun (o : RunnerOutcome) (s : Runner) : Except RunnerFault Runner := do
  let s ← o.init.exec s
  if o.inits then do
    let s ← run o s.newHandler
    o.unInit.exec s
  else .ok s

/-- `false` where it throws `OutOfMemoryException`. -/
def runnerProc (o : RunnerOutcome) (s : Runner) : Except RunnerFault (Bool × Runner) :=
  let s := if o.log then s.newLog else s
  let s := s.event_base_new o.base
  if s.event_base = none then do
    let s ← s.destroy
    .ok (false, s)
  else do
    let s ← s.initRun o
    let s ← s.destroy
    .ok (true, s)

/-- From the constructor to the destructor, without `RunnerProc` for `none`. -/
def life (tv : UInt32) : Option RunnerOutcome → Except RunnerFault Runner
  | none => (start tv).destroy
  | some o => do
      let (_, s) ← (start tv).runnerProc o
      s.destroy

/-- Nothing is used wrongly, and all that was made has been released once. -/
def TornDown (r : Except RunnerFault Runner) : Prop :=
  ∃ s, r = .ok s ∧ s.logMem.Released ∧ s.baseMem.Released ∧ s.handlerMem.Released ∧
    s.eventMem.Released ∧ s.timerMem.Released

/-- The base of `t` is that of `s`, and none was made or freed in between. -/
def SameBase (s t : Runner) : Prop := t.event_base = s.event_base ∧ t.baseMem = s.baseMem

def KeepsBase (cb : RunnerCall) : Prop := ∀ s t, cb s = .ok t → SameBase s t

variable {s t u : Runner} {ev te : ℕ} {cb : RunnerCall}

theorem SameBase.trans (h : SameBase s t) (h' : SameBase t u) : SameBase s u :=
  ⟨h'.1.trans h.1, h'.2.trans h.2⟩

theorem keepsBase_ok : KeepsBase .ok := by
  intro s t h
  rw [← Except.ok.inj h]
  exact ⟨rfl, rfl⟩

section Base

theorem base_of_access {α : Type} {x : Except RunnerFault α} {f : α → Runner}
    (h : (x >>= fun a => .ok (f a)) = .ok t) (hf : ∀ a, SameBase s (f a)) : SameBase s t := by
  obtain ⟨a, _, h⟩ := bind_eq_ok.mp h
  rw [← Except.ok.inj h]
  exact hf a

theorem event_free_base (h : s.event_free ev = .ok t) : SameBase s t := by
  rw [event_free] at h
  exact base_of_access h fun _ => ⟨rfl, rfl⟩

theorem deleteTimer_base (h : s.deleteTimer te = .ok t) : SameBase s t := by
  rw [deleteTimer] at h
  exact base_of_access h fun _ => ⟨rfl, rfl⟩

theorem event_del_base (h : s.event_del ev = .ok t) : SameBase s t := by
  rw [event_del] at h
  exact base_of_access h fun _ => ⟨rfl, rfl⟩

theorem event_assign_base {persist : Bool} {callback : TimerCallback}
    (h : s.event_assign ev persist callback te = .ok t) : SameBase s t := by
  rw [event_assign] at h
  exact base_of_access h fun _ => ⟨rfl, rfl⟩

theorem event_add_base {ok : Bool} {tv : UInt32 × UInt32} {p : Bool × Runner}
    (h : s.event_add ok ev tv = .ok p) : SameBase s p.2 := by
  obtain ⟨_, _, h⟩ := bind_eq_ok.mp h
  split at h
  · rw [← Except.ok.inj h]
    exact ⟨rfl, rfl⟩
  · rw [← Except.ok.inj h]
    exact ⟨rfl, rfl⟩

theorem event_new_base (ok persist : Bool) (callback : TimerCallback) (te : ℕ) :
    SameBase s (s.event_new ok persist callback te).2 := by
  rw [event_new]
  split <;> exact ⟨rfl, rfl⟩

theorem addEvent_base (hcb : KeepsBase cb) {delay : UInt32} {persist : Bool}
    {callback : TimerCallback} {o : TimerCalls} {p : Option ℕ × Runner}
    (h : s.addEvent delay persist callback o te cb = .ok p) : SameBase s p.2 := by
  have hnew := event_new_base (s := s) o.event persist callback te
  rw [addEvent] at h
  rcases hmade : s.event_new o.event persist callback te with ⟨_ | ev, u⟩
  · rw [hmade] at h hnew
    obtain ⟨v, hv, h⟩ := bind_eq_ok.mp h
    rw [← Except.ok.inj h]
    exact hnew.trans (deleteTimer_base hv)
  · rw [hmade] at h hnew
    obtain ⟨x, _, h⟩ := bind_eq_ok.mp h
    obtain ⟨⟨added, v⟩, hv, h⟩ := bind_eq_ok.mp h
    have hset : SameBase u (u.setTimer te { x with ev := some ev }) := ⟨rfl, rfl⟩
    have hadd := hnew.trans (hset.trans (event_add_base hv))
    cases added with
    | false =>
      obtain ⟨w, hw, h⟩ := bind_eq_ok.mp h
      obtain ⟨y, hy, h⟩ := bind_eq_ok.mp h
      rw [← Except.ok.inj h]
      exact hadd.trans ((event_free_base hw).trans (deleteTimer_base hy))
    | true =>
      obtain ⟨w, hw, h⟩ := bind_eq_ok.mp h
      have hcalled := hadd.trans (hcb _ _ hw)
      rw [← Except.ok.inj h]
      exact hcalled

theorem addTimer_base (hcb : KeepsBase cb) {interval firstInterval : UInt32} {o : TimerCalls}
    {p : Option ℕ × Runner} (h : s.addTimer interval firstInterval o cb = .ok p) :
    SameBase s p.2 := by
  have hfirst : KeepsBase (if firstInterval = 0 then cb else .ok) := by
    split
    · exact hcb
    · exact keepsBase_ok
  rw [addTimer] at h
  split at h
  · have hmade : SameBase s { s with timerMem := (s.timerMem.alloc ⟨none, interval⟩).2 } :=
      ⟨rfl, rfl⟩
    split at h
    · exact hmade.trans (addEvent_base hfirst h)
    · exact hmade.trans (addEvent_base keepsBase_ok h)
  · rw [← Except.ok.inj h]
    exact ⟨rfl, rfl⟩

theorem removeTimer_base {timer : ℕ} {p : Bool × Runner} (h : s.removeTimer timer = .ok p) :
    SameBase s p.2 := by
  rw [removeTimer] at h
  split at h
  · obtain ⟨u, hu, h⟩ := bind_eq_ok.mp h
    obtain ⟨v, hv, h⟩ := bind_eq_ok.mp h
    have hgone := (event_free_base hu).trans (deleteTimer_base hv)
    rw [← Except.ok.inj h]
    exact hgone
  · rw [← Except.ok.inj h]
    exact ⟨rfl, rfl⟩

theorem exec_base (sc : Script) : KeepsBase sc.exec := by
  induction sc with
  | done => exact keepsBase_ok
  | addTimer interval firstInterval o body next hbody hnext =>
    intro s t h
    obtain ⟨p, hp, h⟩ := bind_eq_ok.mp h
    exact (addTimer_base hbody hp).trans (hnext _ _ h)
  | removeTimer timer next hnext =>
    intro s t h
    obtain ⟨p, hp, h⟩ := bind_eq_ok.mp h
    exact (removeTimer_base hp).trans (hnext _ _ h)

theorem process_base (hcb : KeepsBase cb) : KeepsBase (event_timer_process te cb) := by
  intro s t h
  obtain ⟨_, _, h⟩ := bind_eq_ok.mp h
  exact hcb _ _ h

theorem firsttime_base (hcb : KeepsBase cb) (ok : Bool) :
    KeepsBase (event_timer_process_firsttime te cb ok) := by
  intro s t h
  obtain ⟨_, _, h⟩ := bind_eq_ok.mp h
  obtain ⟨u, hu, h⟩ := bind_eq_ok.mp h
  obtain ⟨x, _, h⟩ := bind_eq_ok.mp h
  have hcalled := hcb _ _ hu
  cases hev : x.ev with
  | none =>
    rw [hev] at h
    cases h
  | some ev =>
    rw [hev] at h
    obtain ⟨v, hv, h⟩ := bind_eq_ok.mp h
    obtain ⟨w, hw, h⟩ := bind_eq_ok.mp h
    obtain ⟨⟨added, y⟩, hy, h⟩ := bind_eq_ok.mp h
    have hadd := (event_del_base hv).trans ((event_assign_base hw).trans (event_add_base hy))
    cases added with
    | true =>
      rw [← Except.ok.inj h]
      exact hcalled.trans hadd
    | false =>
      obtain ⟨z, hz, h⟩ := bind_eq_ok.mp h
      have herase : SameBase y { y with events := y.events.erase ev } := ⟨rfl, rfl⟩
      exact hcalled.trans (hadd.trans
        (herase.trans ((event_free_base hz).trans (deleteTimer_base h))))

theorem expire_base (hcb : KeepsBase cb) (ok : Bool) : KeepsBase (expire ev cb ok) := by
  intro s t h
  rw [expire] at h
  cases he : s.eventMem.cells ev with
  | none =>
    rw [he] at h
    cases h
  | some e =>
    have hset : SameBase s (if e.persist then s else s.setEvent ev { e with pending := none }) := by
      split <;> exact ⟨rfl, rfl⟩
    simp only [he] at h
    split at h
    · split at h
      · exact hset.trans (process_base hcb _ _ h)
      · exact hset.trans (firsttime_base hcb ok _ _ h)
    · cases h

theorem onPause_base (body : Script) {u : Runner}
    (h : (do let s ← body.exec s; .ok { s with checkPause := false }) = Except.ok u) :
    SameBase s u := by
  obtain ⟨v, hv, h⟩ := bind_eq_ok.mp h
  have hbody := exec_base body _ _ hv
  rw [← Except.ok.inj h]
  exact hbody

theorem doProcessMsg_base (body : Script) : KeepsBase (doProcessMsg body) := by
  intro s t h
  rw [doProcessMsg] at h
  split at h
  · split at h
    · exact onPause_base body h
    · exact keepsBase_ok _ _ h
  · obtain ⟨_, _, h⟩ := bind_eq_ok.mp h
    exact exec_base body _ _ h

theorem doProcessTimer_base (body : Script) : KeepsBase (doProcessTimer body) := by
  intro s t h
  rw [doProcessTimer] at h
  split at h
  · split at h
    · exact onPause_base body h
    · exact keepsBase_ok _ _ h
  · exact exec_base body _ _ h

theorem callback_base (own : RunTimers) (ev : ℕ) (body : Script) :
    KeepsBase (own.callback ev body) := by
  rw [RunTimers.callback]
  split
  · exact doProcessMsg_base body
  · split
    · exact doProcessTimer_base body
    · exact exec_base body

theorem pause_base (s : Runner) : SameBase s s.pause := by
  rw [pause]
  split <;> exact ⟨rfl, rfl⟩

theorem resume_base (s : Runner) : SameBase s s.resume := by
  rw [resume]
  split <;> exact ⟨rfl, rfl⟩

theorem shutdown_base : KeepsBase shutdown := by
  intro s t h
  rw [shutdown] at h
  split at h
  · obtain ⟨_, _, h⟩ := bind_eq_ok.mp h
    rw [← Except.ok.inj h]
    exact ⟨rfl, rfl⟩
  · rw [← Except.ok.inj h]
    exact ⟨rfl, rfl⟩

theorem event_base_loop_base (own : RunTimers) (es : List LoopEvent) :
    KeepsBase (event_base_loop own es) := by
  induction es with
  | nil => exact keepsBase_ok
  | cons e es ih =>
    intro s t h
    cases e with
    | expire ev body ok =>
      rw [event_base_loop] at h
      split at h
      · obtain ⟨u, hu, h⟩ := bind_eq_ok.mp h
        have hexpire := expire_base (callback_base own ev body) ok _ _ hu
        split at h
        · rw [← Except.ok.inj h]
          exact hexpire
        · exact hexpire.trans (ih _ _ h)
      · exact ih _ _ h
    | pause => exact (pause_base s).trans (ih _ _ h)
    | resume => exact (resume_base s).trans (ih _ _ h)
    | shutdown =>
      obtain ⟨u, hu, h⟩ := bind_eq_ok.mp h
      exact (shutdown_base _ _ hu).trans (ih _ _ h)

theorem run_base (o : RunnerOutcome) : KeepsBase (run o) := by
  intro s t h
  obtain ⟨⟨msg, u⟩, hu, h⟩ := bind_eq_ok.mp h
  obtain ⟨⟨timer, v⟩, hv, h⟩ := bind_eq_ok.mp h
  have hmsg := addTimer_base (doProcessMsg_base o.firstMsg) hu
  have htimer : SameBase u v := by
    rw [runTimer] at hv
    split at hv
    · exact addTimer_base (doProcessTimer_base o.firstTimer) hv
    · obtain ⟨_, rfl⟩ := Prod.mk.inj (Except.ok.inj hv)
      exact ⟨rfl, rfl⟩
  have hactive : SameBase v { v with isActive := true } := ⟨rfl, rfl⟩
  exact hmsg.trans (htimer.trans (hactive.trans (event_base_loop_base _ _ _ _ h)))

theorem destroyEvents_base (es : List (ℕ × ℕ)) : KeepsBase (destroyEvents es) := by
  induction es with
  | nil => exact keepsBase_ok
  | cons e es ih =>
    intro s t h
    obtain ⟨_, _, h⟩ := bind_eq_ok.mp h
    obtain ⟨u, hu, h⟩ := bind_eq_ok.mp h
    obtain ⟨v, hv, h⟩ := bind_eq_ok.mp h
    exact (event_free_base hu).trans ((deleteTimer_base hv).trans (ih _ _ h))

theorem destroyHandler_base : KeepsBase destroyHandler := by
  intro s t h
  rw [destroyHandler] at h
  split at h
  · obtain ⟨_, _, h⟩ := bind_eq_ok.mp h
    obtain ⟨_, _, h⟩ := bind_eq_ok.mp h
    rw [← Except.ok.inj h]
    exact ⟨rfl, rfl⟩
  · rw [← Except.ok.inj h]
    exact ⟨rfl, rfl⟩

theorem deleteLog_base : KeepsBase deleteLog := by
  intro s t h
  rw [deleteLog] at h
  split at h
  · rw [← Except.ok.inj h]
    exact ⟨rfl, rfl⟩
  · split at h
    · rw [← Except.ok.inj h]
      exact ⟨rfl, rfl⟩
    · cases h

/-- The test before `event_base_free` is the wrong way round. -/
theorem destroy_base (hbase : s.event_base ≠ none) (h : s.destroy = .ok t) : SameBase s t := by
  obtain ⟨u, hu, h⟩ := bind_eq_ok.mp h
  obtain ⟨v, hv, h⟩ := bind_eq_ok.mp h
  obtain ⟨w, hw, h⟩ := bind_eq_ok.mp h
  have hevents := destroyEvents_base _ _ _ hu
  have hclear : SameBase u { u with events := ∅ } := ⟨rfl, rfl⟩
  have hcleared := hevents.trans hclear
  rw [destroyBase, if_neg (by rwa [hcleared.1])] at hv
  rw [← Except.ok.inj hv] at hw
  exact hcleared.trans ((destroyHandler_base _ _ hw).trans (deleteLog_base _ _ h))

theorem initRun_base (o : RunnerOutcome) : KeepsBase (initRun o) := by
  intro s t h
  obtain ⟨u, hu, h⟩ := bind_eq_ok.mp h
  have hinit := exec_base o.init _ _ hu
  split at h
  · obtain ⟨v, hv, h⟩ := bind_eq_ok.mp h
    have hnew : SameBase u u.newHandler := ⟨rfl, rfl⟩
    exact hinit.trans (hnew.trans ((run_base o _ _ hv).trans (exec_base o.unInit _ _ h)))
  · rw [← Except.ok.inj h]
    exact hinit

end Base

section Life

theorem destroy_null (hevents : s.events = ∅) (hbase : s.event_base = none)
    (hlog : s.log = none) : s.destroy = .error .null := by
  have hloop : destroyEvents s.events.toList s = .ok s := by
    rw [Std.ExtTreeMap.toList_eq_nil_iff.mpr hevents, destroyEvents]
  have hnull : ({ s with events := ∅ } : Runner).destroyBase = .error .null := by
    simp [destroyBase, hbase, atLog, hlog]
  rw [destroy, hloop, ok_bind, hnull, error_bind]

theorem destroyBase_left (h : s.destroyBase = .ok t) :
    t.events = s.events ∧ (s.event_base = none → t.event_base = none) := by
  rw [destroyBase] at h
  split at h
  · rename_i hnone
    obtain ⟨_, _, h⟩ := bind_eq_ok.mp h
    obtain ⟨u, hu, h⟩ := bind_eq_ok.mp h
    rw [hnone, event_base_free] at hu
    rw [← Except.ok.inj h, ← Except.ok.inj hu]
    exact ⟨rfl, fun _ => rfl⟩
  · rw [← Except.ok.inj h]
    exact ⟨rfl, id⟩

theorem destroyHandler_events (h : s.destroyHandler = .ok t) : t.events = s.events := by
  rw [destroyHandler] at h
  split at h
  · obtain ⟨_, _, h⟩ := bind_eq_ok.mp h
    obtain ⟨_, _, h⟩ := bind_eq_ok.mp h
    rw [← Except.ok.inj h]
  · rw [← Except.ok.inj h]

theorem deleteLog_left (h : s.deleteLog = .ok t) : t.events = s.events ∧ t.log = none := by
  rw [deleteLog] at h
  split at h
  · rename_i hnone
    rw [← Except.ok.inj h]
    exact ⟨rfl, hnone⟩
  · split at h
    · rw [← Except.ok.inj h]
      exact ⟨rfl, rfl⟩
    · cases h

/-- Whatever ran before, the next `Destroy` finds no timers and no log. -/
theorem destroy_left (h : s.destroy = .ok t) :
    t.events = ∅ ∧ t.log = none ∧ (s.event_base = none → t.event_base = none) := by
  obtain ⟨u, hu, h⟩ := bind_eq_ok.mp h
  obtain ⟨v, hv, h⟩ := bind_eq_ok.mp h
  obtain ⟨w, hw, h⟩ := bind_eq_ok.mp h
  obtain ⟨hevents, hbase⟩ := destroyBase_left hv
  obtain ⟨hevents', hlog⟩ := deleteLog_left h
  refine ⟨?_, hlog, ?_⟩
  · rw [hevents', destroyHandler_events hw, hevents]
  · intro hnone
    have hloop := (destroyEvents_base _ _ _ hu).1
    rw [(deleteLog_base _ _ h).1, (destroyHandler_base _ _ hw).1]
    exact hbase (hloop.trans hnone)

/-- Without a base the destructor calls through the null `m_Log`. -/
theorem runnerProc_null {o : RunnerOutcome} {tv : UInt32} {p : Bool × Runner}
    (hbase : o.base = false) (h : (start tv).runnerProc o = .ok p) :
    p.2.destroy = .error .null := by
  have hnone : ((if o.log then (start tv).newLog else start tv).event_base_new o.base).event_base
      = none := by
    rw [event_base_new, if_neg (by rw [hbase]; decide)]
  rw [runnerProc, if_pos hnone] at h
  obtain ⟨t, ht, h⟩ := bind_eq_ok.mp h
  obtain ⟨hevents, hlog, hleft⟩ := destroy_left ht
  rw [← Except.ok.inj h]
  exact destroy_null hevents (hleft hnone) hlog

/-- No `Destroy` frees the base that `RunnerProc` has made. -/
theorem runnerProc_leaks {o : RunnerOutcome} {tv : UInt32} {p : Bool × Runner}
    (hbase : o.base = true) (h : (start tv).runnerProc o = .ok p) (ht : p.2.destroy = .ok t) :
    t.baseMem = (Arena.empty.alloc ()).2 := by
  have hnew : ((if o.log then (start tv).newLog else start tv).event_base_new o.base).event_base
      = some 0 ∧ ((if o.log then (start tv).newLog else start tv).event_base_new o.base).baseMem =
        (Arena.empty.alloc ()).2 := by
    rw [event_base_new, if_pos hbase]
    split <;> exact ⟨rfl, rfl⟩
  have hsome : ((if o.log then (start tv).newLog else start tv).event_base_new o.base).event_base
      ≠ none := by
    rw [hnew.1]
    exact nofun
  rw [runnerProc, if_neg hsome] at h
  obtain ⟨u, hu, h⟩ := bind_eq_ok.mp h
  obtain ⟨v, hv, h⟩ := bind_eq_ok.mp h
  rw [← Except.ok.inj h] at ht
  have hrun := initRun_base o _ _ hu
  have hfirst := hrun.trans (destroy_base (by rwa [hrun.1]) hv)
  have hboth := hfirst.trans (destroy_base (by rwa [hfirst.1]) ht)
  exact hboth.2.trans hnew.2

end Life

/-- No life ends as it should: one without a base comes to a null `m_Log` in the destructor, and
in any other the base is left. -/
theorem life_not_tornDown (tv : UInt32) (o : Option RunnerOutcome) : ¬ TornDown (life tv o) := by
  rintro ⟨t, ht, _, hbases, _⟩
  cases o with
  | none =>
    rw [life, destroy_null rfl rfl rfl] at ht
    cases ht
  | some o =>
    obtain ⟨p, hp, ht⟩ := bind_eq_ok.mp ht
    have hdestroy : p.2.destroy = .ok t := ht
    cases hbase : o.base with
    | false =>
      rw [runnerProc_null hbase hp] at hdestroy
      cases hdestroy
    | true =>
      rw [runnerProc_leaks hbase hp hdestroy] at hbases
      exact absurd (hbases 0 Nat.one_pos) (by decide)

/-- No run at all; no log and a timer from `Init`; and a run in which nothing fails, which leaves
everything but the base released. -/
theorem life_leaves_base :
    life 0 none = .error .null ∧
    life 0 (some ⟨false, true, .addTimer 1000 5 ⟨true, true, true⟩ .done .done, false,
      ⟨true, true, true⟩, .done, ⟨true, true, true⟩, .done, [], .done⟩) = .error .null ∧
    ∃ s, life 0 (some ⟨true, true, .done, true, ⟨true, true, true⟩, .done, ⟨true, true, true⟩,
        .done, [], .done⟩) = .ok s ∧
      s.logMem.Released ∧ ¬ s.baseMem.Released ∧ s.handlerMem.Released ∧
        s.eventMem.Released ∧ s.timerMem.Released := by
  refine ⟨rfl, rfl, _, rfl, ?_⟩
  decide

end Runner

end RgcFifa
