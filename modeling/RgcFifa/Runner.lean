import Std.Data.ExtTreeMap
import RgcFifa.Lib.Arena

/-! `WorkerRunner`: its timers and the other objects that it makes. What user code does in a
callback or in `Init` is a script of calls of `AddTimer` and `RemoveTimer`. -/

namespace RgcFifa

/-- Why a call does not return: it uses what has been freed or a null pointer. `idle` is an
expiration that does not come. -/
inductive RunnerFault where
  | freed
  | null
  | idle
  deriving DecidableEq, Repr

inductive TimerCallback where
  | process
  | firsttime
  deriving DecidableEq, Repr

/-- `arg` is the `TimerEvent` that the callback is called with, `pending` the timeout that has
been added. -/
structure Event where
  persist : Bool
  callback : TimerCallback
  arg : ℕ
  pending : Option (UInt32 × UInt32)
  deriving DecidableEq, Repr

structure TimerEvent where
  ev : Option ℕ
  interval : UInt32
  deriving DecidableEq, Repr

/-- Which of the allocations and calls of `AddTimer` succeed. -/
structure TimerCalls where
  te : Bool
  event : Bool
  add : Bool
  deriving DecidableEq, Repr

/-- A `WorkerRunner` and the objects of its thread. -/
structure Runner where
  isActive : Bool
  isPause : Bool
  checkPause : Bool
  msgHandler : Option ℕ
  timerinterval : UInt32
  log : Option ℕ
  event_base : Option ℕ
  events : Std.ExtTreeMap ℕ ℕ
  logMem : Arena Unit
  baseMem : Arena Unit
  handlerMem : Arena Unit
  eventMem : Arena Event
  timerMem : Arena TimerEvent

abbrev RunnerCall := Runner → Except RunnerFault Runner

/-- `{interval / 1000, (interval % 1000) * 1000}`. -/
def timeval (interval : UInt32) : UInt32 × UInt32 := (interval / 1000, interval % 1000 * 1000)

namespace Runner

/-- After the constructor. -/
def start (tv : UInt32) : Runner where
  isActive := false
  isPause := false
  checkPause := false
  msgHandler := none
  timerinterval := tv
  log := none
  event_base := none
  events := ∅
  logMem := Arena.empty
  baseMem := Arena.empty
  handlerMem := Arena.empty
  eventMem := Arena.empty
  timerMem := Arena.empty

section Library

variable (s : Runner)

/-- An access to an event, for the calls of the library. -/
def atEvent (ev : ℕ) : Except RunnerFault Event :=
  match s.eventMem.cells ev with
  | some e => .ok e
  | none => .error .freed

def atTimer (te : ℕ) : Except RunnerFault TimerEvent :=
  match s.timerMem.cells te with
  | some t => .ok t
  | none => .error .freed

def setEvent (ev : ℕ) (e : Event) : Runner := { s with eventMem := s.eventMem.set ev e }

def setTimer (te : ℕ) (t : TimerEvent) : Runner := { s with timerMem := s.timerMem.set te t }

def event_new (ok persist : Bool) (callback : TimerCallback) (te : ℕ) : Option ℕ × Runner :=
  if ok then
    let new := s.eventMem.alloc ⟨persist, callback, te, none⟩
    (some new.1, { s with eventMem := new.2 })
  else (none, s)

/-- Leaves the event as it is when it fails. -/
def event_add (ok : Bool) (ev : ℕ) (tv : UInt32 × UInt32) :
    Except RunnerFault (Bool × Runner) := do
  let e ← s.atEvent ev
  if ok then .ok (true, s.setEvent ev { e with pending := some tv }) else .ok (false, s)

def event_del (ev : ℕ) : Except RunnerFault Runner := do
  let e ← s.atEvent ev
  .ok (s.setEvent ev { e with pending := none })

def event_assign (ev : ℕ) (persist : Bool) (callback : TimerCallback) (te : ℕ) :
    Except RunnerFault Runner := do
  let _ ← s.atEvent ev
  .ok (s.setEvent ev ⟨persist, callback, te, none⟩)

def event_free (ev : ℕ) : Except RunnerFault Runner := do
  let _ ← s.atEvent ev
  .ok { s with eventMem := s.eventMem.release ev }

/-- `delete te`. -/
def deleteTimer (te : ℕ) : Except RunnerFault Runner := do
  let _ ← s.atTimer te
  .ok { s with timerMem := s.timerMem.release te }

end Library

/-- The branches of `AddTimer`, with `persist` and `callback` for what they give `event_new`. A
timer that starts at once calls `cb` before it is in the map. -/
def addEvent (delay : UInt32) (persist : Bool) (callback : TimerCallback) (o : TimerCalls)
    (te : ℕ) (cb : RunnerCall) (s : Runner) : Except RunnerFault (Option ℕ × Runner) := do
  match s.event_new o.event persist callback te with
  | (none, s) => do
      let s ← s.deleteTimer te
      .ok (none, s)
  | (some ev, s) => do
      let t ← s.atTimer te
      let s := s.setTimer te { t with ev := some ev }
      match ← s.event_add o.add ev (timeval delay) with
      | (false, s) => do
          let s ← s.event_free ev
          let s ← s.deleteTimer te
          .ok (none, s)
      | (true, s) => do
          let s ← cb s
          .ok (some ev, { s with events := s.events.insert ev te })

/-- `none` is the null pointer. -/
def addTimer (interval firstInterval : UInt32) (o : TimerCalls) (cb : RunnerCall)
    (s : Runner) : Except RunnerFault (Option ℕ × Runner) :=
  if o.te then
    let new := s.timerMem.alloc ⟨none, interval⟩
    let s := { s with timerMem := new.2 }
    if firstInterval = 0 ∨ firstInterval = 0xFFFFFFFF then
      s.addEvent interval true .process o new.1 (if firstInterval = 0 then cb else .ok)
    else s.addEvent firstInterval false .firsttime o new.1 .ok
  else .ok (none, s)

def removeTimer (timer : ℕ) (s : Runner) : Except RunnerFault (Bool × Runner) :=
  match s.events[timer]? with
  | some te => do
      let s ← s.event_free timer
      let s ← s.deleteTimer te
      .ok (true, { s with events := s.events.erase timer })
  | none => .ok (false, s)

end Runner

/-- The calls of user code in their order; `body` is what the callback of a timer does that starts
at once. -/
inductive Script where
  | done
  | addTimer (interval firstInterval : UInt32) (o : TimerCalls) (body next : Script)
  | removeTimer (timer : ℕ) (next : Script)

def Script.exec : Script → RunnerCall
  | done, s => .ok s
  | addTimer interval firstInterval o body next, s => do
      let (_, s) ← s.addTimer interval firstInterval o body.exec
      next.exec s
  | removeTimer timer next, s => do
      let (_, s) ← s.removeTimer timer
      next.exec s

namespace Runner

def event_timer_process (te : ℕ) (cb : RunnerCall) (s : Runner) :
    Except RunnerFault Runner := do
  let _ ← s.atTimer te
  cb s

/-- `ok` is whether `event_add` succeeds. -/
def event_timer_process_firsttime (te : ℕ) (cb : RunnerCall) (ok : Bool) (s : Runner) :
    Except RunnerFault Runner := do
  let _ ← s.atTimer te
  let s ← cb s
  -- `te` and its event are used after the callback has returned
  let t ← s.atTimer te
  match t.ev with
  | none => .error .null
  | some ev => do
      let s ← s.event_del ev
      let s ← s.event_assign ev true .process te
      match ← s.event_add ok ev (timeval t.interval) with
      | (true, s) => .ok s
      | (false, s) => do
          let s ← { s with events := s.events.erase ev }.event_free ev
          s.deleteTimer te

/-- An event that is not persistent is no longer pending when its callback is called. -/
def expire (ev : ℕ) (cb : RunnerCall) (ok : Bool) (s : Runner) :
    Except RunnerFault Runner :=
  match s.eventMem.cells ev with
  | some e =>
      if e.pending.isSome then
        let s := if e.persist then s else s.setEvent ev { e with pending := none }
        match e.callback with
        | .process => s.event_timer_process e.arg cb
        | .firsttime => s.event_timer_process_firsttime e.arg cb ok
      else .error .idle
  | none => .error .idle

end Runner

inductive TimerOp where
  | addTimer (interval firstInterval : UInt32) (o : TimerCalls) (body : Script)
  | removeTimer (timer : ℕ)
  | expire (ev : ℕ) (body : Script) (ok : Bool)

def TimerOp.exec : TimerOp → RunnerCall
  | addTimer interval firstInterval o body, s =>
      Prod.snd <$> s.addTimer interval firstInterval o body.exec
  | removeTimer timer, s => Prod.snd <$> s.removeTimer timer
  | expire ev body ok, s => s.expire ev body.exec ok

end RgcFifa
