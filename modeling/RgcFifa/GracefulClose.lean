import RgcFifa.Lib.Transition

/-! The output side of a `TcpConduit`. Its bufferevent defers callbacks, so that data can be sent
between the drain that schedules `on_write` and the call of it. -/

namespace RgcFifa

open Transition

/-- `output` is the output buffer, `writable` whether `EV_WRITE` is enabled, and `deferred` whether
a write callback is due. The last four fields are history. -/
structure ConduitOutput where
  output : List UInt8
  writable : Bool
  deferred : Bool
  pendclose : Bool
  sent : List UInt8
  handed : List UInt8
  shutdowns : ℕ
  pendCloses : ℕ
  deriving DecidableEq, Repr

namespace ConduitOutput

def start : ConduitOutput := ⟨[], true, false, false, [], [], 0, 0⟩

section Calls

variable (s : ConduitOutput)

def send (buf : List UInt8) : ConduitOutput :=
  { s with output := s.output ++ buf, sent := s.sent ++ buf }

def closeConn : ConduitOutput := { s with writable := false, shutdowns := s.shutdowns + 1 }

def on_write : ConduitOutput :=
  if s.pendclose then
    if s.output.length > 0 then s else closeConn { s with pendclose := false }
  else s

/-- Lingering is left out. -/
def pendClose : ConduitOutput :=
  if s.output.length = 0 then closeConn { s with pendclose := false } else { s with pendclose := true }

/-- The transport takes bytes; the callback is due when it has taken all. -/
def drain (n : ℕ) : ConduitOutput :=
  { s with
    output := s.output.drop n
    handed := s.handed ++ s.output.take n
    deferred := s.deferred || s.output.length ≤ n }

end Calls

inductive OutputEvent where
  | send (buf : List UInt8)
  | drain (n : ℕ)
  | on_write
  | pendClose
  deriving DecidableEq, Repr

def step : OutputEvent → ConduitOutput → Option ConduitOutput
  | .send buf, s => some (s.send buf)
  | .drain n, s => if s.writable ∧ 0 < n ∧ n ≤ s.output.length then some (s.drain n) else none
  | .on_write, s => if s.deferred then some (on_write { s with deferred := false }) else none
  | .pendClose, s => some (pendClose { s with pendCloses := s.pendCloses + 1 })

/-- A pending close has data to wait for, or a callback that is due. -/
structure Inv (s : ConduitOutput) : Prop where
  bytes : s.handed ++ s.output = s.sent
  closes : s.shutdowns + (if s.pendclose then 1 else 0) ≤ s.pendCloses
  due : s.pendclose → s.output = [] → s.deferred

variable {s t u : ConduitOutput} {e : OutputEvent} {es : List OutputEvent}

theorem inv_start : start.Inv := ⟨rfl, le_rfl, nofun⟩

theorem on_write_cases (s : ConduitOutput) :
    s.pendclose ∧ s.output = [] ∧ s.on_write = closeConn { s with pendclose := false } ∨
      ¬ (s.pendclose ∧ s.output = []) ∧ s.on_write = s := by
  unfold on_write
  by_cases hpend : s.pendclose = true
  · by_cases hout : s.output = []
    · simp [hpend, hout]
    · simp [hpend, hout, List.length_pos_iff]
  · simp [hpend]

theorem pendClose_cases (s : ConduitOutput) :
    s.output = [] ∧ s.pendClose = closeConn { s with pendclose := false } ∨
      s.output ≠ [] ∧ s.pendClose = { s with pendclose := true } := by
  unfold pendClose
  by_cases hout : s.output = []
  · simp [hout]
  · simp [hout]

theorem drain_eq {n : ℕ} (h : step (.drain n) s = some t) : s.drain n = t :=
  Option.some.inj (Option.ite_none_right_eq_some.mp h).2

theorem step_inv (e : OutputEvent) (s t : ConduitOutput) (hs : s.Inv) (h : step e s = some t) :
    t.Inv := by
  obtain ⟨hbytes, hcloses, hdue⟩ := hs
  cases e with
  | send buf =>
    obtain rfl := Option.some.inj h
    refine ⟨?_, hcloses, ?_⟩
    · simp only [send, ← hbytes, List.append_assoc]
    · intro hpend hout
      exact hdue hpend (List.append_eq_nil_iff.mp hout).1
  | drain n =>
    obtain rfl := drain_eq h
    refine ⟨?_, hcloses, ?_⟩
    · simp only [drain, List.append_assoc, List.take_append_drop, hbytes]
    · intro _ hout
      simp [drain, List.drop_eq_nil_iff.mp hout]
  | on_write =>
    obtain ⟨_, h⟩ := Option.ite_none_right_eq_some.mp h
    rcases on_write_cases { s with deferred := false } with ⟨hpend, hout, heq⟩ | ⟨hnot, heq⟩
    · rw [heq] at h
      obtain rfl := Option.some.inj h
      refine ⟨hbytes, ?_, nofun⟩
      simpa [closeConn, show s.pendclose = true from hpend] using hcloses
    · rw [heq] at h
      obtain rfl := Option.some.inj h
      exact ⟨hbytes, hcloses, fun hpend hout => absurd ⟨hpend, hout⟩ hnot⟩
  | pendClose =>
    rcases pendClose_cases { s with pendCloses := s.pendCloses + 1 } with ⟨hout, heq⟩ | ⟨hout, heq⟩
    · rw [step, heq] at h
      obtain rfl := Option.some.inj h
      refine ⟨hbytes, ?_, nofun⟩
      simp only [closeConn, Bool.false_eq_true, if_false]
      omega
    · rw [step, heq] at h
      obtain rfl := Option.some.inj h
      refine ⟨hbytes, ?_, fun _ hnil => absurd hnil hout⟩
      simp only [if_true]
      omega

/-- Only `closeConn` shuts the socket down, and it is called with the buffer empty. -/
theorem step_shutdown (h : step e s = some t) : t.shutdowns = s.shutdowns ∨
    s.output = [] ∧ t.shutdowns = s.shutdowns + 1 := by
  cases e with
  | send buf =>
    obtain rfl := Option.some.inj h
    exact .inl rfl
  | drain n =>
    obtain rfl := drain_eq h
    exact .inl rfl
  | on_write =>
    obtain ⟨_, h⟩ := Option.ite_none_right_eq_some.mp h
    obtain rfl := Option.some.inj h
    rcases on_write_cases { s with deferred := false } with ⟨_, hout, heq⟩ | ⟨_, heq⟩
    · rw [heq]
      exact .inr ⟨hout, rfl⟩
    · rw [heq]
      exact .inl rfl
  | pendClose =>
    obtain rfl := Option.some.inj h
    rcases pendClose_cases { s with pendCloses := s.pendCloses + 1 } with ⟨hout, heq⟩ | ⟨_, heq⟩
    · rw [heq]
      exact .inr ⟨hout, rfl⟩
    · rw [heq]
      exact .inl rfl

/-- Until a callback a pending close stays so, or the socket is shut down. -/
theorem step_pending (he : e ≠ .on_write) (h : step e s = some t) (hs : s.pendclose) :
    s.shutdowns < t.shutdowns ∨ t.pendclose := by
  cases e with
  | send buf =>
    obtain rfl := Option.some.inj h
    exact .inr hs
  | drain n =>
    obtain rfl := drain_eq h
    exact .inr hs
  | on_write => exact absurd rfl he
  | pendClose =>
    obtain rfl := Option.some.inj h
    rcases pendClose_cases { s with pendCloses := s.pendCloses + 1 } with ⟨_, heq⟩ | ⟨_, heq⟩
    · rw [heq]
      exact .inl (Nat.lt_succ_self _)
    · rw [heq]
      exact .inr rfl

theorem step_shutdowns_le (h : step e s = some t) : s.shutdowns ≤ t.shutdowns := by
  rcases step_shutdown h with heq | ⟨_, heq⟩ <;> omega

theorem run_pending (hes : ∀ e ∈ es, e ≠ .on_write) (h : run step es s = some t)
    (hs : s.pendclose) : s.shutdowns < t.shutdowns ∨ t.pendclose ∧ s.shutdowns ≤ t.shutdowns := by
  induction es generalizing s with
  | nil =>
    obtain rfl := Option.some.inj h
    exact .inr ⟨hs, le_rfl⟩
  | cons e es ih =>
    obtain ⟨he, hes⟩ := List.forall_mem_cons.mp hes
    obtain ⟨v, hv, hrest⟩ := run_cons.mp h
    have hmono : v.shutdowns ≤ t.shutdowns := run_preserves (I := fun w => v.shutdowns ≤ w.shutdowns)
      (fun e w w' hw hw' => hw.trans (step_shutdowns_le hw')) le_rfl hrest
    have hfirst := step_shutdowns_le hv
    rcases step_pending he hv hs with hlt | hpend
    · left
      omega
    · rcases ih hes hrest hpend with hlt | ⟨hpend', hle⟩
      · left
        omega
      · right
        exact ⟨hpend', hfirst.trans hle⟩

/-- In every run the socket is shut down only when all that was sent has been handed to the
transport, and not more often than `pendClose` was called. Where a close is pending with nothing
left to send, a write callback is due, and once the next one has run, the socket has been shut down
or there is data again. -/
theorem shutdown_flushed (es : List OutputEvent) (h : run step es .start = some s) :
    (∀ e t, step e s = some t → s.shutdowns < t.shutdowns → s.output = [] ∧ s.handed = s.sent ∧
      t.shutdowns = s.shutdowns + 1) ∧
    s.shutdowns ≤ s.pendCloses ∧
    (s.pendclose → s.output = [] → s.deferred ∧
      ∀ es' t u, (∀ e ∈ es', e ≠ .on_write) → run step es' s = some t →
        step .on_write t = some u → s.shutdowns < u.shutdowns ∨ u.pendclose ∧ u.output ≠ []) := by
  have hs : s.Inv := run_preserves step_inv inv_start h
  refine ⟨?_, ?_, ?_⟩
  · intro e t ht hlt
    obtain ⟨hout, heq⟩ := (step_shutdown ht).resolve_left hlt.ne'
    refine ⟨hout, ?_, heq⟩
    rw [← hs.bytes, hout, List.append_nil]
  · exact (Nat.le_add_right _ _).trans hs.closes
  · intro hpend hout
    refine ⟨hs.due hpend hout, ?_⟩
    intro es' t u hes' ht hu
    have hmono := step_shutdowns_le hu
    rcases run_pending hes' ht hpend with hlt | ⟨hpend', hle⟩
    · left
      omega
    · obtain ⟨_, hu⟩ := Option.ite_none_right_eq_some.mp hu
      obtain rfl := Option.some.inj hu
      rcases on_write_cases { t with deferred := false } with ⟨_, _, heq⟩ | ⟨hnot, heq⟩
      · left
        rw [heq]
        exact Nat.lt_succ_of_le hle
      · right
        rw [heq]
        exact ⟨hpend', fun hnil => hnot ⟨hpend', hnil⟩⟩

/-- A byte is sent and drained with a close pending, and a second byte before the callback. -/
theorem shutdown_flushed_pending : ∃ s, run step [.send [1], .pendClose, .drain 1] .start = some s ∧
    s.shutdowns ≤ s.pendCloses ∧ (s.pendclose → s.output = [] → s.deferred ∧
      ∀ es' t u, (∀ e ∈ es', e ≠ .on_write) → run step es' s = some t →
        step .on_write t = some u → s.shutdowns < u.shutdowns ∨ u.pendclose ∧ u.output ≠ []) :=
  ⟨_, rfl, (shutdown_flushed [.send [1], .pendClose, .drain 1] rfl).2⟩

/-- Then the next callback does not shut the socket down. -/
theorem on_write_not_next : ∃ s t u,
    run step [.send [1], .pendClose, .drain 1] .start = some s ∧
      s.pendclose = true ∧ s.output = [] ∧
      run step [.send [2]] s = some t ∧ step .on_write t = some u ∧
      u.shutdowns = s.shutdowns :=
  ⟨_, _, _, rfl, rfl, rfl, rfl, rfl, rfl⟩

end ConduitOutput

end RgcFifa
