import Mathlib.Tactic

/-! The event base and the events of the three services, through the loop of `run()`. Each
service has its own `destroy`, and the constructors leave `_ev_timer` as it is. -/

namespace RgcFifa

/-- `wild` is what an uninitialised pointer may hold. -/
inductive Ptr where
  | null
  | wild
  | to (id : ℕ)
  deriving DecidableEq, Repr

inductive LibCall where
  | baseNew (id : ℕ)
  | eventNew (id : ℕ)
  | del (p : Ptr)
  | free (p : Ptr)
  deriving DecidableEq, Repr

inductive ServiceClass where
  | slave | master | client
  deriving DecidableEq, Repr

/-- The pointers of all three classes. `calls` are the calls of libevent, and an object has as
its identity the place of the call that made it. -/
structure EventService where
  evBase : Ptr
  evOp : Ptr
  evTick : Ptr
  evServer : Ptr
  evTimer : Ptr
  calls : List LibCall
  deriving DecidableEq

/-- Which calls of one iteration succeed: `event_base_new` and the first and second `event_new`. -/
structure Outcome where
  base : Bool
  first : Bool
  second : Bool
  deriving DecidableEq

def Outcome.silent (o : Outcome) : Bool := !o.first && !o.second

namespace EventService

def call (c : LibCall) (s : EventService) : EventService := { s with calls := s.calls ++ [c] }

def event_base_new (ok : Bool) (s : EventService) : Ptr × EventService :=
  if ok then (.to s.calls.length, s.call (.baseNew s.calls.length)) else (.null, s)

def event_new (ok : Bool) (s : EventService) : Ptr × EventService :=
  if ok then (.to s.calls.length, s.call (.eventNew s.calls.length)) else (.null, s)

/-- `TcpService::destroy`. -/
def destroyBase (s : EventService) : EventService :=
  if s.evBase ≠ .null then { s.call (.free s.evBase) with evBase := .null } else s

/-- `TcpSlaveServer::destroy`. -/
def destroySlave (s : EventService) : EventService :=
  let s := if s.evOp ≠ .null then { s.call (.del s.evOp) with evOp := .null } else s
  let s := if s.evTick ≠ .null then { s.call (.del s.evTick) with evTick := .null } else s
  s.destroyBase

/-- `TcpMasterServer::destroy`, which resets `_ev_server` twice. -/
def destroyMaster (s : EventService) : EventService :=
  let s := if s.evServer ≠ .null then
      { (s.call (.del s.evServer)).call (.free s.evServer) with evServer := .null }
    else s
  if s.evTimer ≠ .null then
    { (s.call (.del s.evTimer)).call (.free s.evTimer) with evServer := .null }
  else s

/-- `TcpClientService::destroy`. -/
def destroyClient (s : EventService) : EventService :=
  if s.evTimer ≠ .null then (s.call (.del s.evTimer)).call (.free s.evTimer) else s

def destroy : ServiceClass → EventService → EventService
  | .slave => destroySlave
  | .master => destroyMaster
  | .client => destroyClient

/-- `false` comes with the exception `std::bad_alloc`. -/
def initServer (c : ServiceClass) (ok : Bool) (s : EventService) : Bool × EventService :=
  if s.evBase ≠ .null then (true, s)
  else
    let (base, t) := s.event_base_new ok
    let t := { t with evBase := base }
    if base = .null then (false, t.destroy c) else (true, t)

def postInitServer (c : ServiceClass) (first second : Bool) (s : EventService) :
    Bool × EventService :=
  match c with
  | .slave =>
      let (op, s) := s.event_new first
      let s := { s with evOp := op }
      let (tick, s) := s.event_new second
      (true, { s with evTick := tick })
  | .master =>
      let (server, s) := s.event_new first
      let s := { s with evServer := server }
      if server = .null then (false, s.destroy .master)
      else
        let (timer, s) := s.event_new second
        (true, { s with evTimer := timer })
  | .client =>
      let (timer, s) := s.event_new first
      (true, { s with evTimer := timer })

/-- The loop of `run()`, until it ends or an exception leaves it. -/
def run (c : ServiceClass) : List Outcome → EventService → EventService
  | [], s => s
  | o :: os, s =>
      match s.initServer c o.base with
      | (false, s) => s
      | (true, s) =>
          match s.postInitServer c o.first o.second with
          | (false, s) => s
          | (true, s) => run c os (s.destroy c)

/-- After the constructor, which has made the event base. -/
def start (garbage : Bool) : EventService where
  evBase := .to 0
  evOp := .null
  evTick := .null
  evServer := .null
  evTimer := if garbage then .wild else .null
  calls := [.baseNew 0]

structure Released (c : ServiceClass) (s : EventService) : Prop where
  once : ∀ id, .baseNew id ∈ s.calls ∨ .eventNew id ∈ s.calls →
    s.calls.count (.free (.to id)) = 1
  live : s.calls.Pairwise fun x y => ∀ p, x = .free p → y ≠ .del p ∧ y ≠ .free p
  again : s.destroy c = s

/-- The loop is entered, and no `event_new` that is called in it succeeds. -/
def Eventless : List Outcome → Prop
  | [] => False
  | o :: os => o.silent = true ∧ ∀ o' ∈ os.takeWhile Outcome.base, o'.silent = true

/-- Something has been made that `destroy` does not come to free. -/
structure Kept (c : ServiceClass) (id : ℕ) (s : EventService) : Prop where
  made : .baseNew id ∈ s.calls ∨ .eventNew id ∈ s.calls
  unfreed : .free (.to id) ∉ s.calls
  old : id < s.calls.length
  unheld : match c with
    | .slave => s.evBase ≠ .to id
    | .master => s.evServer ≠ .to id ∧ s.evTimer ≠ .to id
    | .client => s.evTimer ≠ .to id

variable {c : ServiceClass} {id : ℕ} {ok : Bool} {s t : EventService}

theorem Kept.not_released (h : Kept c id s) : ¬ Released c s := by
  intro hr
  have hone := hr.once id h.made
  rw [List.count_eq_zero.mpr h.unfreed] at hone
  cases hone

/-- More calls change nothing, if none of them frees the object. -/
theorem Kept.extend {cs : List LibCall} (h : Kept c id s) (ht : t.calls = s.calls ++ cs)
    (hcs : .free (.to id) ∉ cs) (hheld : match c with
      | .slave => t.evBase ≠ .to id
      | .master => t.evServer ≠ .to id ∧ t.evTimer ≠ .to id
      | .client => t.evTimer ≠ .to id) : Kept c id t where
  made := by
    rw [ht]
    exact h.made.imp (List.mem_append_left _) (List.mem_append_left _)
  unfreed := by
    rw [ht, List.mem_append, not_or]
    exact ⟨h.unfreed, hcs⟩
  old := by
    rw [ht, List.length_append]
    exact Nat.lt_add_right _ h.old
  unheld := hheld

theorem Kept.destroy_slave (h : Kept .slave id s) : Kept .slave id s.destroySlave := by
  have hop : Kept .slave id
      (if s.evOp ≠ .null then { s.call (.del s.evOp) with evOp := .null } else s) := by
    split_ifs
    · exact h.extend rfl (by simp) h.unheld
    · exact h
  rw [destroySlave]
  generalize (if s.evOp ≠ .null then { s.call (.del s.evOp) with evOp := .null } else s) = s₁
    at hop ⊢
  have htick : Kept .slave id
      (if s₁.evTick ≠ .null then { s₁.call (.del s₁.evTick) with evTick := .null } else s₁) := by
    split_ifs
    · exact hop.extend rfl (by simp) hop.unheld
    · exact hop
  generalize (if s₁.evTick ≠ .null then
    { s₁.call (.del s₁.evTick) with evTick := .null } else s₁) = s₂ at htick ⊢
  rw [destroyBase]
  split_ifs
  · have hne : s₂.evBase ≠ .to id := htick.unheld
    exact htick.extend rfl (by simpa using hne.symm) (by simp)
  · exact htick

theorem Kept.destroy_master (h : Kept .master id s) : Kept .master id s.destroyMaster := by
  have hserver : Kept .master id
      (if s.evServer ≠ .null then
        { (s.call (.del s.evServer)).call (.free s.evServer) with evServer := .null }
      else s) := by
    split_ifs
    · have hne : s.evServer ≠ .to id := h.unheld.1
      exact h.extend (List.append_assoc _ _ _) (by simpa using hne.symm) ⟨by simp, h.unheld.2⟩
    · exact h
  rw [destroyMaster]
  generalize (if s.evServer ≠ .null then
      { (s.call (.del s.evServer)).call (.free s.evServer) with evServer := .null }
    else s) = s₁ at hserver ⊢
  have hne : s₁.evTimer ≠ .to id := hserver.unheld.2
  dsimp only
  split_ifs
  · exact hserver.extend (List.append_assoc _ _ _) (by simpa using hne.symm) ⟨by simp, hne⟩
  · exact hserver

theorem Kept.destroy_client (h : Kept .client id s) : Kept .client id s.destroyClient := by
  have hne : s.evTimer ≠ .to id := h.unheld
  rw [destroyClient]
  split_ifs
  · exact h.extend (List.append_assoc _ _ _) (by simpa using hne.symm) hne
  · exact h

theorem Kept.destroy (h : Kept c id s) : Kept c id (s.destroy c) := by
  cases c with
  | slave => exact h.destroy_slave
  | master => exact h.destroy_master
  | client => exact h.destroy_client

theorem Kept.initServer (h : Kept c id s) (ok : Bool) : Kept c id (s.initServer c ok).2 := by
  rw [EventService.initServer]
  split_ifs with hb
  · exact h
  · cases ok with
    | false =>
      have hnull : s.evBase = .null := not_not.mp hb
      have hsame : { s with evBase := .null } = s := by rw [← hnull]
      simp only [event_base_new, Bool.false_eq_true, if_false, if_true, hsame]
      exact h.destroy
    | true =>
      simp only [event_base_new, if_true, reduceCtorEq, if_false]
      refine h.extend rfl (by simp) ?_
      have hold := h.old
      have hheld := h.unheld
      cases c with
      | slave => simp only [ne_eq, Ptr.to.injEq]; omega
      | master => exact hheld
      | client => exact hheld

theorem Kept.event_new (h : Kept c id s) (ok : Bool) :
    (s.event_new ok).1 ≠ .to id ∧ Kept c id (s.event_new ok).2 := by
  cases ok with
  | false => exact ⟨by simp [EventService.event_new], h⟩
  | true =>
    have hold := h.old
    simp only [EventService.event_new, if_true, ne_eq, Ptr.to.injEq]
    exact ⟨by omega, h.extend rfl (by simp) h.unheld⟩

theorem Kept.postInitServer (h : Kept c id s) (first second : Bool) :
    Kept c id (s.postInitServer c first second).2 := by
  obtain ⟨hne, h₁⟩ := h.event_new first
  cases c with
  | slave =>
    simp only [EventService.postInitServer]
    have hop : Kept .slave id { (s.event_new first).2 with evOp := (s.event_new first).1 } :=
      h₁.extend (List.append_nil _).symm List.not_mem_nil h₁.unheld
    obtain ⟨-, h₂⟩ := hop.event_new second
    exact h₂.extend (List.append_nil _).symm List.not_mem_nil h₂.unheld
  | master =>
    simp only [EventService.postInitServer]
    have hserver : Kept .master id
        { (s.event_new first).2 with evServer := (s.event_new first).1 } :=
      h₁.extend (List.append_nil _).symm List.not_mem_nil ⟨hne, h₁.unheld.2⟩
    split_ifs
    · exact hserver.destroy
    · obtain ⟨hne₂, h₂⟩ := hserver.event_new second
      exact h₂.extend (List.append_nil _).symm List.not_mem_nil ⟨h₂.unheld.1, hne₂⟩
  | client =>
    exact h₁.extend (List.append_nil _).symm List.not_mem_nil hne

theorem Kept.run (h : Kept c id s) (os : List Outcome) : Kept c id (run c os s) := by
  induction os generalizing s with
  | nil => exact h
  | cons o os ih =>
    have hi := h.initServer o.base
    rw [EventService.run]
    split
    · next s₁ heq => rw [heq] at hi; exact hi
    · next s₁ heq =>
      rw [heq] at hi
      have hp := hi.postInitServer o.first o.second
      split
      · next s₂ heq₂ => rw [heq₂] at hp; exact hp
      · next s₂ heq₂ => rw [heq₂] at hp; exact ih hp.destroy

/-- The base the constructor has made is held by no pointer that these two free. -/
theorem kept_start (hc : c ≠ .slave) (garbage : Bool) : Kept c 0 (start garbage) where
  made := .inl (by simp [start])
  unfreed := by simp [start]
  old := by simp [start]
  unheld := by
    cases c with
    | slave => exact absurd rfl hc
    | master => cases garbage <;> simp [start]
    | client => cases garbage <;> simp [start]

/-- A slave server between two iterations of the loop, with everything released so far. -/
structure Idle (s : EventService) : Prop where
  evBase : s.evBase = .null
  evOp : s.evOp = .null
  evTick : s.evTick = .null
  released : Released .slave s
  made : ∀ id, .baseNew id ∈ s.calls ∨ .eventNew id ∈ s.calls → id < s.calls.length
  freed : ∀ id, .free (.to id) ∈ s.calls → id < s.calls.length

theorem Idle.no_base (h : Idle s) : s.initServer .slave false = (false, s) := by
  have hnull := h.evBase
  have hsame : { s with evBase := .null } = s := by rw [← hnull]
  simp [EventService.initServer, event_base_new, hnull, hsame, h.released.again]

theorem Idle.base (h : Idle s) (hok : ok = true) : s.initServer .slave ok =
    (true, { s.call (.baseNew s.calls.length) with evBase := .to s.calls.length }) := by
  simp [EventService.initServer, event_base_new, h.evBase, hok]

/-- An iteration that makes only the base. -/
theorem Idle.cycle (h : Idle s) : Idle { s with
    calls := s.calls ++ [.baseNew s.calls.length, .free (.to s.calls.length)] } where
  evBase := h.evBase
  evOp := h.evOp
  evTick := h.evTick
  released :=
    { once := by
        intro id hmade
        have hnot : .free (.to s.calls.length) ∉ s.calls := fun hm => (h.freed _ hm).ne rfl
        by_cases hid : id = s.calls.length
        · subst hid
          simp [List.count_append, List.count_eq_zero.mpr hnot]
        · have hold : .baseNew id ∈ s.calls ∨ .eventNew id ∈ s.calls := by simpa [hid] using hmade
          simp [List.count_append, h.released.once id hold, Ne.symm hid]
      live := by
        refine List.pairwise_append.mpr ⟨h.released.live, by simp, ?_⟩
        rintro x hx y hy p rfl
        have hp : p ≠ .to s.calls.length := by
          rintro rfl
          exact (h.freed _ hx).ne rfl
        simp only [List.mem_cons, List.not_mem_nil, or_false] at hy
        obtain rfl | rfl := hy
        · simp
        · simpa using hp.symm
      again := by simp [destroy, destroySlave, destroyBase, h.evBase, h.evOp, h.evTick] }
  made := by
    intro id hid
    simp only [List.mem_append, List.mem_cons, LibCall.baseNew.injEq, reduceCtorEq,
      List.not_mem_nil, or_false] at hid
    have hold := h.made id
    simp only [List.length_append, List.length_cons, List.length_nil]
    rcases hid with (hm | rfl) | hm
    · exact Nat.lt_add_right _ (hold (.inl hm))
    · omega
    · exact Nat.lt_add_right _ (hold (.inr hm))
  freed := by
    intro id hid
    simp only [List.mem_append, List.mem_cons, LibCall.free.injEq, Ptr.to.injEq, reduceCtorEq,
      List.not_mem_nil, or_false, false_or] at hid
    simp only [List.length_append, List.length_cons, List.length_nil]
    rcases hid with hm | rfl
    · exact Nat.lt_add_right _ (h.freed id hm)
    · omega

/-- An iteration that makes no event goes on to the next one. -/
theorem run_silent {o : Outcome} (ho : o.silent = true) (os : List Outcome)
    (hi : s.initServer .slave o.base = (true, t)) (hop : t.evOp = .null) (htick : t.evTick = .null) :
    run .slave (o :: os) s = run .slave os (t.destroy .slave) := by
  have hsame : { t with evOp := .null, evTick := .null } = t := by
    cases t
    cases hop
    cases htick
    rfl
  simp only [Outcome.silent, Bool.and_eq_true, Bool.not_eq_true'] at ho
  simp [run, hi, EventService.postInitServer, EventService.event_new, ho, hsame]

theorem kept_eventNew (hb : t.evBase ≠ .to t.calls.length)
    (hfree : .free (.to t.calls.length) ∉ t.calls) :
    Kept .slave t.calls.length (t.call (.eventNew t.calls.length)) where
  made := .inr (by simp [call])
  unfreed := by simpa [call] using hfree
  old := by simp [call]
  unheld := hb

/-- An iteration that makes an event leaves it behind. -/
theorem run_loud {o : Outcome} (ho : o.silent = false) (os : List Outcome)
    (hi : s.initServer .slave o.base = (true, t)) (hb : t.evBase ≠ .to t.calls.length)
    (hfree : .free (.to t.calls.length) ∉ t.calls) : ¬ Released .slave (run .slave (o :: os) s) := by
  have hp : (t.postInitServer .slave o.first o.second).1 = true := rfl
  have hnew := kept_eventNew hb hfree
  have hkept : Kept .slave t.calls.length (t.postInitServer .slave o.first o.second).2 := by
    cases hfirst : o.first with
    | true =>
      have hop : Kept .slave t.calls.length
          { t.call (.eventNew t.calls.length) with evOp := .to t.calls.length } :=
        hnew.extend (List.append_nil _).symm List.not_mem_nil hnew.unheld
      obtain ⟨-, h₂⟩ := hop.event_new o.second
      exact h₂.extend (List.append_nil _).symm List.not_mem_nil h₂.unheld
    | false =>
      have hsecond : o.second = true := by simpa [Outcome.silent, hfirst] using ho
      rw [hsecond]
      exact hnew.extend (List.append_nil _).symm List.not_mem_nil hnew.unheld
  have hr : run .slave (o :: os) s =
      run .slave os ((t.postInitServer .slave o.first o.second).2.destroy .slave) := by
    rw [run, hi]
    rfl
  rw [hr]
  exact (hkept.destroy.run os).not_released

theorem run_idle (h : Idle s) (os : List Outcome) :
    Released .slave (run .slave os s) ↔ ∀ o ∈ os.takeWhile Outcome.base, o.silent = true := by
  induction os generalizing s with
  | nil => exact iff_of_true h.released (by simp)
  | cons o os ih =>
    cases hbase : o.base with
    | false =>
      refine iff_of_true ?_ (by simp [hbase])
      rw [run, hbase, h.no_base]
      exact h.released
    | true =>
      have hi := h.base hbase
      rw [List.takeWhile_cons_of_pos hbase, List.forall_mem_cons]
      cases ho : o.silent with
      | false =>
        refine iff_of_false (run_loud ho os hi (by simp [call]) ?_) (by simp)
        intro hfree
        have hlt := h.freed (s.calls.length + 1) (by simpa [call] using hfree)
        omega
      | true =>
        have hcycle := ih h.cycle
        rw [run_silent ho os hi h.evOp h.evTick]
        simpa [destroy, destroySlave, destroyBase, call, h.evOp, h.evTick, h.evBase] using hcycle

theorem not_released_start (garbage : Bool) : ¬ Released .slave (start garbage) := by
  intro hr
  have hone := hr.once 0 (by simp [start])
  simp [start] at hone

/-- After an iteration that frees the base of the constructor and makes nothing. -/
theorem idle_start (garbage : Bool) : Idle ((start garbage).destroy .slave) where
  evBase := rfl
  evOp := rfl
  evTick := rfl
  released :=
    { once := by simp [start, destroy, destroySlave, destroyBase, call]
      live := by simp [start, destroy, destroySlave, destroyBase, call]
      again := rfl }
  made := by simp [start, destroy, destroySlave, destroyBase, call]
  freed := by simp [start, destroy, destroySlave, destroyBase, call]

end EventService

open EventService in
theorem teardown_released_iff (c : ServiceClass) (garbage : Bool) (os : List Outcome) :
    Released c (run c os (start garbage)) ↔ c = .slave ∧ Eventless os := by
  by_cases hc : c = .slave
  · subst hc
    rw [eq_self_iff_true, true_and]
    cases os with
    | nil => exact iff_of_false (not_released_start garbage) not_false
    | cons o os =>
      have hi : (start garbage).initServer .slave o.base = (true, start garbage) := rfl
      cases ho : o.silent with
      | false =>
        refine iff_of_false (run_loud ho os hi ?_ ?_) (by simp [Eventless, ho])
        · simp [start]
        · simp [start]
      | true =>
        rw [run_silent ho os hi rfl rfl, run_idle (idle_start garbage)]
        simp [Eventless, ho]
  · exact iff_of_false ((kept_start hc garbage).run os).not_released (by simp [hc])

/-- With nothing failing, a slave server makes two events and frees neither, a second `destroy` of
a master server frees a timer that has been freed, and its base stays. -/
theorem teardown_leaks :
    let ok : List Outcome := [⟨true, true, true⟩]
    (EventService.run .slave ok (.start false)).calls =
        [.baseNew 0, .eventNew 1, .eventNew 2, .del (.to 1), .del (.to 2), .free (.to 0)] ∧
      (EventService.run .master ok (.start false)).calls =
        [.baseNew 0, .eventNew 1, .eventNew 2, .del (.to 1), .free (.to 1), .del (.to 2),
          .free (.to 2)] ∧
      ((EventService.run .master ok (.start false)).destroy .master).calls =
        (EventService.run .master ok (.start false)).calls ++ [.del (.to 2), .free (.to 2)] ∧
      ((EventService.run .client ok (.start false)).destroy .client).calls =
        [.baseNew 0, .eventNew 1, .del (.to 1), .free (.to 1), .del (.to 1), .free (.to 1)] ∧
      ¬ EventService.Released .slave (EventService.run .slave ok (.start false)) ∧
      ¬ EventService.Released .master (EventService.run .master ok (.start false)) ∧
      ¬ EventService.Released .client (EventService.run .client ok (.start false)) := by
  refine ⟨by decide, by decide, by decide, by decide, ?_, ?_, ?_⟩
  · intro hr
    exact absurd (hr.once 1 (by decide)) (by decide)
  · intro hr
    exact absurd (hr.once 0 (by decide)) (by decide)
  · intro hr
    exact absurd (hr.once 0 (by decide)) (by decide)

end RgcFifa
