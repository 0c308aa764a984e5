import RgcFifa.Broadcast

/-! `enumerate`, whose early return leaves the loop of one worker. -/

namespace RgcFifa

variable {δ σ : Type*}

/-- A predicate that may keep a state of its own, which each worker gets a copy of together with
`data`, and may change a state that all calls share. -/
abbrev Pred (δ σ : Type*) := TcpConduit → δ → σ → Bool × δ × σ

/-- The loop of `TcpSlaveServer::enumerate`, with the conduits that the predicate was called on and
what it returned. -/
def TcpSlaveServer.enumerate (pred : Pred δ σ) :
    List (Option TcpConduit) → δ → σ → List (TcpConduit × Bool) × σ
  | [], _, w => ([], w)
  | none :: its, data, w => enumerate pred its data w
  | some conduit :: its, data, w =>
      match pred conduit data w with
      | (false, _, w) => ([(conduit, false)], w)
      | (true, data, w) =>
          let (calls, w) := enumerate pred its data w
          ((conduit, true) :: calls, w)

namespace TcpMasterServer

def enumerateLoop (pred : Pred δ σ) (data : δ) (m : TcpMasterServer) :
    List (Fin WORKERS) → σ → List (Fin WORKERS × TcpConduit × Bool) × σ
  | [], w => ([], w)
  | i :: is, w =>
      let (calls, w) := TcpSlaveServer.enumerate pred (m.workers i).server.conduits data w
      let (rest, w) := enumerateLoop pred data m is w
      (calls.map (i, ·) ++ rest, w)

def enumerate (pred : Pred δ σ) (data : δ) (m : TcpMasterServer) (w : σ) :
    List (Fin WORKERS × TcpConduit × Bool) × σ :=
  m.enumerateLoop pred data (List.finRange WORKERS) w

end TcpMasterServer

/-- What the predicate leaves of the shared state when it returns true for one conduit after
another. -/
def Pred.accepts (pred : Pred δ σ) : List TcpConduit → δ → σ → Option σ
  | [], _, w => some w
  | c :: cs, data, w =>
      match pred c data w with
      | (false, _, _) => none
      | (true, data, w) => pred.accepts cs data w

/-- The predicate accepts all conduits of a worker that workers with conduits come after. -/
def Pred.StopsLast (pred : Pred δ σ) (data : δ) : List (List TcpConduit) → σ → Prop
  | [], _ => True
  | cs :: css, w => (∀ ds ∈ css, ds = []) ∨ ∃ w' ∈ pred.accepts cs data w, pred.StopsLast data css w'

/-- There is nothing behind the first false. -/
def Stopped {α : Type*} (answer : α → Bool) (calls : List α) : Prop :=
  ∀ before call after, calls = before ++ call :: after → answer call = false → after = []

section Stopped

variable {α : Type*} {answer : α → Bool} {l r : List α}

theorem stopped_append (h : ∀ a ∈ l, answer a = true) :
    Stopped answer (l ++ r) ↔ Stopped answer r := by
  constructor
  · intro hs before call after he hfalse
    exact hs (l ++ before) call after (by rw [he, List.append_assoc]) hfalse
  · intro hs before call after he hfalse
    rcases List.append_eq_append_iff.mp he with ⟨mid, rfl, hr⟩ | ⟨mid, rfl, hr⟩
    · exact hs mid call after hr hfalse
    · cases mid with
      | nil => exact hs [] call after hr.symm hfalse
      | cons a mid =>
        obtain ⟨rfl, _⟩ := List.cons.inj hr
        rw [h call (by simp)] at hfalse
        cases hfalse

theorem stopped_false {a : α} (ha : answer a = false) : Stopped answer (a :: r) ↔ r = [] := by
  constructor
  · intro hs
    exact hs [] a r rfl ha
  · rintro rfl before call after he _
    cases before with
    | nil => exact (List.cons.inj he).2.symm
    | cons b before =>
      have hlen := congrArg List.length he
      simp at hlen

end Stopped

namespace TcpSlaveServer

variable {pred : Pred δ σ}

/-- The loop comes to the end of the table exactly when the predicate accepts all its conduits. -/
theorem enumerate_of_accepts (l : List (Option TcpConduit)) {data : δ} {w w' : σ}
    (h : pred.accepts l.reduceOption data w = some w') :
    enumerate pred l data w = (l.reduceOption.map (·, true), w') := by
  induction l generalizing data w with
  | nil =>
    obtain rfl := Option.some.inj h
    rfl
  | cons o l ih =>
    cases o with
    | none =>
      rw [List.reduceOption_cons_of_none] at h ⊢
      exact ih h
    | some c =>
      rw [List.reduceOption_cons_of_some] at h ⊢
      rw [Pred.accepts] at h
      rw [enumerate]
      rcases hp : pred c data w with ⟨_ | _, data', u⟩
      · rw [hp] at h
        cases h
      · rw [hp] at h
        simp only [ih h, List.map_cons]

theorem enumerate_of_refused (l : List (Option TcpConduit)) {data : δ} {w : σ}
    (h : pred.accepts l.reduceOption data w = none) : ∃ before c after,
      l.reduceOption = before ++ c :: after ∧
      (enumerate pred l data w).1 = before.map (·, true) ++ [(c, false)] := by
  induction l generalizing data w with
  | nil => cases h
  | cons o l ih =>
    cases o with
    | none =>
      rw [List.reduceOption_cons_of_none] at h ⊢
      exact ih h
    | some c =>
      rw [List.reduceOption_cons_of_some] at h ⊢
      rw [Pred.accepts] at h
      rw [enumerate]
      rcases hp : pred c data w with ⟨_ | _, data', u⟩
      · exact ⟨[], c, l.reduceOption, rfl, rfl⟩
      · rw [hp] at h
        obtain ⟨before, d, after, hl, hcalls⟩ := ih h
        refine ⟨c :: before, d, after, by rw [hl, List.cons_append], ?_⟩
        simp only [hcalls, List.map_cons, List.cons_append]

/-- From the first slot on, none is left out. -/
theorem enumerate_prefix (l : List (Option TcpConduit)) (data : δ) (w : σ) :
    (enumerate pred l data w).1.map Prod.fst <+: l.reduceOption := by
  cases h : pred.accepts l.reduceOption data w with
  | some w' =>
    have hid : (Prod.fst ∘ fun c : TcpConduit => (c, true)) = id := rfl
    rw [enumerate_of_accepts l h, List.map_map, hid, List.map_id]
  | none =>
    obtain ⟨before, c, after, hl, hcalls⟩ := enumerate_of_refused l h
    have hid : (Prod.fst ∘ fun c : TcpConduit => (c, true)) = id := rfl
    refine ⟨after, ?_⟩
    rw [hcalls, hl, List.map_append, List.map_map, hid, List.map_id, List.append_assoc]
    rfl

end TcpSlaveServer

namespace TcpMasterServer

variable {pred : Pred δ σ} {data : δ} {m : TcpMasterServer}

/-- The conduits of a worker, in the order of their slots. -/
def conduits (m : TcpMasterServer) (i : Fin WORKERS) : List TcpConduit :=
  (m.workers i).server.conduits.reduceOption

theorem enumerateLoop_cons (i : Fin WORKERS) (is : List (Fin WORKERS)) (w : σ) :
    (m.enumerateLoop pred data (i :: is) w).1 =
      (TcpSlaveServer.enumerate pred (m.workers i).server.conduits data w).1.map (i, ·) ++
        (m.enumerateLoop pred data is
          (TcpSlaveServer.enumerate pred (m.workers i).server.conduits data w).2).1 := rfl

theorem enumerateLoop_eq_nil {is : List (Fin WORKERS)} {w : σ} :
    (m.enumerateLoop pred data is w).1 = [] ↔ ∀ i ∈ is, m.conduits i = [] := by
  induction is generalizing w with
  | nil => simp [enumerateLoop]
  | cons i is ih =>
    rw [enumerateLoop_cons, List.forall_mem_cons, List.append_eq_nil_iff, List.map_eq_nil_iff, ih]
    apply and_congr_left
    intro _
    cases h : pred.accepts (m.conduits i) data w with
    | some w' =>
      rw [TcpSlaveServer.enumerate_of_accepts _ h, List.map_eq_nil_iff]
      rfl
    | none =>
      obtain ⟨before, c, after, hl, hcalls⟩ := TcpSlaveServer.enumerate_of_refused _ h
      rw [hcalls, conduits, hl]
      simp

theorem stopped_enumerateLoop {is : List (Fin WORKERS)} {w : σ} :
    Stopped (·.2.2) (m.enumerateLoop pred data is w).1 ↔
      pred.StopsLast data (is.map m.conduits) w := by
  induction is generalizing w with
  | nil => exact iff_of_true (fun before call after he => by simp [enumerateLoop] at he) trivial
  | cons i is ih =>
    have hempty : (∀ ds ∈ is.map m.conduits, ds = []) ↔ ∀ i ∈ is, m.conduits i = [] :=
      List.forall_mem_map
    rw [enumerateLoop_cons, List.map_cons, Pred.StopsLast, hempty]
    cases h : pred.accepts (m.conduits i) data w with
    | some w' =>
      have hcalls : TcpSlaveServer.enumerate pred (m.workers i).server.conduits data w =
        ((m.conduits i).map (·, true), w') := TcpSlaveServer.enumerate_of_accepts _ h
      have htrue : ∀ call ∈ ((m.conduits i).map (·, true)).map (i, ·), call.2.2 = true := by
        simp
      rw [hcalls, stopped_append htrue]
      constructor
      · intro hs
        exact .inr ⟨w', rfl, ih.mp hs⟩
      · rintro (hnone | ⟨u, hu, hs⟩)
        · rw [enumerateLoop_eq_nil.mpr hnone]
          intro before call after he
          simp at he
        · obtain rfl := Option.some.inj hu
          exact ih.mpr hs
    | none =>
      obtain ⟨before, c, after, hl, hcalls⟩ := TcpSlaveServer.enumerate_of_refused _ h
      have htrue : ∀ call ∈ (before.map (·, true)).map (i, ·), call.2.2 = true := by
        simp
      rw [hcalls, List.map_append, List.append_assoc, stopped_append htrue, List.map_singleton,
        List.singleton_append, stopped_false rfl, enumerateLoop_eq_nil]
      simp

/-- In the order of the workers and of the slots. -/
theorem enumerateLoop_sublist (is : List (Fin WORKERS)) (w : σ) :
    ((m.enumerateLoop pred data is w).1.map fun call => (call.1, call.2.1)).Sublist
      (is.flatMap fun i => (m.conduits i).map (i, ·)) := by
  induction is generalizing w with
  | nil => exact List.Sublist.refl _
  | cons i is ih =>
    have hprefix :=
      @TcpSlaveServer.enumerate_prefix _ _ pred (m.workers i).server.conduits data w
    rw [enumerateLoop_cons, List.map_append, List.flatMap_cons, List.map_map]
    apply List.Sublist.append ?_ (ih _)
    have hmap := hprefix.sublist.map (i, ·)
    rwa [List.map_map] at hmap

/-- The conduits of all workers, each by its worker and its serial. -/
theorem Inv.nodup_conduits (h : m.Inv) : (((List.finRange WORKERS).flatMap fun i =>
    (m.conduits i).map (i, ·)).map fun x => (x.1, x.2.serial)).Nodup := by
  simp only [List.map_flatMap, List.map_map]
  rw [List.nodup_flatMap]
  constructor
  · intro i _
    have hserials := (h.nodup_serials i).map (Prod.mk_right_injective i)
    rwa [List.map_map] at hserials
  · apply (List.nodup_finRange WORKERS).imp
    intro i j hij x hx hy
    obtain ⟨_, _, rfl⟩ := List.mem_map.mp hx
    obtain ⟨_, _, he⟩ := List.mem_map.mp hy
    exact hij (congrArg Prod.fst he).symm

end TcpMasterServer

open TcpMasterServer

/-- The calls of `enumerate` come in order, none twice, and end with the first false, exactly when
the predicate accepts all conduits of each worker that workers with conduits come after. -/
theorem enumerate_stops_iff (cfg : ServerCommonConfig) (es : List MasterEvent) {m : TcpMasterServer}
    (hm : Transition.run step es (start cfg) = some m) (pred : Pred δ σ) (data : δ) (w : σ) :
    (((m.enumerate pred data w).1.map fun call => (call.1, call.2.1)).Sublist
        ((List.finRange WORKERS).flatMap fun i => (m.conduits i).map (i, ·)) ∧
      ((m.enumerate pred data w).1.map fun call => (call.1, call.2.1.serial)).Nodup ∧
      Stopped (·.2.2) (m.enumerate pred data w).1) ↔
    pred.StopsLast data ((List.finRange WORKERS).map m.conduits) w := by
  have hsub := @enumerateLoop_sublist _ _ pred data m (List.finRange WORKERS) w
  have hnodup : ((m.enumerate pred data w).1.map fun call => (call.1, call.2.1.serial)).Nodup := by
    have hmap := hsub.map fun x => (x.1, x.2.serial)
    rw [List.map_map] at hmap
    exact (inv_run hm).nodup_conduits.sublist hmap
  rw [← stopped_enumerateLoop]
  exact ⟨fun hh => hh.2.2, fun hh => ⟨hsub, hnodup, hh⟩⟩

theorem enumerate_stops_pair : ∃ m, Transition.run step
      [.worker 0 (.accepted 5), .worker 0 .takeOps, .worker 0 (.exec ⟨0, false, false, false⟩)]
      (start (.ofType 5 1 8000)) = some m ∧
    m.conduits 0 = [⟨.gameClient, 5, 0, 0⟩] ∧
    Stopped (·.2.2) (m.enumerate (fun _ data w => (false, data, w)) () ()).1 := by
  obtain ⟨m, hm, h0, h1⟩ := Transition.exists_run step
    [.worker 0 (.accepted 5), .worker 0 .takeOps, .worker 0 (.exec ⟨0, false, false, false⟩)]
    (start (.ofType 5 1 8000))
    (fun m => m.conduits 0 = [⟨.gameClient, 5, 0, 0⟩] ∧ m.conduits 1 = []) (by decide)
  have hstops := enumerate_stops_iff _ _ hm (fun _ data w => (false, data, w)) () ()
  refine ⟨m, hm, h0, (hstops.mpr (.inl fun ds hds => ?_)).2.2⟩
  obtain rfl : ds = m.conduits 1 := List.mem_singleton.mp hds
  exact h1

/-- One client with each worker: the call for the second comes after the first has returned
false. -/
theorem enumerate_goes_on : ∃ m, Transition.run step
      [.worker 0 (.accepted 5), .worker 0 .takeOps, .worker 0 (.exec ⟨0, false, false, false⟩),
        .worker 1 (.accepted 6), .worker 1 .takeOps, .worker 1 (.exec ⟨0, false, false, false⟩)]
      (start (.ofType 5 1 8000)) = some m ∧
    (m.enumerate (fun _ data w => (false, data, w)) () ()).1 =
      [(0, ⟨.gameClient, 5, 0, 0⟩, false), (1, ⟨.gameClient, 6, 1, 0⟩, false)] := by
  apply Transition.exists_run
  decide

end RgcFifa
