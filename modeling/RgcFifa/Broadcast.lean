import RgcFifa.Descriptors
import RgcFifa.ServerInv

/-! The loops of the master server over the conduits of all its workers. -/

namespace RgcFifa

open TcpSlaveServer (slotOf)

/-- `GameClient::active` and `ClientConn::active`. -/
def TcpConduit.active (c : TcpConduit) : Bool :=
  match c.kind with
  | .gameClient => true
  | .clientConn _ => false

namespace TcpSlaveServer

def broadcast (buf : List UInt8) (len : ℕ) (s : TcpSlaveServer) : TcpSlaveServer :=
  s.conduits.foldl (fun s it =>
    match it with
    | some conduit => if conduit.active then s.send conduit (buf.take len) else s
    | none => s) s

/-- The overload with a predicate. -/
def broadcastIf (buf : List UInt8) (len : ℕ) (pred : TcpConduit → Bool) (s : TcpSlaveServer) :
    TcpSlaveServer :=
  s.conduits.foldl (fun s it =>
    match it with
    | some conduit => if conduit.active && pred conduit then s.send conduit (buf.take len) else s
    | none => s) s

end TcpSlaveServer

structure TcpMasterServer where
  workers : Fin WORKERS → Worker

/-- What a master server does, or one of its workers. -/
inductive MasterEvent where
  | worker (k : Fin WORKERS) (e : WorkerEvent)
  | broadcast (buf : List UInt8) (len : ℕ)
  | broadcastIf (buf : List UInt8) (len : ℕ) (pred : TcpConduit → Bool)
  | destroy (k : Fin WORKERS)

namespace TcpMasterServer

def start (cfg : ServerCommonConfig) : TcpMasterServer := ⟨fun k => Worker.start k cfg⟩

abbrev slot (k : Fin WORKERS) (i : ℕ) (m : TcpMasterServer) : Option TcpConduit :=
  (m.workers k).slot i

def setWorker (k : Fin WORKERS) (w : Worker) (m : TcpMasterServer) : TcpMasterServer :=
  ⟨Function.update m.workers k w⟩

/-- The same call on each worker, one after the other. -/
def forWorkers (f : TcpSlaveServer → TcpSlaveServer) (m : TcpMasterServer) : TcpMasterServer :=
  (List.finRange WORKERS).foldl
    (fun m i => m.setWorker i { m.workers i with server := f (m.workers i).server }) m

def broadcast (buf : List UInt8) (len : ℕ) (m : TcpMasterServer) : TcpMasterServer :=
  m.forWorkers (·.broadcast buf len)

def broadcastIf (buf : List UInt8) (len : ℕ) (pred : TcpConduit → Bool) (m : TcpMasterServer) :
    TcpMasterServer :=
  m.forWorkers (·.broadcastIf buf len pred)

def getCount (m : TcpMasterServer) : ℕ :=
  (List.finRange WORKERS).foldl (fun count i => count + (m.workers i).server.count) 0

/-- A worker is destroyed between two batches. -/
def step : MasterEvent → TcpMasterServer → Option TcpMasterServer
  | .worker k e, m => ((m.workers k).step e).map (m.setWorker k ·)
  | .broadcast buf len, m => some (m.broadcast buf len)
  | .broadcastIf buf len pred, m => some (m.broadcastIf buf len pred)
  | .destroy k, m =>
      if (m.workers k).rlist.isEmpty then
        some (m.setWorker k { m.workers k with server := (m.workers k).server.destroy })
      else none

end TcpMasterServer

/-- A worker as `destroy` leaves it when its table had free slots: nothing is accepted again. -/
structure Worker.Spent (w : Worker) : Prop where
  conduits : w.server.conduits = []
  emptySet : w.server.emptySet.Nonempty
  count : w.server.count = 0

namespace Worker

variable {w w' : Worker}

theorem Spent.same (h : w.Spent) (ht : SameTable w.server w'.server) : w'.Spent := by
  constructor
  · rw [ht]; exact h.conduits
  · rw [ht]; exact h.emptySet
  · rw [ht]; exact h.count

theorem Spent.slot (h : w.Spent) (i : ℕ) : w.slot i = none := by
  rw [Worker.slot, TcpSlaveServer.slot, h.conduits]
  rfl

theorem Spent.step (h : w.Spent) {e : WorkerEvent} (hw : step e w = some w') : w'.Spent := by
  cases e with
  | initConnection key =>
    obtain rfl := Option.some.inj hw
    apply h.same
    unfold TcpSlaveServer.initConnection
    split_ifs <;> rfl
  | accepted sock =>
    obtain rfl := Option.some.inj hw
    exact h.same rfl
  | forceClose i =>
    rw [Worker.step, h.slot] at hw
    cases hw
  | takeOps =>
    simp only [Worker.step] at hw
    split_ifs at hw
    obtain rfl := Option.some.inj hw
    exact h.same rfl
  | exec a =>
    rw [Worker.step, execOp] at hw
    cases hr : w.rlist with
    | nil =>
      rw [hr] at hw
      cases hw
    | cons op ops =>
      rw [hr] at hw
      cases op with
      | accept ss =>
        have hstuck : w.server.doAccept a ss = none :=
          TcpSlaveServer.acceptLoop_stuck a ss h.emptySet (by simp [h.conduits]) _
        simp only [hstuck] at hw
        cases hw
      | remove id issuer =>
        obtain rfl := Option.some.inj hw
        have hnone : w.server.doRemove id = w.server :=
          TcpSlaveServer.doRemove_none (h.slot (slotOf id))
        exact h.same (by rw [hnone]; rfl)

theorem destroy_cases (h : w.Inv) : ({ w with server := w.server.destroy } : Worker).Inv ∨
    ({ w with server := w.server.destroy } : Worker).Spent := by
  by_cases he : w.server.emptySet = ∅
  · left
    have htable := TcpSlaveServer.slotInv_destroy he
    have hnone : ∀ i c, ({ w with server := w.server.destroy } : Worker).slot i ≠ some c := by
      intro i c hc
      have hlt := Slots.slot_lt hc
      exact Nat.not_lt_zero _ hlt
    exact ⟨htable, h.idx, fun i c hc => absurd hc (hnone i c), fun i _ c _ hc => absurd hc (hnone i c),
      fun i c _ hc => absurd hc (hnone i c), h.closed, h.issuer⟩
  · right
    exact ⟨rfl, Finset.nonempty_iff_ne_empty.mpr he, rfl⟩

/-- Whether it has been destroyed or not, a worker counts its conduits, and each is an object of
its own. -/
structure Seated (w : Worker) : Prop where
  count : w.server.count = Slots.live w.server.conduits
  inj : ∀ i j c d, w.slot i = some c → w.slot j = some d → c.serial = d.serial → i = j

theorem seated (h : w.Inv ∨ w.Spent) : w.Seated := by
  rcases h with h | h
  · exact ⟨h.table.count, h.inj⟩
  · constructor
    · rw [h.count, h.conduits]
      rfl
    · intro i j c d hc
      rw [h.slot] at hc
      cases hc

/-- The sends of a broadcast change no more than the output. -/
theorem wire_kept (h : w.Inv ∨ w.Spent) (wire : List (ℕ × List UInt8)) :
    ({ w with server := { w.server with wire := wire } } : Worker).Inv ∨
      ({ w with server := { w.server with wire := wire } } : Worker).Spent := by
  have htable : SameTable w.server { w.server with wire := wire } := rfl
  have hkept : Kept w { w with server := { w.server with wire := wire } } :=
    ⟨htable, rfl, rfl, .inl rfl⟩
  exact h.imp hkept.inv fun hs => hs.same htable

end Worker

namespace TcpSlaveServer

/-- What a broadcast sends: the same bytes to each active conduit that is asked for. -/
def sends (bytes : List UInt8) (pred : TcpConduit → Bool) (s : TcpSlaveServer) :
    List (ℕ × List UInt8) :=
  (s.conduits.reduceOption.filter fun c => c.active && pred c).map fun c => (c.serial, bytes)

theorem broadcastIf_eq (buf : List UInt8) (len : ℕ) (pred : TcpConduit → Bool)
    (s : TcpSlaveServer) : s.broadcastIf buf len pred =
      { s with wire := s.wire ++ s.sends (buf.take len) pred } := by
  have hloop : ∀ (l : List (Option TcpConduit)) (t : TcpSlaveServer),
      l.foldl (fun s it =>
        match it with
        | some conduit => if conduit.active && pred conduit then s.send conduit (buf.take len) else s
        | none => s) t =
      { t with wire := t.wire ++
          (l.reduceOption.filter fun c => c.active && pred c).map fun c => (c.serial, buf.take len) } := by
    intro l
    induction l with
    | nil =>
      intro t
      simp [List.reduceOption_nil]
    | cons o l ih =>
      intro t
      rw [List.foldl_cons, ih]
      cases o with
      | none => simp [List.reduceOption_cons_of_none]
      | some c =>
        rw [List.reduceOption_cons_of_some]
        by_cases hc : (c.active && pred c) = true
        · simp [hc, send]
        · simp [hc]
  exact hloop s.conduits s

theorem broadcast_eq (buf : List UInt8) (len : ℕ) (s : TcpSlaveServer) :
    s.broadcast buf len = s.broadcastIf buf len fun _ => true := by
  simp only [broadcast, broadcastIf, Bool.and_true]

end TcpSlaveServer

namespace TcpMasterServer

variable {m m' : TcpMasterServer}

/-- Each worker gets the call once. -/
theorem forWorkers_workers (f : TcpSlaveServer → TcpSlaveServer) (m : TcpMasterServer)
    (k : Fin WORKERS) : (m.forWorkers f).workers k =
      { m.workers k with server := f (m.workers k).server } := by
  have hloop : ∀ (ks : List (Fin WORKERS)) (m : TcpMasterServer), ks.Nodup →
      (ks.foldl (fun m i => m.setWorker i { m.workers i with server := f (m.workers i).server })
        m).workers k = if k ∈ ks then { m.workers k with server := f (m.workers k).server }
          else m.workers k := by
    intro ks
    induction ks with
    | nil => intro m _; rfl
    | cons j ks ih =>
      intro m hnodup
      obtain ⟨hj, hrest⟩ := List.nodup_cons.mp hnodup
      rw [List.foldl_cons, ih _ hrest]
      by_cases hk : k = j
      · subst hk
        simp [hj, setWorker]
      · simp [hk, setWorker]
  rw [forWorkers, hloop _ m (List.nodup_finRange _), if_pos (List.mem_finRange k)]

def Inv (m : TcpMasterServer) : Prop := ∀ k, (m.workers k).Inv ∨ (m.workers k).Spent

theorem inv_start (cfg : ServerCommonConfig) : (start cfg).Inv := fun k =>
  .inl (Worker.inv_start k cfg)

theorem Inv.setWorker (h : m.Inv) {k : Fin WORKERS} {w : Worker} (hw : w.Inv ∨ w.Spent) :
    (m.setWorker k w).Inv := by
  intro j
  by_cases hj : j = k
  · subst hj
    simpa [TcpMasterServer.setWorker] using hw
  · simpa [TcpMasterServer.setWorker, hj] using h j

theorem Inv.broadcastIf (h : m.Inv) (buf : List UInt8) (len : ℕ) (pred : TcpConduit → Bool) :
    (m.broadcastIf buf len pred).Inv := by
  intro k
  rw [TcpMasterServer.broadcastIf, forWorkers_workers, TcpSlaveServer.broadcastIf_eq]
  exact Worker.wire_kept (h k) _

theorem broadcast_eq (buf : List UInt8) (len : ℕ) (m : TcpMasterServer) :
    m.broadcast buf len = m.broadcastIf buf len fun _ => true := by
  rw [broadcast, TcpMasterServer.broadcastIf]
  simp only [TcpSlaveServer.broadcast_eq]

theorem Inv.step (h : m.Inv) {e : MasterEvent} (hm : step e m = some m') : m'.Inv := by
  cases e with
  | worker k e =>
    obtain ⟨w, hw, rfl⟩ := Option.map_eq_some_iff.mp hm
    exact h.setWorker ((h k).imp (fun hi => hi.step hw) fun hs => hs.step hw)
  | broadcast buf len =>
    obtain rfl := Option.some.inj hm
    rw [broadcast_eq]
    exact h.broadcastIf buf len _
  | broadcastIf buf len pred =>
    obtain rfl := Option.some.inj hm
    exact h.broadcastIf buf len pred
  | destroy k =>
    rw [TcpMasterServer.step] at hm
    split_ifs at hm
    obtain rfl := Option.some.inj hm
    apply h.setWorker
    rcases h k with hi | hs
    · exact Worker.destroy_cases hi
    · exact .inr ⟨rfl, hs.emptySet, rfl⟩

theorem inv_run {es : List MasterEvent} {cfg : ServerCommonConfig}
    (hm : Transition.run step es (start cfg) = some m) : m.Inv :=
  Transition.run_preserves (fun _ _ _ hi ht => hi.step ht) (inv_start cfg) hm

theorem Inv.seated (h : m.Inv) (k : Fin WORKERS) : (m.workers k).Seated := Worker.seated (h k)

/-- The conduits of a worker are told apart by their serials. -/
theorem Inv.nodup_serials (h : m.Inv) (k : Fin WORKERS) :
    ((m.workers k).server.conduits.reduceOption.map (·.serial)).Nodup :=
  Slots.nodup_map_reduceOption fun i j c d => (h.seated k).inj i j c d

theorem Inv.eq_of_serial (h : m.Inv) {k : Fin WORKERS} {i j : ℕ} {c d : TcpConduit}
    (hc : m.slot k i = some c) (hd : m.slot k j = some d) (he : c.serial = d.serial) : c = d := by
  obtain rfl := (h.seated k).inj i j c d hc hd he
  exact Option.some.inj (hc.symm.trans hd)

theorem active_iff {c : TcpConduit} : c.active = true ↔ c.kind = .gameClient := by
  unfold TcpConduit.active
  cases c.kind <;> simp

theorem Inv.count_sends (h : m.Inv) (k : Fin WORKERS) (bytes : List UInt8)
    (pred : TcpConduit → Bool) {i : ℕ} {c : TcpConduit} (hc : m.slot k i = some c) :
    (((m.workers k).server.sends bytes pred).map Prod.fst).count c.serial =
      if c.kind = .gameClient ∧ pred c = true then 1 else 0 := by
  have hmap : ((m.workers k).server.sends bytes pred).map Prod.fst =
      ((m.workers k).server.conduits.reduceOption.filter
        fun c => c.active && pred c).map (·.serial) := List.map_map
  have hnodup : (((m.workers k).server.conduits.reduceOption.filter
      fun c => c.active && pred c).map (·.serial)).Nodup :=
    (h.nodup_serials k).sublist (List.filter_sublist.map _)
  rw [hmap, hnodup.count]
  apply if_congr ?_ rfl rfl
  simp only [List.mem_map, List.mem_filter, Bool.and_eq_true, active_iff]
  constructor
  · rintro ⟨d, ⟨hd, hsent⟩, he⟩
    obtain ⟨j, hj⟩ := Slots.mem_reduceOption.mp hd
    rwa [← h.eq_of_serial hj hc he]
  · intro hsent
    exact ⟨c, ⟨Slots.mem_reduceOption.mpr ⟨i, hc⟩, hsent⟩, rfl⟩

theorem Inv.mem_sends (k : Fin WORKERS) {bytes : List UInt8} {pred : TcpConduit → Bool}
    {x : ℕ × List UInt8} (hx : x ∈ (m.workers k).server.sends bytes pred) :
    x.2 = bytes ∧ ∃ i c, m.slot k i = some c ∧ c.serial = x.1 := by
  obtain ⟨c, hc, rfl⟩ := List.mem_map.mp hx
  obtain ⟨i, hi⟩ := Slots.mem_reduceOption.mp (List.mem_of_mem_filter hc)
  exact ⟨rfl, i, c, hi, rfl⟩

theorem Inv.getCount (h : m.Inv) :
    m.getCount = ∑ k, Slots.live (m.workers k).server.conduits := by
  have hsum : m.getCount = ((List.finRange WORKERS).map fun i => (m.workers i).server.count).sum := by
    rw [List.sum_eq_foldl, List.foldl_map]
    rfl
  rw [hsum, ← Fin.sum_univ_def]
  exact Finset.sum_congr rfl fun k _ => (h.seated k).count

end TcpMasterServer

open TcpMasterServer

/-- In every state the broadcast appends to the output of each worker one send to each game client
that the predicate holds of, and no other. -/
theorem broadcast_once (cfg : ServerCommonConfig) (es : List MasterEvent) {m : TcpMasterServer}
    (hm : Transition.run step es (start cfg) = some m) (buf : List UInt8) (len : ℕ)
    (pred : TcpConduit → Bool) :
    (∀ k, ∃ sent, ((m.broadcastIf buf len pred).workers k) = { m.workers k with
        server := { (m.workers k).server with wire := (m.workers k).server.wire ++ sent } } ∧
      (∀ i c, m.slot k i = some c → (sent.map Prod.fst).count c.serial =
        if c.kind = .gameClient ∧ pred c = true then 1 else 0) ∧
      ∀ x ∈ sent, x.2 = buf.take len ∧ ∃ i c, m.slot k i = some c ∧ c.serial = x.1) ∧
    m.broadcast buf len = m.broadcastIf buf len (fun _ => true) ∧
    m.getCount = ∑ k, (m.workers k).server.conduits.countP Option.isSome := by
  have h := inv_run hm
  refine ⟨fun k => ⟨(m.workers k).server.sends (buf.take len) pred, ?_, ?_, ?_⟩,
    broadcast_eq buf len m, h.getCount⟩
  · rw [TcpMasterServer.broadcastIf, forWorkers_workers, TcpSlaveServer.broadcastIf_eq]
  · intro i c hc
    exact h.count_sends k _ pred hc
  · intro x hx
    exact Inv.mem_sends k hx

/-- The second of two clients, when the first has left. -/
theorem broadcast_once_hole : ∃ m sent, Transition.run step
      [.worker 0 (.accepted 5), .worker 0 (.accepted 6), .worker 0 .takeOps,
        .worker 0 (.exec ⟨0, false, false, false⟩), .worker 0 (.exec ⟨0, false, false, false⟩),
        .worker 0 (.forceClose 0), .worker 0 .takeOps,
        .worker 0 (.exec ⟨0, false, false, false⟩)] (start (.ofType 5 1 8000)) = some m ∧
    m.slot 0 0 = none ∧ m.getCount = 1 ∧
    ((m.broadcastIf [1, 2] 2 fun _ => true).workers 0).server.wire = sent ∧
    (sent.map Prod.fst).count 1 = 1 := by
  obtain ⟨m, hm, hnone, hslot, hwire, hcount⟩ := Transition.exists_run step
    [.worker 0 (.accepted 5), .worker 0 (.accepted 6), .worker 0 .takeOps,
      .worker 0 (.exec ⟨0, false, false, false⟩), .worker 0 (.exec ⟨0, false, false, false⟩),
      .worker 0 (.forceClose 0), .worker 0 .takeOps,
      .worker 0 (.exec ⟨0, false, false, false⟩)] (start (.ofType 5 1 8000))
    (fun m => m.slot 0 0 = none ∧ m.slot 0 1 = some ⟨.gameClient, 6, 2, 1⟩ ∧
      (m.workers 0).server.wire = [] ∧ m.getCount = 1) (by decide)
  obtain ⟨sent, hsent, honce, _⟩ := (broadcast_once _ _ hm [1, 2] 2 fun _ => true).1 0
  refine ⟨m, sent, hm, hnone, hcount, ?_, honce 1 _ hslot⟩
  rw [hsent, hwire, List.nil_append]

end RgcFifa
