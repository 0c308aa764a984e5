import RgcFifa.PeerLookup

/-! Closing by id. `closeConn` takes a negative id for a number of its own, one below the
server key that `findConn` reads from it, and the client library closes by slot where it
finds by session id. -/

namespace RgcFifa

open TcpSlaveServer (slotOf)

def TCP_CONN_IDX_MAX : Int := 2

/-- `UInt32 rid = id`. -/
def ridOf (id : Int) : ℕ := (if id < 0 then id + 2 ^ 32 else id).toNat

/-- What `_connUp[key]` reads. -/
def TcpSlaveServer.entry (key : Int) (s : TcpSlaveServer) : Int := (s.connUp[key]?).getD 0

theorem connUpAt_fst (key : Int) (s : TcpSlaveServer) : (s.connUpAt key).1 = s.entry key := by
  unfold TcpSlaveServer.connUpAt TcpSlaveServer.entry
  cases s.connUp[key]? <;> rfl

namespace Server

/-- `TcpMasterServer::close`, as the conduit whose `closeConn` it calls. -/
def close (id : Int) (s : Server) : Option (Fin WORKERS × TcpConduit) :=
  if id = -1 then none
  else
    let k := Fin.ofNat WORKERS (id % WORKERS).toNat
    (s.slot k (slotOf id)).map (k, ·)

def closeConn (id : Int) (s : Server) : Option (Fin WORKERS × TcpConduit) × Server :=
  let rid := -1 - id
  if rid ≥ TCP_CONN_IDX_MAX then (none, s)
  else if rid < 0 then (s.close id, s)
  else
    let up := (s.workers 0).server.connUpAt rid
    let s := s.setServer 0 up.2
    (s.close up.1, s)

/-- The worker and the slot that an id names. -/
def place (id : Int) : Option (Fin WORKERS × ℕ) :=
  if id = -1 then none else some (Fin.ofNat WORKERS (id % WORKERS).toNat, slotOf id)

def occupant (s : Server) (p : Fin WORKERS × ℕ) : Option (Fin WORKERS × TcpConduit) :=
  (s.slot p.1 p.2).map (p.1, ·)

/-- The entries of the keys `key - 1` and `key` name the same slot, and `key` is small enough
for `closeConn`; or neither call comes to a conduit. -/
def SameSlot (key : Int) (s : Server) : Prop :=
  let up := fun key => (s.workers 0).server.entry key
  key ≤ 2 ∧ place (up (key - 1)) = place (up key) ∨
    (place (up key)).bind s.occupant = none ∧
      (key ≤ 2 → (place (up (key - 1))).bind s.occupant = none)

variable {s t : Server}

theorem find_eq_bind (id : Int) (s : Server) : s.find id = (place id).bind s.occupant := by
  unfold find place
  split_ifs <;> rfl

theorem occupant_inj (h : ∀ k, (s.workers k).Inv) (p q : Fin WORKERS × ℕ)
    (r : Fin WORKERS × TcpConduit) (hp : s.occupant p = some r) (hq : s.occupant q = some r) :
    p = q := by
  obtain ⟨c, hc, rfl⟩ := Option.map_eq_some_iff.mp hp
  obtain ⟨d, hd, he⟩ := Option.map_eq_some_iff.mp hq
  obtain ⟨hk, rfl⟩ := Prod.mk.inj he
  rw [hk] at hd
  exact Prod.ext hk.symm ((h p.1).inj p.2 q.2 d d hc hd rfl)

theorem setServer_connUpAt_kept (key : Int) (s : Server) (k : Fin WORKERS) :
    Worker.Kept (s.workers k)
      ((s.setServer 0 ((s.workers 0).server.connUpAt key).2).workers k) := by
  rw [setServer_workers]
  split_ifs with hk
  · rw [hk]
    exact connUpAt_kept key (s.workers 0)
  · exact .refl _

theorem find_connUpAt (key id : Int) (s : Server) :
    (s.setServer 0 ((s.workers 0).server.connUpAt key).2).find id =
      (place id).bind s.occupant := by
  rw [find_eq_bind]
  congr 1
  funext p
  exact congrArg (Option.map _) ((setServer_connUpAt_kept key s p.1).slot p.2)

theorem findConn_key {key : Int} (hkey : 1 ≤ key) (s : Server) :
    (s.findConn (-key)).1 = (place ((s.workers 0).server.entry key)).bind s.occupant := by
  rw [findConn, if_neg (by omega), neg_neg, ← connUpAt_fst]
  exact find_connUpAt key _ s

theorem closeConn_key {key : Int} (hkey : 1 ≤ key) (s : Server) : (s.closeConn (-key)).1 =
    if key ≤ 2 then (place ((s.workers 0).server.entry (key - 1))).bind s.occupant else none := by
  have hrid : -1 - -key = key - 1 := by omega
  rw [closeConn, hrid, TCP_CONN_IDX_MAX]
  by_cases hle : key ≤ 2
  · rw [if_neg (by omega), if_neg (by omega), if_pos hle, ← connUpAt_fst]
    exact find_connUpAt (key - 1) _ s
  · rw [if_pos (by omega), if_neg hle]

theorem closeConn_uid {u : Int} (hu : 0 < u) (s : Server) :
    (s.closeConn u).1 = (s.findConn u).1 := by
  rw [closeConn, findConn, TCP_CONN_IDX_MAX, if_neg (by omega), if_pos (by omega), if_pos hu]
  rfl

theorem closeConn_same_iff (h : ∀ k, (s.workers k).Inv) {key : Int} (hkey : 1 ≤ key) :
    (s.closeConn (-key)).1 = (s.findConn (-key)).1 ↔ s.SameSlot key := by
  rw [closeConn_key hkey, findConn_key hkey]
  unfold SameSlot
  by_cases hle : key ≤ 2
  · rw [if_pos hle, Slots.bind_eq_bind_iff (occupant_inj h)]
    simp only [hle, true_and, true_imp_iff]
    rw [and_comm (a := _ = none)]
  · rw [if_neg hle, eq_comm]
    simp [hle]

theorem closeConn_kept (id : Int) (s : Server) (k : Fin WORKERS) :
    Worker.Kept (s.workers k) ((s.closeConn id).2.workers k) := by
  unfold closeConn
  dsimp only
  split_ifs
  · exact .refl _
  · exact .refl _
  · exact setServer_connUpAt_kept _ s k

theorem closeConn_rest (id : Int) (s : Server) :
    (s.closeConn id).2 = { s with workers := (s.closeConn id).2.workers } := by
  unfold closeConn
  dsimp only
  split_ifs <;> rfl

/-- A state that differs only in what lookups have entered into `_connUp`. -/
theorem Inv.of_kept (h : s.Inv) (ht : t = { s with workers := t.workers })
    (hk : ∀ k, Worker.Kept (s.workers k) (t.workers k)) : t.Inv := by
  have hw (k : Fin WORKERS) : WorkerStep (s.workers k) (t.workers k) :=
    .of_kept (h.worker k) (h.zero k) (hk k)
  have hidx (k : Fin WORKERS) : (t.workers k).server.slaveIdx = k := by rw [(hw k).idx, h.idx]
  have horigin (m : Msg) (hm : m ∈ s.arrived) : t.Origin m := (h.origin m hm).step hw
  have hinv := fun k => (hw k).inv
  have hzero := fun k => (hw k).zero
  rw [ht] at hidx horigin hinv hzero ⊢
  exact ⟨hinv, hidx, hzero, h.streams, h.queue, h.num, horigin, h.causes, h.cause_lt⟩

end Server

namespace TcpClientService

def close (id : Int) (s : TcpClientService) : Option TcpConduit :=
  if id = -1 then none else s.worker.slot (ridOf id)

def closeConn (id : Int) (s : TcpClientService) : Option TcpConduit × TcpClientService :=
  let rid := -1 - id
  if rid ≥ TCP_CONN_IDX_MAX then (none, s)
  else if rid < 0 then (s.close id, s)
  else
    let up := s.worker.server.connUpAt rid
    let s := { s with worker := { s.worker with server := up.2 } }
    (s.close up.1, s)

/-- The slot that `find` reads from an id, and the one that `close` reads. -/
def place (id : Int) : Option ℕ := if id = -1 then none else some (slotOf id)

def closePlace (id : Int) : Option ℕ := if id = -1 then none else some (ridOf id)

/-- The entry of the key below, taken for a slot, is the slot of the connection that the
entry of `key` names; or neither call comes to a conduit. -/
def SameSlot (key : Int) (s : TcpClientService) : Prop :=
  let up := fun key => s.worker.server.entry key
  key ≤ 2 ∧ closePlace (up (key - 1)) = place (up key) ∨
    (place (up key)).bind s.worker.slot = none ∧
      (key ≤ 2 → (closePlace (up (key - 1))).bind s.worker.slot = none)

variable {s t : TcpClientService}

theorem find_eq_bind (id : Int) (s : TcpClientService) :
    s.find id = (place id).bind s.worker.slot := by
  unfold find place
  split_ifs <;> rfl

theorem close_eq_bind (id : Int) (s : TcpClientService) :
    s.close id = (closePlace id).bind s.worker.slot := by
  unfold close closePlace
  split_ifs <;> rfl

theorem slot_inj (h : s.worker.Inv) (i j : ℕ) (c : TcpConduit) (hi : s.worker.slot i = some c)
    (hj : s.worker.slot j = some c) : i = j :=
  h.inj i j c c hi hj rfl

theorem bind_slot_connUpAt (key : Int) (s : TcpClientService) (p : Option ℕ) :
    p.bind (Worker.slot { s.worker with server := (s.worker.server.connUpAt key).2 }) =
      p.bind s.worker.slot := by
  congr 1
  funext i
  exact (Server.connUpAt_kept key s.worker).slot i

theorem findConn_key {key : Int} (hkey : 1 ≤ key) (s : TcpClientService) :
    (s.findConn (-key)).1 = (place (s.worker.server.entry key)).bind s.worker.slot := by
  rw [findConn, if_neg (by omega), neg_neg, ← connUpAt_fst]
  exact (find_eq_bind _ _).trans (bind_slot_connUpAt key s _)

theorem closeConn_key {key : Int} (hkey : 1 ≤ key) (s : TcpClientService) :
    (s.closeConn (-key)).1 =
      if key ≤ 2 then (closePlace (s.worker.server.entry (key - 1))).bind s.worker.slot
      else none := by
  have hrid : -1 - -key = key - 1 := by omega
  rw [closeConn, hrid, TCP_CONN_IDX_MAX]
  by_cases hle : key ≤ 2
  · rw [if_neg (by omega), if_neg (by omega), if_pos hle, ← connUpAt_fst]
    exact (close_eq_bind _ _).trans (bind_slot_connUpAt (key - 1) s _)
  · rw [if_pos (by omega), if_neg hle]

theorem closeConn_same_iff (h : s.worker.Inv) {key : Int} (hkey : 1 ≤ key) :
    (s.closeConn (-key)).1 = (s.findConn (-key)).1 ↔ s.SameSlot key := by
  rw [closeConn_key hkey, findConn_key hkey]
  unfold SameSlot
  by_cases hle : key ≤ 2
  · rw [if_pos hle, Slots.bind_eq_bind_iff (slot_inj h)]
    simp only [hle, true_and, true_imp_iff]
    rw [and_comm (a := _ = none)]
  · rw [if_neg hle, eq_comm]
    simp [hle]

theorem ridOf_ne_slotOf {u : Int} (hlo : -2 ^ 31 ≤ u) (hu : u ≠ 0) : ridOf u ≠ slotOf u := by
  have hW : (WORKERS : Int) = 2 := rfl
  unfold ridOf slotOf
  dsimp only
  rw [hW]
  rcases lt_or_gt_of_ne hu with hneg | hpos
  · have hq : u.tdiv 2 = -((-u) / 2) := by
      rw [← Int.tdiv_eq_ediv_of_nonneg (by omega), Int.neg_tdiv, neg_neg]
    split_ifs <;> omega
  · have hq : u.tdiv 2 = u / 2 := Int.tdiv_eq_ediv_of_nonneg (by omega)
    split_ifs <;> omega

/-- Closing by slot and finding by session id agree where neither reaches a conduit, and for
the ids that both read alike. -/
theorem close_same_iff
    (hinj : ∀ i j c, s.worker.slot i = some c → s.worker.slot j = some c → i = j)
    {u : Int} (hlo : -2 ^ 31 ≤ u) :
    s.close u = s.find u ↔
      u = 0 ∨ u = -1 ∨ s.worker.slot (ridOf u) = none ∧ s.worker.slot (slotOf u) = none := by
  rw [close_eq_bind, find_eq_bind, Slots.bind_eq_bind_iff hinj]
  unfold closePlace place
  by_cases hone : u = -1
  · simp [hone]
  · by_cases hzero : u = 0
    · simp only [hzero]
      exact iff_of_true (.inl rfl) (.inl trivial)
    · have hne := ridOf_ne_slotOf hlo hzero
      simp [hone, hzero, hne]

theorem closeConn_uid_iff (h : s.worker.Inv) {u : Int} (hu : 0 < u) :
    (s.closeConn u).1 = (s.findConn u).1 ↔
      s.worker.slot (ridOf u) = none ∧ s.worker.slot (slotOf u) = none := by
  have hclose : (s.closeConn u).1 = s.close u := by
    rw [closeConn, TCP_CONN_IDX_MAX, if_neg (by omega), if_pos (by omega)]
  rw [hclose, findConn, if_pos hu, close_same_iff (slot_inj h) (by omega), or_iff_right (by omega),
    or_iff_right (by omega)]

theorem closeConn_kept (id : Int) (s : TcpClientService) :
    Worker.Kept s.worker (s.closeConn id).2.worker := by
  unfold closeConn
  dsimp only
  split_ifs
  · exact .refl _
  · exact .refl _
  · exact Server.connUpAt_kept _ s.worker

theorem worker_inv_step (h : s.worker.Inv) {e : ClientEvent} (ht : step e s = some t) :
    t.worker.Inv := by
  cases e with
  | worker e =>
    obtain ⟨w, hw, rfl⟩ := Option.map_eq_some_iff.mp ht
    exact h.step hw
  | sendMsgToClient id buf size =>
    obtain rfl := Option.some.inj ht
    exact (looked_sendMsgToClient id buf size s).kept.inv h
  | getConnStatus id =>
    obtain rfl := Option.some.inj ht
    exact (looked_findConn (-id) s).kept.inv h

end TcpClientService

/-- The events of a service, and calls of its `closeConn` in between. -/
inductive CloseEvent (ε : Type) where
  | event (e : ε)
  | closeConn (id : Int)
  deriving DecidableEq, Repr

def closeStep {ε σ : Type} (step : ε → σ → Option σ) (closeConn : Int → σ → σ) :
    CloseEvent ε → σ → Option σ
  | .event e, s => step e s
  | .closeConn id, s => some (closeConn id s)

def Server.closeStep : CloseEvent ServerEvent → Server → Option Server :=
  RgcFifa.closeStep Server.step fun id s => (s.closeConn id).2

def TcpClientService.closeStep : CloseEvent ClientEvent → TcpClientService → Option TcpClientService :=
  RgcFifa.closeStep TcpClientService.step fun id s => (s.closeConn id).2

theorem Server.inv_closeRun {cfg : ServerCommonConfig} {es : List (CloseEvent ServerEvent)}
    {s : Server} (h : Transition.run Server.closeStep es (Server.start cfg) = some s) : s.Inv := by
  refine Transition.run_preserves (fun e t u hi ht => ?_) (Server.inv_start cfg) h
  cases e with
  | event e => exact hi.step ht
  | closeConn id =>
    obtain rfl := Option.some.inj ht
    exact hi.of_kept (Server.closeConn_rest id t) (Server.closeConn_kept id t)

theorem TcpClientService.inv_closeRun {cfg : ServerCommonConfig}
    {es : List (CloseEvent ClientEvent)} {s : TcpClientService}
    (h : Transition.run closeStep es (start cfg) = some s) : s.worker.Inv := by
  have hstart : (start cfg).worker.Inv := Worker.inv_start 0 cfg
  refine Transition.run_preserves (I := fun s => s.worker.Inv) (fun e t u hi ht => ?_) hstart h
  cases e with
  | event e => exact worker_inv_step hi ht
  | closeConn id =>
    obtain rfl := Option.some.inj ht
    exact (closeConn_kept id t).inv hi

/-- Closing the server `key` reaches the conduit that sending to it would reach exactly when
the two entries that are read name one slot, or neither call reaches any. -/
theorem closeConn_closes_found_iff (cfg : ServerCommonConfig) :
    (∀ es s, Transition.run Server.closeStep es (Server.start cfg) = some s →
      (∀ key : Int, 1 ≤ key →
        ((s.closeConn (-key)).1 = (s.findConn (-key)).1 ↔ s.SameSlot key)) ∧
      ∀ u : Int, 0 < u → (s.closeConn u).1 = (s.findConn u).1) ∧
    ∀ es s, Transition.run TcpClientService.closeStep es (TcpClientService.start cfg) = some s →
      (∀ key : Int, 1 ≤ key →
        ((s.closeConn (-key)).1 = (s.findConn (-key)).1 ↔ s.SameSlot key)) ∧
      ∀ u : Int, 0 < u → ((s.closeConn u).1 = (s.findConn u).1 ↔
        s.worker.slot (ridOf u) = none ∧ s.worker.slot (slotOf u) = none) := by
  constructor
  · intro es s hs
    have h := Server.inv_closeRun hs
    exact ⟨fun key hkey => Server.closeConn_same_iff h.worker hkey,
      fun u hu => Server.closeConn_uid hu s⟩
  · intro es s hs
    have h := TcpClientService.inv_closeRun hs
    exact ⟨fun key hkey => TcpClientService.closeConn_same_iff h hkey,
      fun u hu => TcpClientService.closeConn_uid_iff h hu⟩

def firstPeer : ServerCommonConfig :=
  (ServerCommonConfig.ofType 5 1 8000).addConnectListOf 0 1 "127.0.0.1" 8100

/-- The connection to server 1 in slot zero: the entry of key 0 is missing and reads as the
id of that slot. -/
theorem closeConn_closes_first :
    (∃ s, Transition.run Server.closeStep
      [.event (.worker 0 (.initConnection 1)), .event (.worker 0 .takeOps),
        .event (.worker 0 (.exec ⟨9, false, false, false⟩))] (Server.start firstPeer) = some s ∧
      (s.findConn (-1)).1 = some (0, ⟨.clientConn 1, 9, 0, 0⟩) ∧
      (s.closeConn (-1)).1 = some (0, ⟨.clientConn 1, 9, 0, 0⟩)) ∧
    ∃ s, Transition.run TcpClientService.closeStep
      [.event (.worker (.initConnection 1)), .event (.worker .takeOps),
        .event (.worker (.exec ⟨9, false, false, false⟩))]
      (TcpClientService.start firstPeer) = some s ∧
      (s.findConn (-1)).1 = some ⟨.clientConn 1, 9, 0, 0⟩ ∧
      (s.closeConn (-1)).1 = some ⟨.clientConn 1, 9, 0, 0⟩ := by
  obtain ⟨hserver, hclient⟩ := closeConn_closes_found_iff firstPeer
  constructor
  · obtain ⟨s, hs, hfind, hzero, hone⟩ := Transition.exists_run Server.closeStep
      [.event (.worker 0 (.initConnection 1)), .event (.worker 0 .takeOps),
        .event (.worker 0 (.exec ⟨9, false, false, false⟩))] (Server.start firstPeer)
      (fun s => (s.findConn (-1)).1 = some (0, ⟨.clientConn 1, 9, 0, 0⟩) ∧
        (s.workers 0).server.entry 0 = 0 ∧ (s.workers 0).server.entry 1 = 0) (by decide)
    have hsame : s.SameSlot 1 := by
      refine .inl ⟨by decide, ?_⟩
      dsimp only
      rw [hone, sub_self, hzero]
    exact ⟨s, hs, hfind, (((hserver _ s hs).1 1 le_rfl).mpr hsame).trans hfind⟩
  · obtain ⟨s, hs, hfind, hzero, hone⟩ := Transition.exists_run TcpClientService.closeStep
      [.event (.worker (.initConnection 1)), .event (.worker .takeOps),
        .event (.worker (.exec ⟨9, false, false, false⟩))] (TcpClientService.start firstPeer)
      (fun s => (s.findConn (-1)).1 = some ⟨.clientConn 1, 9, 0, 0⟩ ∧
        s.worker.server.entry 0 = 0 ∧ s.worker.server.entry 1 = 0) (by decide)
    have hsame : s.SameSlot 1 := by
      refine .inl ⟨by decide, ?_⟩
      dsimp only
      rw [hone, sub_self, hzero]
      decide
    exact ⟨s, hs, hfind, (((hclient _ s hs).1 1 le_rfl).mpr hsame).trans hfind⟩

/-- Server 257 is connected and its key is out of range for `closeConn`; and the client
library closes the connection in slot one for the id that finds the one in slot zero. -/
theorem closeConn_closes_another :
    (∃ s, Transition.run Server.closeStep
      [.event (.worker 0 (.initConnection 257)), .event (.worker 0 .takeOps),
        .event (.worker 0 (.exec ⟨9, false, false, false⟩))] (Server.start linkedConfig) = some s ∧
      (s.findConn (-257)).1 = some (0, ⟨.clientConn 257, 9, 0, 0⟩) ∧
      (s.closeConn (-257)).1 = none) ∧
    ∃ s, Transition.run TcpClientService.closeStep
      [.event (.worker (.initConnection 257)), .event (.worker (.initConnection 258)),
        .event (.worker .takeOps), .event (.worker (.exec ⟨9, false, false, false⟩)),
        .event (.worker (.exec ⟨10, false, false, false⟩))]
      (TcpClientService.start twoPeers) = some s ∧
      (s.findConn (-257)).1 = some ⟨.clientConn 257, 9, 0, 0⟩ ∧ (s.closeConn (-257)).1 = none ∧
      (s.findConn 1).1 = some ⟨.clientConn 257, 9, 0, 0⟩ ∧
      (s.closeConn 1).1 = some ⟨.clientConn 258, 10, 2, 1⟩ :=
  ⟨Transition.exists_run Server.closeStep _ _ _ (by decide),
    Transition.exists_run TcpClientService.closeStep _ _ _ (by decide)⟩

end RgcFifa
