import RgcFifa.CloseConn
import RgcFifa.Restart

/-! The session ids of the client library. Its entry points translate an id each in its own
way: negated and by server key, as it is and by session id, or as it is and by slot. -/

namespace RgcFifa

open TcpSlaveServer (slotOf)

/-- `SendMsgToClient(int, Stream &)` past its checks. -/
def TcpClientService.sendStream (sessionID : Int) (st : Stream) (s : TcpClientService) :
    TcpClientService :=
  let conn := s.findConn sessionID
  match conn.1 with
  | none => conn.2
  | some c => { conn.2 with
      worker := { conn.2.worker with server := conn.2.worker.server.send c st.buf }
      writes := conn.2.writes ++ [(c.serial, st.buf)] }

/-- `stopped` says that the worker has left its loop and destroyed its table. -/
structure TcpClientWrapper where
  m_Active : Bool
  service : TcpClientService
  stopped : Bool

namespace TcpClientWrapper

/-- Each entry point gives the conduit that it acts on, and the state behind it. -/
def sendMsgToClient (sessionID : Int) (buffer : List UInt8) (size : UInt16)
    (w : TcpClientWrapper) : Option TcpConduit × TcpClientWrapper :=
  if w.m_Active then ((w.service.findConn (-sessionID)).1,
    { w with service := w.service.sendMsgToClient sessionID buffer size })
  else (none, w)

def sendMsgToClientStream (sessionID : Int) (st : Stream) (w : TcpClientWrapper) :
    Option TcpConduit × TcpClientWrapper :=
  if w.m_Active ∧ 0 < st.size then ((w.service.findConn sessionID).1,
    { w with service := w.service.sendStream sessionID st })
  else (none, w)

/-- The only entry point that does not look at `m_Active`. -/
def getConnStatus (sessionID : Int) (w : TcpClientWrapper) :
    Option TcpConduit × TcpClientWrapper :=
  ((w.service.findConn (-sessionID)).1, { w with service := (w.service.findConn (-sessionID)).2 })

def close (sessionID : Int) (w : TcpClientWrapper) : Option TcpConduit × TcpClientWrapper :=
  if w.m_Active then (w.service.close sessionID, w) else (none, w)

def unInit (w : TcpClientWrapper) : TcpClientWrapper := { w with m_Active := false }

def start (cfg : ServerCommonConfig) : TcpClientWrapper := ⟨true, TcpClientService.start cfg, false⟩

end TcpClientWrapper

inductive WrapperEvent where
  | worker (e : WorkerEvent)
  | sendBuffer (sessionID : Int) (buffer : List UInt8) (size : UInt16)
  | sendStream (sessionID : Int) (st : Stream)
  | getConnStatus (sessionID : Int)
  | close (sessionID : Int)
  | unInit
  | destroy

namespace TcpClientWrapper

def step : WrapperEvent → TcpClientWrapper → Option TcpClientWrapper
  | .worker e, w =>
      if w.stopped then none
      else (Worker.step e w.service.worker).map fun v =>
        { w with service := { w.service with worker := v } }
  | .sendBuffer sessionID buffer size, w => some (w.sendMsgToClient sessionID buffer size).2
  | .sendStream sessionID st, w => some (w.sendMsgToClientStream sessionID st).2
  | .getConnStatus sessionID, w => some (w.getConnStatus sessionID).2
  | .close sessionID, w => some (w.close sessionID).2
  | .unInit, w => some w.unInit
  | .destroy, w =>
      if w.m_Active ∨ w.stopped then none
      else some { w with
        service := { w.service with worker :=
          { w.service.worker with server := w.service.worker.server.destroy } }
        stopped := true }

/-- All four entry points act on the same conduit, or none of them on any. -/
def OneConduit (sessionID : Int) (st : Stream) (w : TcpClientWrapper) : Prop :=
  ∀ buffer size,
    (w.sendMsgToClientStream sessionID st).1 = (w.sendMsgToClient sessionID buffer size).1 ∧
    (w.getConnStatus sessionID).1 = (w.sendMsgToClient sessionID buffer size).1 ∧
    (w.close sessionID).1 = (w.sendMsgToClient sessionID buffer size).1

end TcpClientWrapper

namespace TcpClientService

/-- The slot that `findConn` reads. -/
def connPlace (id : Int) (s : TcpClientService) : Option ℕ :=
  if id > 0 then place id else place (s.worker.server.entry (-id))

def Vacant (p : Option ℕ) (s : TcpClientService) : Prop := p.bind s.worker.slot = none

variable {s : TcpClientService}

theorem findConn_eq_bind (id : Int) (s : TcpClientService) :
    (s.findConn id).1 = (s.connPlace id).bind s.worker.slot := by
  by_cases hid : id > 0
  · rw [findConn, if_pos hid, connPlace, if_pos hid]
    exact find_eq_bind id s
  · rw [findConn, if_neg hid, connPlace, if_neg hid, ← connUpAt_fst]
    exact (find_eq_bind _ _).trans (bind_slot_connUpAt (-id) s _)

theorem connPlace_zero (hz : s.worker.ZeroUp) : s.connPlace 0 = some 0 := by
  have hentry : s.worker.server.entry 0 = 0 := by
    unfold TcpSlaveServer.entry
    cases hv : s.worker.server.connUp[(0 : Int)]? with
    | none => rfl
    | some v => exact hz v hv
  rw [connPlace, if_neg (lt_irrefl 0), neg_zero, hentry]
  rfl

theorem closePlace_zero : closePlace 0 = some 0 := rfl

/-- One of the two translations of `findConn` is the division by `WORKERS`, and `close` never
comes to that slot. -/
theorem closePlace_ne {id : Int} (hlo : -2 ^ 31 ≤ id) (hid : id ≠ 0) :
    closePlace id ≠ s.connPlace id ∨ closePlace id ≠ s.connPlace (-id) := by
  have hW : (WORKERS : Int) = 2 := rfl
  rcases lt_or_gt_of_ne hid with hneg | hpos
  · refine .inr ?_
    have hq : (-id).tdiv 2 = -id / 2 := Int.tdiv_eq_ediv_of_nonneg (by omega)
    have hslot : ridOf id ≠ slotOf (-id) := by
      unfold ridOf slotOf
      dsimp only
      rw [hW]
      split_ifs <;> omega
    rw [connPlace, if_pos (by omega), closePlace, place, if_neg (show ¬ -id = -1 by omega)]
    split_ifs <;> simp [hslot]
  · refine .inl ?_
    rw [connPlace, if_pos hpos, closePlace, place, if_neg (by omega), if_neg (by omega)]
    simpa using ridOf_ne_slotOf hlo hid

end TcpClientService

namespace TcpClientWrapper

/-- The id is zero, or every slot that an entry point would come to is empty. -/
def Unambiguous (sessionID : Int) (st : Stream) (w : TcpClientWrapper) : Prop :=
  sessionID = 0 ∧ w.m_Active ∧ 0 < st.size ∨
  w.service.Vacant (w.service.connPlace (-sessionID)) ∧
    (w.m_Active → w.service.Vacant (TcpClientService.closePlace sessionID) ∧
      (0 < st.size → w.service.Vacant (w.service.connPlace sessionID)))

/-- What the lookups need of the table and of `_connUp`. -/
structure Inv (w : TcpClientWrapper) : Prop where
  inj : ∀ i j c, w.service.worker.slot i = some c → w.service.worker.slot j = some c → i = j
  zero : w.service.worker.ZeroUp
  running : w.stopped = false → w.service.worker.Inv

variable {w : TcpClientWrapper} {sessionID : Int} {st : Stream}

theorem conn_agree_iff (h : w.Inv) (hlo : -2 ^ 31 ≤ sessionID) :
    (w.service.findConn sessionID).1 = (w.service.findConn (-sessionID)).1 ∧
        w.service.close sessionID = (w.service.findConn (-sessionID)).1 ↔
      sessionID = 0 ∨ w.service.Vacant (w.service.connPlace (-sessionID)) ∧
        w.service.Vacant (TcpClientService.closePlace sessionID) ∧
        w.service.Vacant (w.service.connPlace sessionID) := by
  simp only [TcpClientService.findConn_eq_bind, TcpClientService.close_eq_bind,
    TcpClientService.Vacant]
  constructor
  · rintro ⟨hstream, hclose⟩
    by_cases hid : sessionID = 0
    · exact .inl hid
    · rcases TcpClientService.closePlace_ne (s := w.service) hlo hid with hne | hne
      · have hsame := (Slots.bind_eq_bind_iff h.inj).mp (hclose.trans hstream.symm)
        obtain ⟨hc, hs⟩ := hsame.resolve_left hne
        exact .inr ⟨hclose.symm.trans hc, hc, hs⟩
      · obtain ⟨hc, hb⟩ := ((Slots.bind_eq_bind_iff h.inj).mp hclose).resolve_left hne
        exact .inr ⟨hb, hc, hstream.trans hb⟩
  · rintro (rfl | ⟨hb, hc, hs⟩)
    · rw [neg_zero, TcpClientService.connPlace_zero h.zero, TcpClientService.closePlace_zero]
      exact ⟨rfl, rfl⟩
    · exact ⟨hs.trans hb.symm, hc.trans hb.symm⟩

theorem oneConduit_iff (h : w.Inv) (hlo : -2 ^ 31 ≤ sessionID) :
    w.OneConduit sessionID st ↔ w.Unambiguous sessionID st := by
  have hbuffer : w.service.Vacant (w.service.connPlace (-sessionID)) ↔
      (w.service.findConn (-sessionID)).1 = none := by
    rw [TcpClientService.findConn_eq_bind]
    rfl
  have hclose : w.service.Vacant (TcpClientService.closePlace sessionID) ↔
      w.service.close sessionID = none := by
    rw [TcpClientService.close_eq_bind]
    rfl
  unfold OneConduit Unambiguous sendMsgToClient sendMsgToClientStream getConnStatus close
  by_cases hactive : w.m_Active = true
  · by_cases hsize : 0 < st.size
    · have hagree := conn_agree_iff h hlo
      simp only [hactive, hsize, and_self, if_true, forall_const, true_and, and_true]
      exact hagree
    · simp only [hactive, hsize, and_false, if_true, if_false, forall_const, true_and,
        false_imp_iff, and_true, false_or, hbuffer, hclose]
      constructor
      · rintro ⟨hb, hc⟩
        exact ⟨hb.symm, hc.trans hb.symm⟩
      · rintro ⟨hb, hc⟩
        exact ⟨hb.symm, hc.trans hb.symm⟩
  · simp [hactive, hbuffer]

theorem inv_of_worker (h : w.service.worker.Inv) (hz : w.service.worker.ZeroUp) : w.Inv where
  inj := fun i j c hi hj => h.inj i j c c hi hj rfl
  zero := hz
  running := fun _ => h

theorem inv_start (cfg : ServerCommonConfig) : (start cfg).Inv := by
  have hz : (start cfg).service.worker.ZeroUp := fun v hv => by cases hv
  exact inv_of_worker (Worker.inv_start 0 cfg) hz

theorem Inv.of_kept {v : TcpClientWrapper} (h : w.Inv)
    (hk : Worker.Kept w.service.worker v.service.worker) (hs : v.stopped = w.stopped) : v.Inv where
  inj := by
    intro i j c hi hj
    rw [hk.slot] at hi hj
    exact h.inj i j c hi hj
  zero := hk.zeroUp h.zero
  running := by
    intro hstopped
    rw [hs] at hstopped
    exact hk.inv (h.running hstopped)

theorem sendStream_kept (sessionID : Int) (st : Stream) (s : TcpClientService) :
    Worker.Kept s.worker (s.sendStream sessionID st).worker := by
  have hk := (TcpClientService.looked_findConn sessionID s).kept
  rw [TcpClientService.sendStream]
  cases hc : (s.findConn sessionID).1 with
  | none => exact hk
  | some c =>
    dsimp only
    refine ⟨?_, hk.pending, hk.closed, hk.connUp⟩
    have htable := hk.table
    simp only [Worker.SameTable, TcpSlaveServer.send] at htable ⊢
    rw [htable]

theorem Inv.step (h : w.Inv) {e : WrapperEvent} {v : TcpClientWrapper} (hv : step e w = some v) :
    v.Inv := by
  cases e with
  | worker e =>
    simp only [TcpClientWrapper.step] at hv
    split_ifs at hv with hstopped
    obtain ⟨u, hu, rfl⟩ := Option.map_eq_some_iff.mp hv
    have hrun := h.running (Bool.not_eq_true _ ▸ hstopped)
    exact inv_of_worker (hrun.step hu) (h.zero.step hrun hu)
  | sendBuffer id buf size =>
    obtain rfl := Option.some.inj hv
    unfold sendMsgToClient
    split_ifs
    · exact h.of_kept (TcpClientService.looked_sendMsgToClient id buf size w.service).kept rfl
    · exact h
  | sendStream id st =>
    obtain rfl := Option.some.inj hv
    unfold sendMsgToClientStream
    split_ifs
    · exact h.of_kept (sendStream_kept id st w.service) rfl
    · exact h
  | getConnStatus id =>
    obtain rfl := Option.some.inj hv
    exact h.of_kept (TcpClientService.looked_findConn (-id) w.service).kept rfl
  | close id =>
    obtain rfl := Option.some.inj hv
    unfold close
    split_ifs <;> exact h
  | unInit =>
    obtain rfl := Option.some.inj hv
    exact h.of_kept (.refl _) rfl
  | destroy =>
    simp only [TcpClientWrapper.step] at hv
    split_ifs at hv
    obtain rfl := Option.some.inj hv
    refine ⟨fun i j c hi => ?_, h.zero.of_eq rfl, fun hs => by cases hs⟩
    simp [TcpSlaveServer.destroy, Worker.slot, TcpSlaveServer.slot, Slots.slot] at hi

theorem inv_run {es : List WrapperEvent} (cfg : ServerCommonConfig)
    (h : Transition.run step es (start cfg) = some w) : w.Inv :=
  Transition.run_preserves (fun _ _ _ hi ht => hi.step ht) (inv_start cfg) h

end TcpClientWrapper

/-- The least `int` has no negation, and is left out of the ids that are negated. -/
theorem client_addresses_one_iff (cfg : ServerCommonConfig) (es : List WrapperEvent)
    {w : TcpClientWrapper}
    (hw : Transition.run TcpClientWrapper.step es (TcpClientWrapper.start cfg) = some w) :
    (∀ sessionID : Int, -2 ^ 31 < sessionID → ∀ st,
      (w.OneConduit sessionID st ↔ w.Unambiguous sessionID st)) ∧
    ∀ u : Int, -2 ^ 31 ≤ u → (w.service.close u = w.service.find u ↔ u = 0 ∨ u = -1 ∨
      w.service.worker.slot (ridOf u) = none ∧ w.service.worker.slot (slotOf u) = none) := by
  have h := TcpClientWrapper.inv_run cfg hw
  exact ⟨fun _ hlo _ => TcpClientWrapper.oneConduit_iff h hlo.le,
    fun _ hlo => TcpClientService.close_same_iff h.inj hlo⟩

/-- The servers that the exported `init_Client` adds. -/
def clientConfig : ServerCommonConfig :=
  ((ServerCommonConfig.ofType 0xFF 1 0).addConnectList 65281 "27.109.126.143" 8100).addConnectList
    65282 "27.109.126.143" 8103

/-- One connection, in slot zero, and the id zero; any other id is ambiguous. -/
theorem client_addresses_zero : ∃ w, Transition.run TcpClientWrapper.step
      [.worker (.initConnection 65281), .worker .takeOps,
        .worker (.exec ⟨9, false, false, false⟩)] (TcpClientWrapper.start clientConfig) = some w ∧
      w.OneConduit 0 (.ofHeader 7 0 0) ∧ w.service.close 0 = w.service.find 0 := by
  obtain ⟨w, hw, hactive⟩ := Transition.exists_run TcpClientWrapper.step
    [.worker (.initConnection 65281), .worker .takeOps, .worker (.exec ⟨9, false, false, false⟩)]
    (TcpClientWrapper.start clientConfig) (fun w => w.m_Active = true) (by decide)
  obtain ⟨hone, hclose⟩ := client_addresses_one_iff clientConfig _ hw
  exact ⟨w, hw, (hone 0 (by decide) _).mpr (.inl ⟨rfl, hactive, by decide⟩),
    (hclose 0 (by decide)).mpr (.inl rfl)⟩

/-- Both servers of the client are connected. The two overloads and the other entry points
come to different conduits for the first server, and closing session one closes the second. -/
theorem client_addresses_differ : ∃ w, Transition.run TcpClientWrapper.step
      [.worker (.initConnection 65281), .worker (.initConnection 65282), .worker .takeOps,
        .worker (.exec ⟨9, false, false, false⟩), .worker (.exec ⟨10, false, false, false⟩)]
      (TcpClientWrapper.start clientConfig) = some w ∧
      (w.sendMsgToClient 65281 [] 0).1 = some ⟨.clientConn 65281, 9, 0, 0⟩ ∧
      (w.sendMsgToClientStream 65281 (.ofHeader 7 0 0)).1 = none ∧
      (w.close 65281).1 = none ∧
      w.service.find 1 = some ⟨.clientConn 65281, 9, 0, 0⟩ ∧
      w.service.close 1 = some ⟨.clientConn 65282, 10, 2, 1⟩ :=
  Transition.exists_run TcpClientWrapper.step _ _ _ (by decide)

end RgcFifa
