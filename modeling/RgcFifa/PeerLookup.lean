import RgcFifa.FrameEmission
import RgcFifa.Reconnect

/-! Addressing a peer server by the negated key. The logic thread reads `_connUp` with the
subscript operator, so that a lookup of a key without an entry makes the entry zero, and
zero is also the entry of a queued connect and the id of slot zero. -/

namespace RgcFifa

open TcpSlaveServer (slotOf)

namespace Worker

/-- The states of a server key when the logic thread looks keys up in between. -/
inductive PeerState (key : Int) (w : Worker) : Prop where
  | unknown (connUp : w.server.connUp[key]? = none)
      (queued : w.pending.count (.accept (-key)) = 0) (links : ∀ i, ¬ Linked key w i)
  | lost (connUp : w.server.connUp[key]? = some (-1))
      (queued : w.pending.count (.accept (-key)) = 0) (links : ∀ i, ¬ Linked key w i)
  -- a connect is queued, or a lookup has made the entry
  | zero (connUp : w.server.connUp[key]? = some 0)
      (queued : w.pending.count (.accept (-key)) ≤ 1) (links : ∀ i, ¬ Linked key w i)
  | up (i : ℕ) (connUp : w.server.connUp[key]? = some ((i : Int) * WORKERS + w.server.slaveIdx))
      (queued : w.pending.count (.accept (-key)) = 0) (links : ∀ j, Linked key w j ↔ j = i)

/-- What looking up the peer `key` comes to: the result is a live connection made for that
key, or null, and null while there is none; and `_connUp` stays as it was. -/
structure Addresses (key : Int) (w w' : Worker) (result : Option TcpConduit) : Prop where
  live : ∀ c, result = some c →
    ∃ i, w.slot i = some c ∧ c.kind = .clientConn key ∧ c.serial ∉ w.closed
  null : (∀ i, ¬ Linked key w i) → result = none
  connUp : w'.server.connUp = w.server.connUp

/-- The key has an entry, and if that is zero, slot zero is empty or holds its connection. -/
def PeerReady (key : Int) (w : Worker) : Prop :=
  (w.server.connUp[key]?).isSome ∧ (w.server.connUp[key]? = some 0 →
    ∀ c ∈ w.slot 0, c.kind = .clientConn key ∧ c.serial ∉ w.closed)

instance (key : Int) (w : Worker) : Decidable (PeerReady key w) :=
  inferInstanceAs (Decidable (_ ∧ (_ → ∀ c ∈ w.slot 0, _)))

/-- The logic thread has looked up some keys. -/
structure Looked (w w' : Worker) : Prop where
  kept : Kept w w'
  connUp : ∀ key : Int, w'.server.connUp[key]? = w.server.connUp[key]? ∨
    w.server.connUp[key]? = none ∧ w'.server.connUp[key]? = some 0

/-- `find` on the worker that holds the connections. -/
def find (id : Int) (w : Worker) : Option TcpConduit :=
  if id = -1 then none else w.slot (slotOf id)

structure PeerInv (key : Int) (w : Worker) : Prop where
  inv : w.Inv
  spares : w.Spares
  idx : w.server.slaveIdx = 0
  state : PeerState key w

variable {w w' : Worker} {key : Int}

theorem Looked.refl (w : Worker) : Looked w w := ⟨.refl w, fun _ => .inl rfl⟩

theorem looked_connUpAt (key : Int) (w : Worker) :
    Looked w { w with server := (w.server.connUpAt key).2 } := by
  refine ⟨Server.connUpAt_kept key w, fun key' => ?_⟩
  unfold TcpSlaveServer.connUpAt
  split
  · exact .inl rfl
  · next hnone =>
    by_cases hk : key = key'
    · subst hk
      exact .inr ⟨hnone, Std.ExtTreeMap.getElem?_insert_self⟩
    · exact .inl (getElem?_insert_ne hk)

theorem peerInv_start (key : Int) (cfg : ServerCommonConfig) : PeerInv key (start 0 cfg) where
  inv := inv_start 0 cfg
  spares := spares_start 0 cfg
  idx := rfl
  state := .unknown rfl rfl (by rintro i ⟨c, hc, _⟩; exact nomatch hc)

theorem PeerState.step (h : PeerState key w) (hidx : w'.server.slaveIdx = w.server.slaveIdx)
    (hs : LinkStep key w w') : PeerState key w' := by
  have hzero {v : Int} (hv : w.server.connUp[key]? = some v) (hnn : 0 ≤ v) : w.server.isUp key :=
    ⟨v, hv, hnn⟩
  cases hs with
  | same hup hq hl =>
    cases h with
    | unknown hv hc hn => exact .unknown (hup.trans hv) (hq.trans hc) fun i => (hl i).not.mpr (hn i)
    | lost hv hc hn => exact .lost (hup.trans hv) (hq.trans hc) fun i => (hl i).not.mpr (hn i)
    | zero hv hc hn => exact .zero (hup.trans hv) (hq.trans_le hc) fun i => (hl i).not.mpr (hn i)
    | up i hv hc hn =>
      exact .up i (by rw [hidx]; exact hup.trans hv) (hq.trans hc) fun j => (hl j).trans (hn j)
  | queued hdown hup hq hl =>
    cases h with
    | unknown _ hc hn => exact .zero hup (by omega) fun i => (hl i).not.mpr (hn i)
    | lost _ hc hn => exact .zero hup (by omega) fun i => (hl i).not.mpr (hn i)
    | zero hv => exact absurd (hzero hv le_rfl) hdown
    | up i hv => exact absurd (hzero hv (by positivity)) hdown
  | lost i hcloser hup hq hl =>
    have hgone (hn : ∀ j, ¬ Linked key w j) (j : ℕ) : ¬ Linked key w' j :=
      fun hj => hn j ((hl j).mp hj).1
    cases h with
    | unknown _ hc hn => exact .lost hup (hq.trans hc) (hgone hn)
    | lost _ hc hn => exact .lost hup (hq.trans hc) (hgone hn)
    | zero hv _ hn => exact absurd (hzero hv le_rfl) (hcloser (hn i))
    | up k hv hc hn =>
      have hi : Linked key w i := by
        by_contra hlive
        exact hcloser hlive (hzero hv (by positivity))
      refine .lost hup (hq.trans hc) fun j hj => ?_
      obtain ⟨hj, hne⟩ := (hl j).mp hj
      exact hne (((hn j).mp hj).trans ((hn i).mp hi).symm)
  | failed hup hq hl =>
    cases h with
    | unknown _ hc => omega
    | lost _ hc => omega
    | zero _ hc hn => exact .lost hup (by omega) fun i => (hl i).not.mpr (hn i)
    | up i _ hc => omega
  | linked i hup hq hl =>
    cases h with
    | unknown _ hc => omega
    | lost _ hc => omega
    | zero _ hc hn =>
      exact .up i (by rw [hidx]; exact hup) (by omega) fun j => by rw [hl, or_iff_right (hn j)]
    | up i _ hc => omega

theorem PeerState.looked (h : PeerState key w) (hl : Looked w w') : PeerState key w' := by
  have hlinks := linked_congr key hl.kept.slot hl.kept.closed
  have hq : w'.pending.count (.accept (-key)) = w.pending.count (.accept (-key)) := by
    rw [hl.kept.pending]
  have hidx : w'.server.slaveIdx = w.server.slaveIdx := by rw [hl.kept.table]
  rcases hl.connUp key with hup | ⟨hnone, hup⟩
  · exact h.step hidx (.same hup hq hlinks)
  · cases h with
    | unknown _ hc hn => exact .zero hup (by omega) fun i => (hlinks i).not.mpr (hn i)
    | lost hv => exact nomatch hnone.symm.trans hv
    | zero hv => exact nomatch hnone.symm.trans hv
    | up i hv => exact nomatch hnone.symm.trans hv

theorem PeerInv.step (h : PeerInv key w) (hkey : 1 ≤ key) {e : WorkerEvent} (hC : KeepsLinks e w)
    (hw : step e w = some w') : PeerInv key w' := by
  have hidx := ((step_cases h.inv.table hw).table h.inv.table).2
  exact ⟨h.inv.step hw, h.spares.step h.inv hC hw, hidx.trans h.idx,
    h.state.step hidx (linkStep_of_step hkey h.inv h.spares hC hw)⟩

theorem PeerInv.looked (h : PeerInv key w) (hl : Looked w w') : PeerInv key w' where
  inv := hl.kept.inv h.inv
  spares := by
    intro id issuer hm c hc
    rw [hl.kept.pending] at hm
    rw [hl.kept.slot] at hc
    rw [hl.kept.closed]
    exact h.spares id issuer hm c hc
  idx := by rw [hl.kept.table]; exact h.idx
  state := h.state.looked hl

/-- The entry of a key names no conduit, or one of this worker. -/
theorem PeerState.entry (h : PeerState key w) (hidx : w.server.slaveIdx = 0) :
    (w.server.connUpAt key).1 = -1 ∨ ∃ n : ℕ, (w.server.connUpAt key).1 = n * WORKERS := by
  unfold TcpSlaveServer.connUpAt
  cases h with
  | unknown hv => exact .inr ⟨0, by rw [hv]; simp⟩
  | lost hv => exact .inl (by rw [hv])
  | zero hv => exact .inr ⟨0, by rw [hv]; simp⟩
  | up i hv => exact .inr ⟨i, by rw [hv, hidx]; simp⟩

theorem find_zero (w : Worker) : w.find 0 = w.slot 0 := rfl

theorem addresses_zero {w' : Worker} (hlinks : ∀ i, ¬ Linked key w i)
    (hup : w'.server.connUp = w.server.connUp) :
    Addresses key w w' (w.slot 0) ↔ ∀ c ∈ w.slot 0, c.kind = .clientConn key ∧ c.serial ∉ w.closed := by
  constructor
  · intro h c hc
    exact nomatch (h.null hlinks).symm.trans hc
  · intro h
    have hnone : w.slot 0 = none := by
      by_contra hne
      obtain ⟨c, hc⟩ := Option.ne_none_iff_exists'.mp hne
      exact hlinks 0 ⟨c, hc, h c hc⟩
    exact ⟨fun c hc => absurd (hnone.symm.trans hc) (by simp), fun _ => hnone, hup⟩

theorem addresses_iff (h : PeerState key w) (hidx : w.server.slaveIdx = 0) :
    Addresses key w { w with server := (w.server.connUpAt key).2 }
      (w.find (w.server.connUpAt key).1) ↔ PeerReady key w := by
  have hsome {v : Int} (hv : w.server.connUp[key]? = some v) :
      w.server.connUpAt key = (v, w.server) := by
    unfold TcpSlaveServer.connUpAt
    rw [hv]
  cases h with
  | unknown hv =>
    refine iff_of_false (fun ha => ?_) (by simp [PeerReady, hv])
    have hup := ha.connUp
    unfold TcpSlaveServer.connUpAt at hup
    rw [hv] at hup
    have hkey := congrArg (fun m : Std.ExtTreeMap Int Int => m[key]?) hup
    simp only [Std.ExtTreeMap.getElem?_insert_self, hv] at hkey
    exact nomatch hkey
  | lost hv =>
    rw [hsome hv]
    refine iff_of_true ⟨fun c hc => ?_, fun _ => rfl, rfl⟩ ⟨by simp [hv], fun h0 => ?_⟩
    · exact nomatch hc
    · exact nomatch hv.symm.trans h0
  | zero hv _ hlinks =>
    rw [hsome hv, find_zero, addresses_zero hlinks rfl]
    simp [PeerReady, hv]
  | up i hv _ hlinks =>
    have hw : w.server.slaveIdx < WORKERS := by rw [hidx]; exact Nat.succ_pos 1
    have hfind : w.find ((i : Int) * WORKERS + w.server.slaveIdx) = w.slot i := by
      have hne : (i : Int) * WORKERS + w.server.slaveIdx ≠ -1 := by
        simp only [WORKERS]
        omega
      rw [find, if_neg hne, slotOf_uid hw]
    obtain ⟨c, hc, hlive⟩ := (hlinks i).mpr rfl
    rw [hsome hv, hfind]
    refine iff_of_true ⟨?_, fun hn => absurd ⟨c, hc, hlive⟩ (hn i), rfl⟩ ⟨by simp [hv], ?_⟩
    · intro d hd
      rw [Option.some.inj (hd.symm.trans hc)]
      exact ⟨i, hc, hlive⟩
    · intro h0 d hd
      have hi : i = 0 := by
        have hv0 := Option.some.inj (hv.symm.trans h0)
        simp only [WORKERS, hidx] at hv0
        omega
      rw [hi] at hc
      rw [Option.some.inj (hd.symm.trans hc)]
      exact hlive

end Worker

namespace Server

/-- The event of a worker that an event of the server comes down to: `on_read` closes the
conduit when it finds a rejected header. -/
def workerEvent (e : ServerEvent) (s : Server) : Option (Fin WORKERS × WorkerEvent) :=
  match e with
  | .worker k e => some (k, e)
  | .readRound k i =>
      if (s.slot k i).any fun c => (parsePacket c.kind (s.input k c.serial)).cmd < 0 then
        some (k, .forceClose i)
      else none
  | _ => none

def KeepsLinks (e : ServerEvent) (s : Server) : Prop :=
  ∀ p ∈ workerEvent e s, p.1 = 0 → Worker.KeepsLinks p.2 (s.workers 0)

instance (e : ServerEvent) (s : Server) : Decidable (KeepsLinks e s) :=
  inferInstanceAs (Decidable (∀ p ∈ workerEvent e s, p.1 = 0 → Worker.KeepsLinks p.2 (s.workers 0)))

/-- `TcpMasterServer::findConn` of the negated key. -/
def Addresses (key : Int) (s : Server) : Prop :=
  ∃ result, (s.findConn (-key)).1 = result.map ((0 : Fin WORKERS), ·) ∧
    Worker.Addresses key (s.workers 0) ((s.findConn (-key)).2.workers 0) result

variable {s t : Server}

theorem looked_findConn (id : Int) (s : Server) :
    Worker.Looked (s.workers 0) ((s.findConn id).2.workers 0) := by
  unfold findConn
  split_ifs
  · exact .refl _
  · exact Worker.looked_connUpAt (-id) (s.workers 0)

theorem looked_sendMsgToClient (id : Int) (buf : List UInt8) (size : UInt16) (cause : Option ℕ)
    {r : Server} (hr : r.workers = s.workers) :
    Worker.Looked (s.workers 0) ((r.sendMsgToClient id buf size cause).workers 0) := by
  refine ⟨sendMsgToClient_kept id buf size cause hr 0, fun key => ?_⟩
  have hl := (looked_findConn id r).connUp key
  rw [hr] at hl
  rw [sendMsgToClient]
  cases hc : (r.findConn id).1 with
  | none => exact hl
  | some p =>
    simp only [send, setServer_workers]
    split_ifs with hk
    · rw [← hk]
      exact hl
    · exact hl

theorem looked_callLogic (m : Msg) {r : Server} (hr : r.workers = s.workers) :
    Worker.Looked (s.workers 0) ((r.callLogic m).workers 0) := by
  unfold callLogic
  split
  · unfold processProxyLogic proxyMsg2Server
    split_ifs
    · refine looked_sendMsgToClient _ _ _ _ ?_
      exact hr
    · refine looked_sendMsgToClient _ _ _ _ ?_
      rw [linkedServerAt_rest]
      exact hr
  · rw [hr]
    exact .refl _

theorem setWorker_workers (k j : Fin WORKERS) (w : Worker) (s : Server) :
    (s.setWorker k w).workers j = if j = k then w else s.workers j :=
  Function.update_apply _ _ _ _

theorem worker_step {k : Fin WORKERS} {e : WorkerEvent} {w : Worker} {e' : ServerEvent}
    (he : workerEvent e' s = some (k, e)) (hw : Worker.step e (s.workers k) = some w)
    (ht : t = s.setWorker k w) :
    (∃ e, workerEvent e' s = some (0, e) ∧ Worker.step e (s.workers 0) = some (t.workers 0)) ∨
      Worker.Looked (s.workers 0) (t.workers 0) := by
  by_cases hk : k = 0
  · subst hk
    exact .inl ⟨e, he, by rw [ht, setWorker_workers, if_pos rfl, hw]⟩
  · refine .inr ?_
    rw [ht, setWorker_workers, if_neg (Ne.symm hk)]
    exact .refl _

/-- A step of the server is a step of the worker with the connections, or leaves that worker
alone except for the keys that are looked up. -/
theorem step_worker {e : ServerEvent} (h : step e s = some t) :
    (∃ e', workerEvent e s = some (0, e') ∧ Worker.step e' (s.workers 0) = some (t.workers 0)) ∨
      Worker.Looked (s.workers 0) (t.workers 0) := by
  cases e with
  | worker k e =>
    obtain ⟨w, hw, rfl⟩ := Option.map_eq_some_iff.mp h
    exact worker_step rfl hw rfl
  | receive k i bytes =>
    obtain ⟨c, _, rfl⟩ := Option.map_eq_some_iff.mp h
    exact .inr (.refl _)
  | readRound k i =>
    obtain ⟨c, hc, hround⟩ := Option.bind_eq_some_iff.mp h
    by_cases hneg : (parsePacket c.kind (s.input k c.serial)).cmd < 0
    · rw [if_pos hneg] at hround
      obtain ⟨w, hw, rfl⟩ := Option.map_eq_some_iff.mp hround
      exact worker_step (by simp [workerEvent, hc, hneg]) hw rfl
    · rw [if_neg hneg] at hround
      refine .inr ?_
      split_ifs at hround <;> obtain rfl := Option.some.inj hround <;> exact .refl _
  | getMsgQueue =>
    simp only [step] at h
    split_ifs at h
    obtain rfl := Option.some.inj h
    exact .inr (.refl _)
  | processMsg =>
    cases hd : s.draining with
    | nil => simp [step, processMsg, hd] at h
    | cons m rest =>
      simp only [step, processMsg, hd] at h
      obtain rfl := Option.some.inj h
      exact .inr (looked_callLogic m rfl)
  | sendMsgToClient id buf size =>
    obtain rfl := Option.some.inj h
    exact .inr (looked_sendMsgToClient id buf size none rfl)

theorem peerInv_step {key : Int} (hkey : 1 ≤ key) (hi : Worker.PeerInv key (s.workers 0))
    {e : ServerEvent} (hC : KeepsLinks e s) (ht : step e s = some t) :
    Worker.PeerInv key (t.workers 0) := by
  rcases step_worker ht with ⟨e', he, hw⟩ | hl
  · exact hi.step hkey (hC _ he rfl) hw
  · exact hi.looked hl

theorem findConn_neg {key : Int} (hkey : 1 ≤ key) (hi : Worker.PeerInv key (s.workers 0)) :
    (s.findConn (-key)).1 =
        ((s.workers 0).find ((s.workers 0).server.connUpAt key).1).map ((0 : Fin WORKERS), ·) ∧
      (s.findConn (-key)).2.workers 0 =
        { s.workers 0 with server := ((s.workers 0).server.connUpAt key).2 } := by
  have hslot (n : ℕ) : (s.setServer 0 ((s.workers 0).server.connUpAt key).2).slot 0 n =
      (s.workers 0).slot n :=
    (Worker.looked_connUpAt key (s.workers 0)).kept.slot n
  rw [findConn, if_neg (by omega), neg_neg]
  refine ⟨?_, rfl⟩
  dsimp only
  rcases hi.state.entry hi.idx with hv | ⟨n, hv⟩
  · rw [hv]
    rfl
  · have hne : ¬ (n : Int) * WORKERS = -1 := by
      simp only [WORKERS]
      omega
    have hmod : Fin.ofNat WORKERS ((n : Int) * WORKERS % WORKERS).toNat = 0 := by simp
    rw [hv, find, if_neg hne, hmod, Worker.find, if_neg hne]
    exact congrArg (Option.map _) (hslot _)

theorem addresses_iff {key : Int} (hkey : 1 ≤ key) (hi : Worker.PeerInv key (s.workers 0)) :
    s.Addresses key ↔ (s.workers 0).PeerReady key := by
  obtain ⟨hfind, hworker⟩ := findConn_neg hkey hi
  rw [← Worker.addresses_iff hi.state hi.idx, Addresses, hfind, hworker]
  constructor
  · rintro ⟨result, hr, ha⟩
    rwa [Option.map_injective (fun _ _ h => congrArg Prod.snd h) hr]
  · exact fun ha => ⟨_, rfl, ha⟩

end Server

inductive ClientEvent where
  | worker (e : WorkerEvent)
  | sendMsgToClient (sessionID : Int) (buffer : List UInt8) (size : UInt16)
  | getConnStatus (sessionID : Int)
  deriving DecidableEq, Repr

namespace TcpClientService

def start (cfg : ServerCommonConfig) : TcpClientService := ⟨Worker.start 0 cfg, []⟩

def step : ClientEvent → TcpClientService → Option TcpClientService
  | .worker e, s => (Worker.step e s.worker).map fun w => { s with worker := w }
  | .sendMsgToClient sessionID buffer size, s => some (s.sendMsgToClient sessionID buffer size)
  | .getConnStatus sessionID, s => some (s.findConn (-sessionID)).2

def KeepsLinks (e : ClientEvent) (s : TcpClientService) : Prop :=
  match e with
  | .worker e => Worker.KeepsLinks e s.worker
  | _ => True

instance (e : ClientEvent) (s : TcpClientService) : Decidable (KeepsLinks e s) :=
  match e with
  | .worker e => inferInstanceAs (Decidable (Worker.KeepsLinks e s.worker))
  | .sendMsgToClient _ _ _ => .isTrue trivial
  | .getConnStatus _ => .isTrue trivial

/-- `TcpClientService::findConn` of the negated key. -/
def Addresses (key : Int) (s : TcpClientService) : Prop :=
  Worker.Addresses key s.worker (s.findConn (-key)).2.worker (s.findConn (-key)).1

variable {s t : TcpClientService}

theorem looked_findConn (id : Int) (s : TcpClientService) :
    Worker.Looked s.worker (s.findConn id).2.worker := by
  unfold findConn
  split_ifs
  · exact .refl _
  · exact Worker.looked_connUpAt (-id) s.worker

theorem looked_sendMsgToClient (id : Int) (buf : List UInt8) (size : UInt16) (s : TcpClientService) :
    Worker.Looked s.worker (s.sendMsgToClient id buf size).worker := by
  have hl := looked_findConn (-id) s
  rw [sendMsgToClient]
  cases hc : (s.findConn (-id)).1 with
  | none => exact hl
  | some c =>
    dsimp only
    refine ⟨⟨?_, hl.kept.pending, hl.kept.closed, hl.kept.connUp⟩, hl.connUp⟩
    have htable := hl.kept.table
    simp only [Worker.SameTable, TcpSlaveServer.send] at htable ⊢
    rw [htable]

theorem peerInv_step {key : Int} (hkey : 1 ≤ key) (hi : Worker.PeerInv key s.worker)
    {e : ClientEvent} (hC : KeepsLinks e s) (ht : step e s = some t) :
    Worker.PeerInv key t.worker := by
  cases e with
  | worker e =>
    obtain ⟨w, hw, rfl⟩ := Option.map_eq_some_iff.mp ht
    exact hi.step hkey hC hw
  | sendMsgToClient id buf size =>
    obtain rfl := Option.some.inj ht
    exact hi.looked (looked_sendMsgToClient id buf size s)
  | getConnStatus id =>
    obtain rfl := Option.some.inj ht
    exact hi.looked (looked_findConn (-id) s)

theorem addresses_iff {key : Int} (hkey : 1 ≤ key) (hi : Worker.PeerInv key s.worker) :
    s.Addresses key ↔ s.worker.PeerReady key := by
  have hfind (id : Int) : find id { s with worker :=
      { s.worker with server := (s.worker.server.connUpAt key).2 } } = s.worker.find id := by
    unfold find Worker.find
    split_ifs
    · rfl
    · exact (Worker.looked_connUpAt key s.worker).kept.slot _
  rw [← Worker.addresses_iff hi.state hi.idx, Addresses, findConn, if_neg (by omega), neg_neg]
  dsimp only
  rw [hfind]

end TcpClientService

/-- Looking up a peer server finds its live connection or nothing exactly when the key has
an entry and a zero entry does not point at a stranger in slot zero. -/
theorem peer_lookup_iff (cfg : ServerCommonConfig) (key : Int) (hkey : 1 ≤ key) :
    (∀ es s, Transition.Always Server.step Server.KeepsLinks es (Server.start cfg) →
      Transition.run Server.step es (Server.start cfg) = some s →
      (s.Addresses key ↔ (s.workers 0).PeerReady key)) ∧
    ∀ es s, Transition.Always TcpClientService.step TcpClientService.KeepsLinks es
        (TcpClientService.start cfg) →
      Transition.run TcpClientService.step es (TcpClientService.start cfg) = some s →
      (s.Addresses key ↔ s.worker.PeerReady key) := by
  constructor
  · intro es s hC hs
    exact Server.addresses_iff hkey (Transition.run_preserves_of
      (I := fun s => Worker.PeerInv key (s.workers 0))
      (fun _ _ _ hi hC ht => Server.peerInv_step hkey hi hC ht) (Worker.peerInv_start key cfg) hC hs)
  · intro es s hC hs
    exact TcpClientService.addresses_iff hkey (Transition.run_preserves_of
      (I := fun s => Worker.PeerInv key s.worker)
      (fun _ _ _ hi hC ht => TcpClientService.peerInv_step hkey hi hC ht)
      (Worker.peerInv_start key cfg) hC hs)

/-- A client is in slot zero, and the connection to server 257 in the slot behind it. -/
theorem peer_lookup_connected :
    (∃ s, Transition.run Server.step
      [.worker 0 (.accepted 5), .worker 0 (.initConnection 257), .worker 0 .takeOps,
        .worker 0 (.exec ⟨-1, false, false, false⟩), .worker 0 (.exec ⟨9, false, false, false⟩)]
      (Server.start linkedConfig) = some s ∧
      (s.findConn (-257)).1 = some (0, ⟨.clientConn 257, 9, 2, 1⟩) ∧ s.Addresses 257) ∧
    ∃ s, Transition.run TcpClientService.step
      [.worker (.initConnection 257), .worker .takeOps, .worker (.exec ⟨9, false, false, false⟩)]
      (TcpClientService.start linkedConfig) = some s ∧
      (s.findConn (-257)).1 = some ⟨.clientConn 257, 9, 0, 0⟩ ∧ s.Addresses 257 := by
  obtain ⟨hserver, hclient⟩ := peer_lookup_iff linkedConfig 257 (by omega)
  constructor
  · obtain ⟨s, hs, hfind, hready⟩ := Transition.exists_run Server.step
      [.worker 0 (.accepted 5), .worker 0 (.initConnection 257), .worker 0 .takeOps,
        .worker 0 (.exec ⟨-1, false, false, false⟩), .worker 0 (.exec ⟨9, false, false, false⟩)]
      (Server.start linkedConfig) (fun s => (s.findConn (-257)).1 =
        some (0, ⟨.clientConn 257, 9, 2, 1⟩) ∧ (s.workers 0).PeerReady 257) (by decide)
    exact ⟨s, hs, hfind, (hserver _ s (by decide) hs).mpr hready⟩
  · obtain ⟨s, hs, hfind, hready⟩ := Transition.exists_run TcpClientService.step
      [.worker (.initConnection 257), .worker .takeOps, .worker (.exec ⟨9, false, false, false⟩)]
      (TcpClientService.start linkedConfig) (fun s => (s.findConn (-257)).1 =
        some ⟨.clientConn 257, 9, 0, 0⟩ ∧ s.worker.PeerReady 257) (by decide)
    exact ⟨s, hs, hfind, (hclient _ s (by decide) hs).mpr hready⟩

def twoPeers : ServerCommonConfig := linkedConfig.addConnectListOf 1 2 "127.0.0.1" 8200

/-- The lookup of a key that was never configured finds the client in slot zero and makes an
entry; the lookup of a queued key finds the connection to another server. -/
theorem peer_lookup_stranger :
    (∃ s, Transition.run Server.step
      [.worker 0 (.accepted 5), .worker 0 .takeOps, .worker 0 (.exec ⟨-1, false, false, false⟩)]
      (Server.start linkedConfig) = some s ∧
      (s.findConn (-300)).1 = some (0, ⟨.gameClient, 5, 0, 0⟩) ∧
      ((s.findConn (-300)).2.workers 0).server.connUp[(300 : Int)]? = some 0 ∧
      ¬ s.Addresses 300) ∧
    ∃ s, Transition.run TcpClientService.step
      [.worker (.initConnection 257), .worker .takeOps, .worker (.exec ⟨9, false, false, false⟩),
        .worker (.initConnection 258)]
      (TcpClientService.start twoPeers) = some s ∧
      (s.findConn (-258)).1 = some ⟨.clientConn 257, 9, 0, 0⟩ ∧ ¬ s.Addresses 258 := by
  constructor
  · obtain ⟨s, hs, hfind, hup⟩ := Transition.exists_run Server.step
      [.worker 0 (.accepted 5), .worker 0 .takeOps, .worker 0 (.exec ⟨-1, false, false, false⟩)]
      (Server.start linkedConfig) (fun s => (s.findConn (-300)).1 =
        some (0, ⟨.gameClient, 5, 0, 0⟩) ∧
        ((s.findConn (-300)).2.workers 0).server.connUp[(300 : Int)]? = some 0) (by decide)
    refine ⟨s, hs, hfind, hup, ?_⟩
    rintro ⟨result, hr, ha⟩
    rw [hfind] at hr
    obtain ⟨c, hc, he⟩ := Option.map_eq_some_iff.mp hr.symm
    obtain ⟨_, _, hk, _⟩ := ha.live c hc
    rw [(Prod.mk.inj he).2] at hk
    exact nomatch hk
  · obtain ⟨s, hs, hfind⟩ := Transition.exists_run TcpClientService.step
      [.worker (.initConnection 257), .worker .takeOps, .worker (.exec ⟨9, false, false, false⟩),
        .worker (.initConnection 258)]
      (TcpClientService.start twoPeers) (fun s => (s.findConn (-258)).1 =
        some ⟨.clientConn 257, 9, 0, 0⟩) (by decide)
    refine ⟨s, hs, hfind, fun ha => ?_⟩
    obtain ⟨_, _, hk, _⟩ := ha.live _ hfind
    exact absurd hk (by decide)

end RgcFifa
