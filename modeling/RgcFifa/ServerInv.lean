import RgcFifa.Server

/-! What holds in every state of the server: of its workers, of the queue, and of the
origin of every message that has passed through it. -/

namespace RgcFifa

open TcpSlaveServer (slotOf)

namespace Worker

def ZeroUp (w : Worker) : Prop := ∀ v, w.server.connUp[(0 : Int)]? = some v → v = 0

/-- The logic thread leaves the table and the operations of a worker alone. -/
structure Kept (w w' : Worker) : Prop where
  table : SameTable w.server w'.server
  pending : w'.pending = w.pending
  closed : w'.closed = w.closed
  connUp : w'.server.connUp = w.server.connUp ∨
    ∃ key, w'.server.connUp = w.server.connUp.insert key 0

variable {w w' : Worker}

theorem Kept.refl (w : Worker) : Kept w w := ⟨rfl, rfl, rfl, .inl rfl⟩

theorem Kept.slot (h : Kept w w') (i : ℕ) : w'.slot i = w.slot i := h.table.slot i

theorem Kept.built (h : Kept w w') : w'.server.built = w.server.built := by rw [h.table]

theorem Kept.inv (h : Kept w w') (hw : w.Inv) : w'.Inv where
  table := (h.table.table hw.table).1
  idx := by rw [h.table]; exact hw.idx
  serial := by
    intro i c hc
    rw [h.slot] at hc
    rw [h.built]
    exact hw.serial i c hc
  inj := by
    intro i j c d hc hd
    rw [h.slot] at hc hd
    exact hw.inj i j c d hc hd
  key := by
    intro i c s hc
    rw [h.slot] at hc
    exact hw.key i c s hc
  closed := by
    rw [h.closed, h.built]
    exact hw.closed
  issuer := by
    rw [h.closed, h.pending]
    exact hw.issuer

theorem ZeroUp.of_insert (hz : w.ZeroUp) (key v : Int) (hv : key = 0 → v = 0)
    (h : w'.server.connUp = w.server.connUp.insert key v) : w'.ZeroUp := by
  intro u hu
  rw [h] at hu
  by_cases hk : key = 0
  · rw [hk, Std.ExtTreeMap.getElem?_insert_self] at hu
    rw [← Option.some.inj hu, hv hk]
  · rw [getElem?_insert_ne hk] at hu
    exact hz u hu

theorem ZeroUp.of_eq (hz : w.ZeroUp) (h : w'.server.connUp = w.server.connUp) : w'.ZeroUp := by
  intro v hv
  rw [h] at hv
  exact hz v hv

theorem Kept.zeroUp (h : Kept w w') (hz : w.ZeroUp) : w'.ZeroUp := by
  rcases h.connUp with he | ⟨key, he⟩
  · exact hz.of_eq he
  · exact hz.of_insert key 0 (fun _ => rfl) he

theorem ZeroUp.step (hz : w.ZeroUp) (h : w.Inv) {e : WorkerEvent} (hw : step e w = some w') :
    w'.ZeroUp := by
  cases step_cases h.table hw with
  | idle _ _ hup => exact hz.of_eq hup
  | connect key _ _ _ hup => exact hz.of_insert key.toNat 0 (fun _ => rfl) hup
  | accepted sock _ _ hup => exact hz.of_eq hup
  | forceClose i c _ hc _ hup =>
    cases hk : c.kind with
    | gameClient => exact hz.of_eq (hup.trans (by rw [TcpSlaveServer.onDisconnected, hk]))
    | clientConn ss =>
      have hss := h.key i c ss hc hk
      refine hz.of_insert ss (-1) (fun h0 => absurd h0 (by omega)) (hup.trans ?_)
      rw [TcpSlaveServer.onDisconnected, hk]
      rfl
  | accept a ss ht =>
    rcases ht with ⟨_, ht⟩ | ⟨c, hi⟩
    · rw [TcpSlaveServer.acceptFailed_eq] at ht
      by_cases hs : ss < 0
      · exact hz.of_insert (-ss) (-1) (fun h0 => absurd h0 (by omega)) (by rw [ht, if_pos hs])
      · exact hz.of_eq (by rw [ht, if_neg hs])
    · by_cases hs : ss < 0
      · exact hz.of_insert (-ss) c.uid (fun h0 => absurd h0 (by omega))
          (by rw [hi.connUp, if_pos hs])
      · exact hz.of_eq (by rw [hi.connUp, if_neg hs])
  | remove a id issuer hr =>
    cases hc : w.slot (slotOf id) with
    | none => exact hz.of_eq (by rw [hr, TcpSlaveServer.doRemove_none hc])
    | some c => exact hz.of_eq (by rw [hr, (TcpSlaveServer.doRemove_some h.table hc).rest])

end Worker

def Msg.Framed (m : Msg) : Prop :=
  ∃ f : Frame, m.raw = f.bytes ∧
    m.block = (onRecv m.kind f.recv (m.slot * WORKERS + m.worker)).block f.body

namespace Server

def resolve (id : Int) (s : Server) : Option (Fin WORKERS × TcpConduit) := (s.findConn id).1

variable {s t : Server}

theorem setServer_workers (k j : Fin WORKERS) (u : TcpSlaveServer) (s : Server) :
    (s.setServer k u).workers j = if j = k then { s.workers k with server := u } else s.workers j :=
  Function.update_apply _ _ _ _

theorem connUpAt_kept (key : Int) (w : Worker) :
    Worker.Kept w { w with server := (w.server.connUpAt key).2 } := by
  unfold TcpSlaveServer.connUpAt
  split
  · exact .refl w
  · exact ⟨rfl, rfl, rfl, .inr ⟨key, rfl⟩⟩

theorem findConn_kept (id : Int) (s : Server) (k : Fin WORKERS) :
    Worker.Kept (s.workers k) ((s.findConn id).2.workers k) := by
  unfold findConn
  split_ifs
  · exact .refl _
  · rw [setServer_workers]
    split_ifs with hk
    · rw [hk]
      exact connUpAt_kept (-id) (s.workers 0)
    · exact .refl _

theorem findConn_rest (id : Int) (s : Server) :
    (s.findConn id).2 = { s with workers := (s.findConn id).2.workers } := by
  unfold findConn
  split_ifs <;> rfl

theorem sendMsgToClient_writes (id : Int) (buf : List UInt8) (size : UInt16) (cause : Option ℕ)
    (s : Server) : (s.sendMsgToClient id buf size cause).writes = s.writes ++
      ((s.resolve id).map fun p => ⟨p.1, p.2.serial, buf.take size.toNat, cause⟩).toList := by
  rw [sendMsgToClient, resolve]
  cases hc : (s.findConn id).1 with
  | none =>
    rw [findConn_rest]
    exact (List.append_nil _).symm
  | some p =>
    rw [findConn_rest]
    rfl

theorem sendMsgToClient_rest (id : Int) (buf : List UInt8) (size : UInt16) (cause : Option ℕ)
    (s : Server) : s.sendMsgToClient id buf size cause =
      { s with
        workers := (s.sendMsgToClient id buf size cause).workers
        writes := (s.sendMsgToClient id buf size cause).writes } := by
  rw [sendMsgToClient]
  cases hc : (s.findConn id).1 with
  | none =>
    dsimp only
    rw [findConn_rest]
  | some p =>
    dsimp only
    rw [findConn_rest]
    rfl

theorem sendMsgToClient_kept (id : Int) (buf : List UInt8) (size : UInt16) (cause : Option ℕ)
    {r : Server} (hr : r.workers = s.workers) (k : Fin WORKERS) :
    Worker.Kept (s.workers k) ((r.sendMsgToClient id buf size cause).workers k) := by
  have hf := findConn_kept id r k
  rw [← hr]
  rw [sendMsgToClient]
  cases hc : (r.findConn id).1 with
  | none => exact hf
  | some p =>
    simp only [send, setServer_workers]
    split_ifs with hk
    · rw [← hk]
      refine ⟨?_, hf.pending, hf.closed, hf.connUp⟩
      have htable := hf.table
      simp only [Worker.SameTable, TcpSlaveServer.send] at htable ⊢
      rw [htable]
    · exact hf

theorem linkedServerAt_rest (key : UInt32) (s : Server) :
    (s.linkedServerAt key).2 = { s with linkedServer := (s.linkedServerAt key).2.linkedServer } := by
  unfold linkedServerAt
  split <;> rfl

theorem callLogic_rest (m : Msg) (s : Server) : s.callLogic m =
    { s with
      workers := (s.callLogic m).workers
      linkedServer := (s.callLogic m).linkedServer
      writes := (s.callLogic m).writes } := by
  unfold callLogic
  split
  · unfold processProxyLogic proxyMsg2Server
    split_ifs
    · dsimp only
      rw [sendMsgToClient_rest]
    · dsimp only
      rw [sendMsgToClient_rest, linkedServerAt_rest]
  · rfl

theorem callLogic_kept (m : Msg) {r : Server} (hr : r.workers = s.workers) (k : Fin WORKERS) :
    Worker.Kept (s.workers k) ((r.callLogic m).workers k) := by
  unfold callLogic
  split
  · unfold processProxyLogic proxyMsg2Server
    split_ifs
    · refine sendMsgToClient_kept _ _ _ _ ?_ k
      exact hr
    · refine sendMsgToClient_kept _ _ _ _ ?_ k
      rw [linkedServerAt_rest]
      exact hr
  · rw [hr]
    exact .refl _

def StreamsKept (s t : Server) : Prop :=
  ∀ k n consumed, s.received k n = consumed ++ s.input k n → t.received k n = consumed ++ t.input k n

inductive Stepped (s t : Server) : Prop where
  | worker (k : Fin WORKERS) (e : WorkerEvent) (w : Worker)
      (step : Worker.step e (s.workers k) = some w) (rest : t = s.setWorker k w)
  | input (bytes : s.StreamsKept t) (rest : t = { s with input := t.input, received := t.received })
  | push (m : Msg) (c : TcpConduit) (slot : s.slot m.worker m.slot = some c)
      (serial : m.serial = c.serial) (built : m.built = (s.workers m.worker).server.built)
      (num : m.num = s.arrived.length)
      (framed : c.uid = m.slot * WORKERS + m.worker → Msg.Framed m)
      (bytes : s.input m.worker m.serial = m.raw ++ t.input m.worker m.serial ∧
        ∀ k n, ¬ (m.worker = k ∧ m.serial = n) → t.input k n = s.input k n)
      (rest : t = { s with
        input := t.input
        msgQueue := s.msgQueue ++ [m]
        arrived := s.arrived ++ [m] })
  | swap (idle : s.draining = []) (rest : t = { s with draining := s.msgQueue, msgQueue := [] })
  | logic (m : Msg) (rest : List Msg) (head : s.draining = m :: rest)
      (call : t = callLogic m { s with draining := rest, handled := s.handled ++ [m] })
  | send (id : Int) (buf : List UInt8) (size : UInt16)
      (call : t = s.sendMsgToClient id buf size none)

theorem update₂_apply {β : Type*} (g : Fin WORKERS → ℕ → β) (k : Fin WORKERS) (n : ℕ) (v : β)
    (k' : Fin WORKERS) (n' : ℕ) : Function.update g k (Function.update (g k) n v) k' n' =
      if k = k' ∧ n = n' then v else g k' n' := by
  by_cases hk : k = k'
  · subst hk
    by_cases hn : n = n'
    · subst hn; simp
    · simp [hn, Ne.symm hn]
  · simp [hk, Ne.symm hk]

theorem readRound_cases {k : Fin WORKERS} {i : ℕ} (h : s.readRound k i = some t) : Stepped s t := by
  obtain ⟨c, hc, hround⟩ := Option.bind_eq_some_iff.mp h
  simp only [parsePacket_kind, parsePacket_eq] at hround
  by_cases hcomplete : Complete (s.input k c.serial)
  · simp only [if_pos hcomplete] at hround
    by_cases hneg : (headerPacket (s.input k c.serial)).cmd < 0
    · rw [if_pos hneg] at hround
      obtain ⟨w, hw, rfl⟩ := Option.map_eq_some_iff.mp hround
      exact .worker k (.forceClose i) w hw rfl
    · have hlen : ¬ (headerPacket (s.input k c.serial)).len ≤ 0 := Nat.not_succ_le_zero _
      rw [if_neg hneg, if_neg hlen] at hround
      obtain ⟨f, hraw, hrecv⟩ := exists_frame hcomplete (Int.not_lt.mp hneg)
      rw [hrecv] at hround
      obtain rfl := Option.some.inj hround
      refine .push _ c hc rfl rfl rfl (fun huid => ⟨f, hraw, by rw [huid]; rfl⟩) ⟨?_, ?_⟩ rfl
      · simp only [update₂_apply, and_self, if_true, List.take_append_drop]
      · intro k' n' hkn
        simp only [update₂_apply, if_neg hkn]
  · simp only [if_neg hcomplete, Packet.incomplete] at hround
    obtain rfl := Option.some.inj hround
    exact .input (fun _ _ _ h => h) rfl

theorem step_cases {e : ServerEvent} (h : step e s = some t) : Stepped s t := by
  cases e with
  | worker k e =>
    obtain ⟨w, hw, rfl⟩ := Option.map_eq_some_iff.mp h
    exact .worker k e w hw rfl
  | receive k i bytes =>
    obtain ⟨c, _, rfl⟩ := Option.map_eq_some_iff.mp h
    refine .input (fun k' n' consumed hb => ?_) rfl
    simp only [update₂_apply]
    split_ifs with hkn
    · rw [hkn.1, hkn.2, hb, List.append_assoc]
    · exact hb
  | readRound k i => exact readRound_cases h
  | getMsgQueue =>
    simp only [step] at h
    split_ifs at h with hidle
    exact .swap (List.isEmpty_iff.mp hidle) (Option.some.inj h).symm
  | processMsg =>
    cases hd : s.draining with
    | nil => simp [step, processMsg, hd] at h
    | cons m rest =>
      simp only [step, processMsg, hd] at h
      exact .logic m rest hd (Option.some.inj h).symm
  | sendMsgToClient id buf size => exact .send id buf size (Option.some.inj h).symm

structure WorkerStep (w w' : Worker) : Prop where
  inv : w'.Inv
  idx : w'.server.slaveIdx = w.server.slaveIdx
  zero : w'.ZeroUp
  slots : Worker.SlotStep w.server w'.server

theorem WorkerStep.of_kept {w w' : Worker} (hi : w.Inv) (hz : w.ZeroUp) (h : Worker.Kept w w') :
    WorkerStep w w' where
  inv := h.inv hi
  idx := by rw [h.table]
  zero := h.zeroUp hz
  slots := h.table.slots

theorem WorkerStep.of_step {w w' : Worker} (hi : w.Inv) (hz : w.ZeroUp) {e : WorkerEvent}
    (h : Worker.step e w = some w') : WorkerStep w w' where
  inv := hi.step h
  idx := ((Worker.step_cases hi.table h).table hi.table).2
  zero := hz.step hi h
  slots := (Worker.step_cases hi.table h).slots hi.table

/-- Where a message came from: its conduit is still in the slot it had, or gone, and a
successor in that slot was built after the message was received. -/
structure Origin (s : Server) (m : Msg) : Prop where
  serial : m.serial < m.built
  built : m.built ≤ (s.workers m.worker).server.built
  occupant : ∀ c, s.slot m.worker m.slot = some c → c.serial = m.serial ∨ m.built ≤ c.serial
  stays : ∀ i c, s.slot m.worker i = some c → c.serial = m.serial → i = m.slot
  framed : m.Framed

def consumed (k : Fin WORKERS) (n : ℕ) (s : Server) : List UInt8 :=
  ((s.arrived.filter fun m => m.worker = k ∧ m.serial = n).map Msg.raw).flatten

structure Inv (s : Server) : Prop where
  worker : ∀ k, (s.workers k).Inv
  idx : ∀ k : Fin WORKERS, (s.workers k).server.slaveIdx = k
  zero : ∀ k, (s.workers k).ZeroUp
  streams : ∀ k n, s.received k n = s.consumed k n ++ s.input k n
  queue : s.arrived = s.handled ++ s.draining ++ s.msgQueue
  num : s.arrived.map Msg.num = List.range s.arrived.length
  origin : ∀ m ∈ s.arrived, s.Origin m
  causes : (s.writes.filterMap Write.cause).Pairwise (· < ·)
  cause_lt : ∀ n ∈ s.writes.filterMap Write.cause, n < s.handled.length

theorem inv_start (cfg : ServerCommonConfig) : (start cfg).Inv where
  worker := fun k => Worker.inv_start k cfg
  idx := fun _ => rfl
  zero := fun _ _ h => nomatch h
  streams := fun _ _ => rfl
  queue := rfl
  num := rfl
  origin := fun _ h => nomatch h
  causes := .nil
  cause_lt := fun _ h => nomatch h

theorem Stepped.workers (h : s.Inv) (hs : Stepped s t) (k : Fin WORKERS) :
    WorkerStep (s.workers k) (t.workers k) := by
  have hkept {w : Worker} (hk : Worker.Kept (s.workers k) w) : WorkerStep (s.workers k) w :=
    .of_kept (h.worker k) (h.zero k) hk
  cases hs with
  | worker j e w hw ht =>
    rw [ht, setWorker]
    dsimp only
    rw [Function.update_apply]
    split_ifs with hk
    · rw [hk]
      exact .of_step (h.worker j) (h.zero j) hw
    · exact hkept (.refl _)
  | input _ ht => rw [ht]; exact hkept (.refl _)
  | push m c _ _ _ _ _ _ ht => rw [ht]; exact hkept (.refl _)
  | swap _ ht => rw [ht]; exact hkept (.refl _)
  | logic m rest _ ht =>
    rw [ht]
    refine hkept (callLogic_kept m ?_ k)
    rfl
  | send id buf size ht => rw [ht]; exact hkept (sendMsgToClient_kept _ _ _ _ rfl k)

theorem Origin.step {m : Msg} (ho : s.Origin m)
    (hw : ∀ k, WorkerStep (s.workers k) (t.workers k)) : t.Origin m where
  serial := ho.serial
  built := ho.built.trans (hw m.worker).slots.built_le
  occupant := by
    intro c hc
    rcases (hw m.worker).slots.occupant hc with hc | ⟨_, hser, _⟩
    · exact ho.occupant c hc
    · have hb := ho.built
      exact .inr (by omega)
  stays := by
    intro i c hc he
    rcases (hw m.worker).slots.occupant hc with hc | ⟨_, hser, _⟩
    · exact ho.stays i c hc he
    · have hb := ho.built
      have hlt := ho.serial
      omega
  framed := ho.framed

theorem origin_pushed (h : s.Inv) {m : Msg} {c : TcpConduit} (hc : s.slot m.worker m.slot = some c)
    (hser : m.serial = c.serial) (hb : m.built = (s.workers m.worker).server.built)
    (hf : c.uid = m.slot * WORKERS + m.worker → m.Framed) : s.Origin m where
  serial := by
    have hlt := (h.worker m.worker).serial m.slot c hc
    omega
  built := hb.le
  occupant := by
    intro d hd
    rw [hser, Option.some.inj (hd.symm.trans hc)]
    exact .inl rfl
  stays := by
    intro i d hd he
    exact (h.worker m.worker).inj i m.slot d c hd hc (he.trans hser)
  framed := by
    refine hf ?_
    rw [(h.worker m.worker).table.uid m.slot c hc, h.idx]

theorem Inv.head_num (h : s.Inv) {m : Msg} {rest : List Msg} (hd : s.draining = m :: rest) :
    m.num = s.handled.length := by
  have hq := h.queue
  rw [hd] at hq
  have hn := congrArg (fun l => l[s.handled.length]?) h.num
  have hlt : s.handled.length < s.arrived.length := by
    rw [hq]
    simp
  simp only [List.getElem?_map, List.getElem?_range hlt] at hn
  rw [hq] at hn
  simpa using hn

theorem callLogic_writes (m : Msg) (s : Server) :
    ∃ new, (s.callLogic m).writes = s.writes ++ new ∧
      (new = [] ∨ ∃ w, new = [w] ∧ w.cause = some m.num) := by
  have hone (id : Int) (buf : List UInt8) (size : UInt16) (r : Server) (hr : r.writes = s.writes) :
      ∃ new, (r.sendMsgToClient id buf size (some m.num)).writes = s.writes ++ new ∧
        (new = [] ∨ ∃ w : Write, new = [w] ∧ w.cause = some m.num) := by
    refine ⟨_, by rw [sendMsgToClient_writes, hr], ?_⟩
    cases r.resolve id with
    | none => exact .inl rfl
    | some p => exact .inr ⟨_, rfl, rfl⟩
  unfold callLogic
  split
  · unfold processProxyLogic proxyMsg2Server
    split_ifs
    · exact hone _ _ _ _ rfl
    · exact hone _ _ _ _ (by rw [linkedServerAt_rest])
  · exact ⟨[], (List.append_nil _).symm, .inl rfl⟩

/-- What a conduit has received is what its messages and its input buffer are, when another of its
messages has been taken off. -/
theorem Inv.streams_push (h : s.Inv) {m : Msg}
    (hbytes : s.input m.worker m.serial = m.raw ++ t.input m.worker m.serial ∧
      ∀ k n, ¬ (m.worker = k ∧ m.serial = n) → t.input k n = s.input k n) (k : Fin WORKERS) (n : ℕ) :
    s.received k n =
      ((((s.arrived ++ [m]).filter fun m => m.worker = k ∧ m.serial = n)).map Msg.raw).flatten ++
        t.input k n := by
  rw [h.streams k n, List.filter_append, List.map_append, List.flatten_append, List.append_assoc]
  congr 1
  by_cases hkn : m.worker = k ∧ m.serial = n
  · obtain ⟨rfl, rfl⟩ := hkn
    simpa using hbytes.1
  · simp [hkn, hbytes.2 k n hkn]

/-- A call writes at most once for its message, which is later than those written for. -/
theorem causes_append {old new : List Write} {num : ℕ}
    (hold : (old.filterMap Write.cause).Pairwise (· < ·))
    (hlt : ∀ n ∈ old.filterMap Write.cause, n < num)
    (hnew : new = [] ∨ ∃ w, new = [w] ∧ w.cause = some num) :
    ((old ++ new).filterMap Write.cause).Pairwise (· < ·) ∧
      ∀ n ∈ (old ++ new).filterMap Write.cause, n < num + 1 := by
  rw [List.filterMap_append]
  rcases hnew with rfl | ⟨w, rfl, hw⟩
  · rw [List.filterMap_nil, List.append_nil]
    exact ⟨hold, fun n hn => (hlt n hn).trans (Nat.lt_succ_self num)⟩
  · simp only [List.filterMap_cons, hw, List.filterMap_nil, List.pairwise_append,
      List.mem_append, List.mem_singleton]
    refine ⟨⟨hold, List.pairwise_singleton _ _, fun n hn _ he => he ▸ hlt n hn⟩, ?_⟩
    rintro n (hn | rfl)
    · exact (hlt n hn).trans (Nat.lt_succ_self num)
    · exact Nat.lt_succ_self n

theorem Inv.step (h : s.Inv) {e : ServerEvent} (ht : step e s = some t) : t.Inv := by
  have hs := step_cases ht
  have hw := hs.workers h
  have hidx (k : Fin WORKERS) : (t.workers k).server.slaveIdx = k := by rw [(hw k).idx, h.idx]
  have horigin (m : Msg) (hm : m ∈ s.arrived) : t.Origin m := (h.origin m hm).step hw
  have hinv := fun k => (hw k).inv
  have hzero := fun k => (hw k).zero
  cases hs with
  | worker j e w _ hrest =>
    rw [hrest] at hidx horigin hinv hzero ⊢
    exact ⟨hinv, hidx, hzero, h.streams, h.queue, h.num, horigin, h.causes, h.cause_lt⟩
  | input hbytes hrest =>
    have hstreams (k : Fin WORKERS) (n : ℕ) : t.received k n = s.consumed k n ++ t.input k n :=
      hbytes k n _ (h.streams k n)
    rw [hrest] at hidx horigin hinv hzero ⊢
    exact ⟨hinv, hidx, hzero, hstreams, h.queue, h.num, horigin, h.causes, h.cause_lt⟩
  | push m c hc hser hb hnum hf hbytes hrest =>
    have hpush := (origin_pushed h hc hser hb hf).step hw
    have hstreams := h.streams_push hbytes
    rw [hrest] at hidx horigin hinv hzero hpush ⊢
    refine ⟨hinv, hidx, hzero, hstreams, ?_, ?_, ?_, h.causes, h.cause_lt⟩
    · simp only [h.queue, List.append_assoc]
    · simp only [List.map_append, h.num, List.map_cons, List.map_nil, hnum, List.length_append,
        List.length_singleton, List.range_succ]
    · intro m' hm'
      rcases List.mem_append.mp hm' with hm' | hm'
      · exact horigin m' hm'
      · rw [List.mem_singleton.mp hm']
        exact hpush
  | swap hidle hrest =>
    rw [hrest] at hidx horigin hinv hzero ⊢
    refine ⟨hinv, hidx, hzero, h.streams, ?_, h.num, horigin, h.causes, h.cause_lt⟩
    have hq := h.queue
    rw [hidle, List.append_nil] at hq
    simpa using hq
  | logic m rest hd hcall =>
    have hq := h.queue
    have hnum := h.head_num hd
    obtain ⟨new, hwrites, hnew⟩ :=
      callLogic_writes m { s with draining := rest, handled := s.handled ++ [m] }
    rw [callLogic_rest] at hcall
    rw [hcall] at hidx horigin hinv hzero ⊢
    rw [hnum] at hnew
    obtain ⟨hcauses, hlt⟩ := causes_append h.causes h.cause_lt hnew
    rw [← hwrites] at hcauses hlt
    refine ⟨hinv, hidx, hzero, h.streams, ?_, h.num, horigin, hcauses, ?_⟩
    · rw [hd] at hq
      simpa using hq
    · intro n hn
      rw [List.length_append, List.length_singleton]
      exact hlt n hn
  | send id buf size hcall =>
    rw [sendMsgToClient_rest] at hcall
    have hcauses : t.writes.filterMap Write.cause = s.writes.filterMap Write.cause := by
      rw [hcall]
      dsimp only
      rw [sendMsgToClient_writes, List.filterMap_append]
      cases s.resolve id with
      | none => simp
      | some p => simp
    rw [hcall] at hidx horigin hinv hzero hcauses ⊢
    exact ⟨hinv, hidx, hzero, h.streams, h.queue, h.num, horigin, by rw [hcauses]; exact h.causes,
      by rw [hcauses]; exact h.cause_lt⟩

theorem inv_run {es : List ServerEvent} (cfg : ServerCommonConfig)
    (h : Transition.run step es (start cfg) = some s) : s.Inv :=
  Transition.run_preserves (fun _ _ _ hi ht => hi.step ht) (inv_start cfg) h

theorem Origin.sessionID {m : Msg} (ho : s.Origin m) :
    m.block.hdr.sessionID = m.slot * WORKERS + m.worker := by
  obtain ⟨f, _, hb⟩ := ho.framed
  rw [hb]
  exact onRecv_sessionID _ _ _

theorem find_uid (i : ℕ) (k : Fin WORKERS) (s : Server) :
    s.find (i * WORKERS + k) = (s.slot k i).map (k, ·) := by
  have hW : (WORKERS : Int) = 2 := rfl
  have hk : (k : ℕ) < 2 := k.isLt
  have hne : ((i : Int) * WORKERS + k) ≠ -1 := by rw [hW]; omega
  have hmod : Fin.ofNat WORKERS (((i : Int) * WORKERS + k) % WORKERS).toNat = k := by
    apply Fin.ext
    have hz : ((i : Int) * 2 + k) % 2 = k := by omega
    rw [hW, hz, Int.toNat_natCast]
    exact Nat.mod_eq_of_lt k.isLt
  rw [find, if_neg hne, hmod, Worker.slotOf_uid k.isLt]

/-- A session id finds the conduit in its slot; id zero does so by way of `_connUp[0]`. -/
theorem resolve_uid (h : s.Inv) (i : ℕ) (k : Fin WORKERS) :
    s.resolve (i * WORKERS + k) = (s.slot k i).map (k, ·) := by
  have hW : (WORKERS : Int) = 2 := rfl
  rw [resolve, findConn]
  split_ifs with hpos
  · exact find_uid i k s
  · have h0 : (i : Int) * WORKERS + k = 0 := by rw [hW] at hpos ⊢; omega
    have hup : ((s.workers 0).server.connUpAt (-((i : Int) * WORKERS + k))).1 =
        (i : Int) * WORKERS + k := by
      rw [h0, TcpSlaveServer.connUpAt, neg_zero]
      split
      · next v hv => exact h.zero 0 v hv
      · rfl
    dsimp only
    rw [hup, find_uid]
    congr 1
    have hkept := findConn_kept ((i : Int) * WORKERS + k) s k
    rw [findConn, if_neg hpos] at hkept
    exact hkept.slot i

end Server

end RgcFifa
