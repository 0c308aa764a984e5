import RgcFifa.ConfigAssign
import RgcFifa.Logic
import RgcFifa.Reconnect
import RgcFifa.RelayTransparency

/-! The registration of a server at the server it connects to: the frame that
`ClientConn::initConnection` sends, what the acceptor records and answers, and what the
initiator does with the answer. -/

namespace RgcFifa

open Server

/-- What `operator<<(const char *)` appends. -/
def Stream.chars (v : List UInt8) : List UInt8 :=
  let len := UInt16.ofNat v.length
  ByteWords.le 2 len.toNat ++ v.take len.toNat

theorem Stream.putChars_eq (st : Stream) (v : List UInt8) : st.putChars v = st.append (chars v) :=
  Stream.append_append _ _ _

theorem Stream.length_chars {v : List UInt8} (h : v.length < 65536) :
    (chars v).length = 2 + v.length := by
  have hlen : (UInt16.ofNat v.length).toNat = v.length := by
    rw [UInt16.toNat_ofNat', Nat.mod_eq_of_lt h]
  simp only [chars, hlen, List.length_append, ByteWords.length_le, List.take_length]

def registerText : List UInt8 := "register_protocol!".toUTF8.toList
def registerOkayText : List UInt8 := "register_okay_protocol!".toUTF8.toList

theorem length_registerText : registerText.length = 18 := by decide +kernel
theorem length_registerOkayText : registerOkayText.length = 23 := by decide +kernel

theorem length_register : (Stream.chars registerText).length = 20 := by
  rw [Stream.length_chars (by rw [length_registerText]; decide), length_registerText]

theorem length_registerOkay : (Stream.chars registerOkayText).length = 25 := by
  rw [Stream.length_chars (by rw [length_registerOkayText]; decide), length_registerOkayText]

/-- The id of a server, and the id that `initConnection` puts in for the peer `ss`. -/
def ServerCommonConfig.serverId (cfg : ServerCommonConfig) : UInt16 :=
  UInt16.ofNat ((cfg.serverType.toNat <<< 8) + cfg.serverUID.toNat)

def registerTarget (ss : UInt16) : UInt16 := UInt16.ofNat ((ss.toNat <<< 8) + (ss &&& 0xFF).toNat)

def registerMsg (ss : UInt16) (cfg : ServerCommonConfig) : Frame where
  cmd := 1
  target := registerTarget ss
  source := cfg.serverId
  body := Stream.chars registerText
  cmd_lt := by decide
  body_le := by rw [length_register]; decide

def registerOkayMsg (target source : UInt16) : Frame where
  cmd := 2
  target := target
  source := source
  body := Stream.chars registerOkayText
  cmd_lt := by decide
  body_le := by rw [length_registerOkay]; decide

theorem registerFrame_eq (ss : UInt16) (cfg : ServerCommonConfig) :
    registerFrame ss.toNat cfg = (registerMsg ss cfg).bytes := by
  have hkey : UInt16.ofInt (ss.toNat : Int) = ss := by
    have h := ss.toNat_lt
    have hm : ((ss.toNat : Int) % 2 ^ 16).toNat = ss.toNat := by omega
    rw [UInt16.ofInt, hm, UInt16.ofNat_toNat]
  simp only [registerFrame, hkey, Stream.putChars_eq]
  rfl

theorem registerTarget_toNat (ss : UInt16) :
    (registerTarget ss).toNat = ss.toNat % 256 * 256 + ss.toNat % 256 := by
  have hand : (ss &&& 0xFF).toNat = ss.toNat % 256 := by
    rw [UInt16.toNat_and]
    exact Nat.and_two_pow_sub_one_eq_mod ss.toNat 8
  rw [registerTarget, hand, UInt16.toNat_ofNat', Nat.shiftLeft_eq]
  omega

theorem ServerCommonConfig.serverId_toNat (cfg : ServerCommonConfig) :
    cfg.serverId.toNat = cfg.serverType.toNat * 256 + cfg.serverUID.toNat := by
  have htype := cfg.serverType.toNat_lt
  have huid := cfg.serverUID.toNat_lt
  rw [serverId, UInt16.toNat_ofNat', Nat.shiftLeft_eq]
  omega

theorem ServerCommonConfig.serverId_type {cfg : ServerCommonConfig} (htype : cfg.serverType ≠ 0xFF) :
    cfg.serverId.toNat >>> 8 ≠ 0xFF := by
  have huid := cfg.serverUID.toNat_lt
  have hne : cfg.serverType.toNat ≠ 255 := fun he => htype (UInt8.toNat_inj.mp he)
  rw [serverId_toNat, Nat.shiftRight_eq_div_pow]
  omega

namespace Server

/-- What the server itself has run for the messages that the logic thread has handled. -/
def runs (cfg : ServerCommonConfig) (found : Bool) (s : Server) : List LogicRun :=
  s.handled.flatMap fun m => (m.block.processMsg.bind (LogicCall.logicRun cfg found)).toList

/-- What the acceptor does with the register frame `m`: it records the session of the
conduit that brought it, and writes one frame to that conduit. -/
structure Accepts (ss id : UInt16) (m : Msg) (s t : Server) (answer : List UInt8) : Prop where
  recorded : t.linkedServer[id.toUInt32]? = some (m.slot * WORKERS + m.worker : Int)
  answered : t.writes = s.writes ++ [⟨m.worker, m.serial, answer, some m.num⟩]
  frame : IsFrame answer
  cmd : (headerPacket answer).cmd = 2
  target : (headerPacket answer).target = id.toNat
  source : (headerPacket answer).source = ss.toNat

/-- In every run of the initiator `answer`, received from its peer, makes it run
`ProcessRegisteredProtocol` once, with the session of that connection, and the run is one of `P`. -/
def Registers (P : LogicRun → Prop) (ss : UInt16) (cfg : ServerCommonConfig) (answer : List UInt8) :
    Prop :=
  ∀ (found : Bool) (es : List ServerEvent) (r : Server) (m : Msg) (rest : List Msg),
    Transition.run step es (start cfg) = some r → r.draining = m :: rest →
    m.kind = .clientConn ss.toNat → m.raw = answer →
    ∃ u run, step .processMsg r = some u ∧ u.runs cfg found = r.runs cfg found ++ [run] ∧
      run = Logic.processRegisteredProtocol cfg (m.slot * WORKERS + m.worker) ∧ P run

/-- The register frame `m` is next at the acceptor, and the handshake comes out right. -/
def HandshakeWith (P : LogicRun → Prop) (ss : UInt16) (cfg : ServerCommonConfig) (m : Msg)
    (s : Server) : Prop :=
  ∃ t answer, step .processMsg s = some t ∧ Accepts ss cfg.serverId m s t answer ∧
    Registers P ss cfg answer

/-- What the initiator runs stays within its variables. -/
def Handshake : UInt16 → ServerCommonConfig → Msg → Server → Prop :=
  HandshakeWith fun run => run.fault = false

variable {s : Server} {m : Msg} {rest : List Msg} {ss : UInt16} {cfg : ServerCommonConfig}

theorem HandshakeWith.any {P : LogicRun → Prop} (h : HandshakeWith P ss cfg m s) :
    HandshakeWith (fun _ => True) ss cfg m s := by
  obtain ⟨t, answer, ht, ha, hregisters⟩ := h
  refine ⟨t, answer, ht, ha, fun found es r m rest hr hd hkind hraw => ?_⟩
  obtain ⟨u, run, hu, hruns, hrun, -⟩ := hregisters found es r m rest hr hd hkind hraw
  exact ⟨u, run, hu, hruns, hrun, trivial⟩

theorem head_framed (h : s.Inv) (hd : s.draining = m :: rest) : m.Framed := by
  refine (h.origin m ?_).framed
  rw [h.queue, hd]
  simp

theorem step_processMsg (hd : s.draining = m :: rest) : step .processMsg s =
    some (callLogic m { s with draining := rest, handled := s.handled ++ [m] }) := by
  simp only [step, processMsg, hd]

theorem runs_processMsg (hd : s.draining = m :: rest) (cfg : ServerCommonConfig) (found : Bool)
    {t : Server} (ht : step .processMsg s = some t) : t.runs cfg found =
      s.runs cfg found ++ (m.block.processMsg.bind (LogicCall.logicRun cfg found)).toList := by
  rw [step_processMsg hd] at ht
  obtain rfl := Option.some.inj ht
  rw [callLogic_rest]
  simp [runs]

theorem registers_okay (ss : UInt16) (cfg : ServerCommonConfig) (target source : UInt16) :
    Registers (fun _ => True) ss cfg (registerOkayMsg target source).bytes := by
  intro found es r m rest hr hd hkind hraw
  have hcall := (head_framed (inv_run cfg hr) hd).processMsg hraw
  have ht := step_processMsg hd
  refine ⟨_, _, ht, ?_, rfl, trivial⟩
  rw [runs_processMsg hd cfg found ht, hcall, hkind]
  rfl

/-- A frame that is not for the proxy is taken for a message of a client. -/
theorem callLogic_client {f : Frame} (hf : m.Framed) (hraw : m.raw = f.bytes)
    (hkind : m.kind = .gameClient)
    (hclient : ¬ (0 < f.target.toNat ∧ f.source.toNat >>> 8 ≠ 0xFF)) (r : Server) :
    r.callLogic m = r := by
  have hcall := hf.processMsg hraw
  have hhdr : onRecv .gameClient f.recv (m.slot * WORKERS + m.worker) =
      .client ⟨⟨CLIENT_MSGTYPE, UInt32.ofInt f.cmd.toNat, UInt32.ofNat f.body.length,
        m.slot * WORKERS + m.worker⟩⟩ := by
    exact if_neg hclient
  rw [hkind, hhdr] at hcall
  rw [callLogic, hcall]
  rfl

/-- What the acceptor does with a register frame whose target is not zero. -/
theorem callLogic_register (hf : m.Framed) (hraw : m.raw = (registerMsg ss cfg).bytes)
    (hkind : m.kind = .gameClient) (hpos : 0 < (registerTarget ss).toNat)
    (htype : cfg.serverType ≠ 0xFF) (r : Server) : r.callLogic m = sendMsgToClient
      (m.slot * WORKERS + m.worker) (registerOkayMsg cfg.serverId (registerTarget ss)).bytes 35
      (some m.num) { r with linkedServer :=
        r.linkedServer.insert cfg.serverId.toUInt32 (m.slot * WORKERS + m.worker) } := by
  have hcall := hf.processMsg hraw
  rw [hkind, Frame.proxyHdr (f := registerMsg ss cfg) hpos
    (ServerCommonConfig.serverId_type htype)] at hcall
  have hsplit (id : UInt16) : SPLIT_ID (UInt8.ofNat (id.toNat >>> 8)) (UInt8.ofNat id.toNat) = id :=
    (SPLIT_ID_ofNat _).trans UInt16.ofNat_toNat
  have hsize : UInt16.ofNat ((Stream.ofHeader 2 cfg.serverId (registerTarget ss)).append
      (Stream.chars registerOkayText)).eos.size = 35 := by
    rw [Stream.size_eos, Stream.size_append, length_registerOkay]
    rfl
  rw [callLogic, hcall]
  simp only [MsgHdrType.call, ProxyMsgHdr.ofIds, if_true, processProxyLogic, registerMsg, hsplit,
    Stream.putChars_eq]
  rw [← registerOkayText, hsize]
  rfl

theorem resolve_congr {r : Server} (hr : r.workers = s.workers) (id : Int) :
    r.resolve id = s.resolve id := by
  unfold resolve findConn
  split_ifs
  · unfold find
    simp only [slot, hr]
  · unfold find setServer setWorker
    simp only [slot, hr]

theorem registerOkay_take (target source : UInt16) :
    (registerOkayMsg target source).bytes.take (35 : UInt16).toNat =
      (registerOkayMsg target source).bytes := by
  apply List.take_of_length_le
  rw [Frame.bytes, length_frameBytes, show (registerOkayMsg target source).body =
    Stream.chars registerOkayText from rfl, length_registerOkay]
  decide

theorem writes_register (h : s.Inv) (hd : s.draining = m :: rest)
    (hraw : m.raw = (registerMsg ss cfg).bytes) (hkind : m.kind = .gameClient)
    (hpos : 0 < (registerTarget ss).toNat) (htype : cfg.serverType ≠ 0xFF) {t : Server}
    (ht : step .processMsg s = some t) :
    t.linkedServer[cfg.serverId.toUInt32]? = some (m.slot * WORKERS + m.worker : Int) ∧
    t.writes = s.writes ++ ((s.slot m.worker m.slot).map fun c => ⟨m.worker, c.serial,
      (registerOkayMsg cfg.serverId (registerTarget ss)).bytes, some m.num⟩).toList := by
  rw [step_processMsg hd] at ht
  obtain rfl := Option.some.inj ht
  rw [callLogic_register (head_framed h hd) hraw hkind hpos htype]
  constructor
  · rw [sendMsgToClient_rest]
    exact Std.ExtTreeMap.getElem?_insert_self
  · rw [sendMsgToClient_writes, registerOkay_take, resolve_congr (s := s), resolve_uid h]
    · cases s.slot m.worker m.slot <;> rfl
    · rfl

theorem header_registerOkay (target source : UInt16) :
    headerPacket (registerOkayMsg target source).bytes =
      ⟨2, 10, 35, target.toNat, source.toNat⟩ := by
  rw [Frame.bytes, headerPacket_frameBytes, show (registerOkayMsg target source).body =
    Stream.chars registerOkayText from rfl, length_registerOkay]
  rfl

/-- An answer as the claim has it is the one that `ProcessProxyLogic` sends, and goes back to a
conduit that is still there. -/
theorem Accepts.answer (h : s.Inv) (hd : s.draining = m :: rest)
    (hraw : m.raw = (registerMsg ss cfg).bytes) (hkind : m.kind = .gameClient)
    (htype : cfg.serverType ≠ 0xFF) {t : Server} {answer : List UInt8}
    (ht : step .processMsg s = some t) (ha : Accepts ss cfg.serverId m s t answer) :
    answer = (registerOkayMsg cfg.serverId ss).bytes ∧ registerTarget ss = ss ∧
      ∃ c, s.slot m.worker m.slot = some c ∧ c.serial = m.serial := by
  have hnonzero : 0 < (registerTarget ss).toNat := by
    by_contra hzero
    have hclient := callLogic_client (head_framed h hd) hraw hkind (fun hp => hzero hp.1)
      { s with draining := rest, handled := s.handled ++ [m] }
    rw [step_processMsg hd, hclient] at ht
    have hw := ha.answered
    rw [← Option.some.inj ht] at hw
    simp at hw
  obtain ⟨-, hw⟩ := writes_register h hd hraw hkind hnonzero htype ht
  have he := List.append_cancel_left (hw.symm.trans ha.answered)
  cases hc : s.slot m.worker m.slot with
  | none => simp [hc] at he
  | some c =>
    simp only [hc, Option.map_some, Option.toList_some, List.cons.injEq, Write.mk.injEq,
      and_true, true_and] at he
    have hsource := ha.source
    rw [← he.2, header_registerOkay] at hsource
    have hself : registerTarget ss = ss := UInt16.toNat_inj.mp hsource
    exact ⟨by rw [← he.2, hself], hself, c, rfl, he.1⟩

/-- Everything but how the initiator's run ends. -/
theorem handshake_iff (h : s.Inv) (hd : s.draining = m :: rest)
    (hraw : m.raw = (registerMsg ss cfg).bytes) (hkind : m.kind = .gameClient) (hss : 1 ≤ ss)
    (htype : cfg.serverType ≠ 0xFF) : HandshakeWith (fun _ => True) ss cfg m s ↔
      ss.toNat / 256 = ss.toNat % 256 ∧ ∃ c, s.slot m.worker m.slot = some c ∧ c.serial = m.serial := by
  have hpos : 1 ≤ ss.toNat := UInt16.le_iff_toNat_le.mp hss
  have hlt := ss.toNat_lt
  have htarget := registerTarget_toNat ss
  constructor
  · rintro ⟨t, answer, ht, ha, -⟩
    obtain ⟨-, hself, hc⟩ := ha.answer h hd hraw hkind htype ht
    rw [hself] at htarget
    exact ⟨by omega, hc⟩
  · rintro ⟨heq, c, hc, hser⟩
    have hnonzero : 0 < (registerTarget ss).toNat := by omega
    have hsource : registerTarget ss = ss := UInt16.toNat_inj.mp (by omega)
    have ht := step_processMsg hd
    obtain ⟨hlink, hw⟩ := writes_register h hd hraw hkind hnonzero htype ht
    rw [hsource, hc, Option.map_some, hser] at hw
    have hh := header_registerOkay cfg.serverId ss
    refine ⟨_, (registerOkayMsg cfg.serverId ss).bytes, ht, ⟨hlink, hw, ?_, ?_, ?_, ?_⟩,
      registers_okay ss cfg cfg.serverId ss⟩
    · have hframe := isFrame_take (registerOkayMsg cfg.serverId ss).complete
      rwa [hh, show (35 : ℕ) = (35 : UInt16).toNat from rfl, registerOkay_take] at hframe
    · rw [hh]
    · rw [hh]
    · rw [hh]

/-! ### The initiator gets the answer -/

/-- An idle server that has received one frame on `c` and is about to process it. -/
structure Fed (k : Fin WORKERS) (i : ℕ) (c : TcpConduit) (f : Frame) (s t : Server) (m : Msg) :
    Prop where
  draining : t.draining = [m]
  raw : m.raw = f.bytes
  kind : m.kind = c.kind
  worker : m.worker = k
  slot : m.slot = i
  serial : m.serial = c.serial
  workers : t.workers = s.workers
  input : t.input k c.serial = []
  msgQueue : t.msgQueue = []
  handled : t.handled = s.handled
  linkedServer : t.linkedServer = s.linkedServer
  writes : t.writes = s.writes

/-- Nothing is left to do for the conduit `c`. -/
structure Idle (k : Fin WORKERS) (i : ℕ) (c : TcpConduit) (s : Server) : Prop where
  slot : s.slot k i = some c
  input : s.input k c.serial = []
  msgQueue : s.msgQueue = []
  draining : s.draining = []

theorem Idle.fed (h : Idle k i c s) (f : Frame) : ∃ t m,
    Transition.run step [.receive k i f.bytes, .readRound k i, .getMsgQueue] s = some t ∧
      Fed k i c f s t m := by
  obtain ⟨hcomplete, -, hlen, hrecv⟩ := decoder_next.mp f.next
  have hcmd : 0 ≤ (headerPacket f.bytes).cmd := by
    have hc : (headerPacket f.bytes).cmd = f.cmd.toNat := congrArg Recv.cmd hrecv
    omega
  have hp : parsePacket c.kind f.bytes = headerPacket f.bytes := by
    rw [parsePacket_kind, parsePacket_eq, if_pos hcomplete]
  have hpos : ¬ f.bytes.length ≤ 0 := by
    rw [← hlen]
    exact Nat.not_succ_le_zero _
  let m : Msg := ⟨(onRecv c.kind f.recv c.uid).block f.body, k, i, c.kind, c.serial,
    (s.workers k).server.built, f.bytes, s.arrived.length⟩
  let t : Server := { s with
    input := Function.update (Function.update s.input k (Function.update (s.input k) c.serial f.bytes)) k
      (Function.update (Function.update (s.input k) c.serial f.bytes) c.serial [])
    received := Function.update s.received k
      (Function.update (s.received k) c.serial (s.received k c.serial ++ f.bytes))
    msgQueue := []
    draining := [m]
    arrived := s.arrived ++ [m] }
  refine ⟨t, m, ?_, rfl, rfl, rfl, rfl, rfl, rfl, rfl, by simp [t], rfl, rfl, rfl, rfl⟩
  simp only [Transition.run, step, h.slot, Option.map_some, Option.bind_some, readRound,
    Function.update_self, h.input, List.nil_append, hp, if_neg (not_lt.mpr hcmd), if_neg hpos,
    h.draining, h.msgQueue, List.isEmpty_nil, if_true, hrecv, hlen, List.drop_length,
    List.take_length]
  rfl

/-- `start` copies the connect map of its argument into that of each slave server. -/
theorem port_start (k : Fin WORKERS) (cfg : ServerCommonConfig) (ss : UInt16) :
    ((start cfg).workers k).server.serverCfg.getPortFromConnectMap ss =
      cfg.getPortFromConnectMap ss :=
  (ServerCommonConfig.ofType_assign 0 0 0).port ss

/-- The first connection of a worker goes into slot zero of its table. -/
theorem doAccept_start (cfg : ServerCommonConfig) (hss : 1 ≤ ss)
    (hport : 0 < cfg.getPortFromConnectMap ss) {t : TcpSlaveServer} {sock : Int} (hsock : 0 ≤ sock)
    (hcfg : t.serverCfg = ((start cfg).workers 0).server.serverCfg) (hidx : t.slaveIdx = 0)
    (hconduits : t.conduits = []) (hempty : t.emptySet = ∅) (hbuilt : t.built = 0) :
    ∃ u, t.doAccept ⟨sock, false, false, false⟩ (-ss.toNat) = some u ∧
      u.slot 0 = some ⟨.clientConn ss.toNat, sock, 0, 0⟩ := by
  have hpos : 1 ≤ ss.toNat := UInt16.le_iff_toNat_le.mp hss
  have hneg : -(ss.toNat : Int) < 0 := by omega
  have hkey : UInt16.ofInt (-(-(ss.toNat : Int))) = ss := by
    have hlt := ss.toNat_lt
    have hm : ((ss.toNat : Int) % 2 ^ 16).toNat = ss.toNat := by omega
    rw [neg_neg, UInt16.ofInt, hm, UInt16.ofNat_toNat]
  have hopen : ¬ t.serverCfg.getPortFromConnectMap ss ≤ 0 := by
    rw [hcfg, port_start]
    exact UInt16.not_le.mpr hport
  have hmade (uid : Int) : t.construct ⟨sock, false, false, false⟩ (-ss.toNat) uid =
      some ⟨.clientConn ss.toNat, sock, uid, 0⟩ := by
    rw [TcpSlaveServer.construct, if_pos hneg, TcpSlaveServer.newConnection, if_pos hneg, hkey,
      if_neg hopen, if_neg (not_lt.mpr hsock), hbuilt, neg_neg]
    rfl
  refine ⟨t.acceptAppend ⟨sock, false, false, false⟩ (-ss.toNat), ?_, ?_⟩
  · simp [TcpSlaveServer.doAccept, TcpSlaveServer.acceptLoop, hempty]
  · simp only [TcpSlaveServer.acceptAppend, hmade, TcpSlaveServer.slot, TcpSlaveServer.started,
      if_pos hneg, TcpSlaveServer.send, hconduits, hidx, List.nil_append]
    rfl

/-- A server connects to a peer of its connect map. -/
theorem exists_connected (cfg : ServerCommonConfig) (hss : 1 ≤ ss)
    (hport : 0 < cfg.getPortFromConnectMap ss) :
    ∃ es r, Transition.run step es (start cfg) = some r ∧
      Idle 0 0 ⟨.clientConn ss.toNat, 9, 0, 0⟩ r := by
  let queued : TcpSlaveServer := ((start cfg).workers 0).server.initConnection ss.toNat
  have hqueued : queued.opList = [.accept (-ss.toNat)] := by
    simp [queued, start, Worker.start, TcpSlaveServer.start, TcpSlaveServer.initConnection,
      TcpSlaveServer.isUp]
  have hsock : (0 : Int) ≤ 9 := by decide
  obtain ⟨u, hu, hslot⟩ := doAccept_start (t := { queued with opList := [] }) cfg hss hport hsock
    rfl rfl rfl rfl rfl
  have hexec : Worker.step (.exec ⟨9, false, false, false⟩)
      ⟨{ queued with opList := [] }, queued.opList, ∅⟩ = some ⟨u, [], ∅⟩ := by
    simp only [Worker.step, Worker.execOp, hqueued, hu, Option.map_some]
  refine ⟨[.worker 0 (.initConnection ss), .worker 0 .takeOps,
    .worker 0 (.exec ⟨9, false, false, false⟩)],
    (start cfg).setWorker 0 ⟨u, [], ∅⟩, ?_, hslot, rfl, rfl, rfl⟩
  have hinit : step (.worker 0 (.initConnection ss)) (start cfg) =
    some ((start cfg).setWorker 0 ⟨queued, [], ∅⟩) := rfl
  have htake : step (.worker 0 .takeOps) ((start cfg).setWorker 0 ⟨queued, [], ∅⟩) =
      some ((start cfg).setWorker 0 ⟨{ queued with opList := [] }, queued.opList, ∅⟩) := by
    simp [step, setWorker, Worker.step]
  have hmake : step (.worker 0 (.exec ⟨9, false, false, false⟩))
      ((start cfg).setWorker 0 ⟨{ queued with opList := [] }, queued.opList, ∅⟩) =
      some ((start cfg).setWorker 0 ⟨u, [], ∅⟩) := by
    simp [step, setWorker, hexec]
  exact Transition.run_cons.mpr ⟨_, hinit, Transition.run_cons.mpr ⟨_, htake,
    Transition.run_cons.mpr ⟨_, hmake, rfl⟩⟩⟩

/-- The run of the initiator never stays within its variables. -/
theorem not_registers (cfg : ServerCommonConfig) (hss : 1 ≤ ss)
    (hport : 0 < cfg.getPortFromConnectMap ss) (target source : UInt16) :
    ¬ Registers (fun run => run.fault = false) ss cfg (registerOkayMsg target source).bytes := by
  intro hregisters
  obtain ⟨es, r, hr, hidle⟩ := exists_connected cfg hss hport
  obtain ⟨u, m, hu, hfed⟩ := hidle.fed (registerOkayMsg target source)
  obtain ⟨_, run, _, _, hrun, hfault⟩ := hregisters true _ u m [] (Transition.run_append hr hu)
    hfed.draining hfed.kind hfed.raw
  rw [hrun, Logic.processRegisteredProtocol_eq] at hfault
  cases hfault

end Server

/-- Up to the run of the initiator the handshake comes out right for the peers whose two id bytes
agree, on a connection that is still there when its register frame is processed; and the run writes
past the end of `args1` for all of them. -/
theorem registration_handshake_never (config : ServerCommonConfig) (es : List ServerEvent) {s : Server}
    (hs : Transition.run step es (start config) = some s) {m : Msg} {rest : List Msg}
    (hd : s.draining = m :: rest) (hkind : m.kind = .gameClient) (ss : UInt16) (hss : 1 ≤ ss)
    (cfg : ServerCommonConfig) (htype : cfg.serverType ≠ 0xFF)
    (hport : 0 < cfg.getPortFromConnectMap ss) (hraw : m.raw = registerFrame ss.toNat cfg) :
    (HandshakeWith (fun _ => True) ss cfg m s ↔ ss.toNat / 256 = ss.toNat % 256 ∧
      ∃ c, s.slot m.worker m.slot = some c ∧ c.serial = m.serial) ∧ ¬ Handshake ss cfg m s := by
  have hframe := hraw.trans (registerFrame_eq ss cfg)
  refine ⟨handshake_iff (inv_run config hs) hd hframe hkind hss htype, ?_⟩
  rintro ⟨t, answer, ht, ha, hregisters⟩
  obtain ⟨rfl, -⟩ := ha.answer (inv_run config hs) hd hframe hkind htype ht
  exact not_registers cfg hss hport cfg.serverId ss hregisters

/-- Server 0x0501 with the peer `ss`. -/
def peerConfig (ss : UInt16) : ServerCommonConfig :=
  (ServerCommonConfig.ofType 5 1 8000).addConnectList ss "127.0.0.1" 8100

def registering (ss : UInt16) : List ServerEvent :=
  [.worker 0 (.accepted 5), .worker 0 .takeOps, .worker 0 (.exec ⟨-1, false, false, false⟩),
    .receive 0 0 (registerFrame ss.toNat (peerConfig ss)), .readRound 0 0, .getMsgQueue]

theorem exists_registering (ss : UInt16) (hrun : (Transition.run step (registering ss)
      (start (.ofType 1 1 8100))).any fun s => s.draining.map (fun m => (m.raw, m.kind, m.worker, m.slot,
        m.serial)) = [(registerFrame ss.toNat (peerConfig ss), .gameClient, 0, 0, 0)] ∧
      s.slot 0 0 = some ⟨.gameClient, 5, 0, 0⟩) :
    ∃ s m, Transition.run step (registering ss) (start (.ofType 1 1 8100)) = some s ∧
      s.draining = [m] ∧ m.kind = .gameClient ∧ m.raw = registerFrame ss.toNat (peerConfig ss) ∧
      ∃ c, s.slot m.worker m.slot = some c ∧ c.serial = m.serial := by
  obtain ⟨s, hs, hm, hc⟩ := Transition.exists_run step (registering ss) (start (.ofType 1 1 8100))
    (fun s => s.draining.map (fun m => (m.raw, m.kind, m.worker, m.slot, m.serial)) =
        [(registerFrame ss.toNat (peerConfig ss), .gameClient, 0, 0, 0)] ∧
      s.slot 0 0 = some ⟨.gameClient, 5, 0, 0⟩) hrun
  obtain ⟨m, hd, hm⟩ := List.map_eq_singleton_iff.mp hm
  simp only [Prod.mk.injEq] at hm
  obtain ⟨hraw, hkind, hworker, hslot, hserial⟩ := hm
  exact ⟨s, m, hs, hd, hkind, hraw, _, by rw [hworker, hslot]; exact hc, hserial.symm⟩

/-- Server 0x0501 registers at server 0x0101, and its stack is written to for it. -/
theorem registration_handshake_equal_bytes : ∃ s m,
    Transition.run step (registering 257) (start (.ofType 1 1 8100)) = some s ∧
      s.draining = [m] ∧ HandshakeWith (fun _ => True) 257 (peerConfig 257) m s ∧
      ¬ Handshake 257 (peerConfig 257) m s := by
  obtain ⟨s, m, hs, hd, hkind, hraw, hc⟩ := exists_registering 257 (by decide +kernel)
  obtain ⟨hiff, hnever⟩ := registration_handshake_never (.ofType 1 1 8100) _ hs hd hkind 257
    (by decide) (peerConfig 257) (by decide) (by decide) hraw
  exact ⟨s, m, hs, hd, hiff.mpr ⟨by decide, hc⟩, hnever⟩

/-- The peer 0x0102 is addressed as 0x0202 and answers as that. -/
theorem registration_handshake_unequal_bytes : ∃ s m,
    Transition.run step (registering 258) (start (.ofType 1 1 8100)) = some s ∧
      s.draining = [m] ∧ (∃ c, s.slot m.worker m.slot = some c ∧ c.serial = m.serial) ∧
      ∀ P, ¬ HandshakeWith P 258 (peerConfig 258) m s := by
  obtain ⟨s, m, hs, hd, hkind, hraw, hc⟩ := exists_registering 258 (by decide +kernel)
  refine ⟨s, m, hs, hd, hc, fun P hh => ?_⟩
  have hiff := handshake_iff (inv_run _ hs) hd (hraw.trans (registerFrame_eq 258 (peerConfig 258))) hkind
    (by decide) (by decide)
  exact absurd (hiff.mp hh.any).1 (by decide)

end RgcFifa
