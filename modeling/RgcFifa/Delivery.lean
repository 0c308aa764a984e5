import RgcFifa.GetMsg
import RgcFifa.Handshake
import RgcFifa.PeerLookup
import RgcFifa.Receiver

/-! Delivery from end to end, over the connection between the client library and its session
on the server: what the calls of one side write to the connection, and what the application
on the other side gets out of any pieces of it. -/

namespace RgcFifa

open ByteWords

/-- The arguments of `sendMsg` and `SendMsg`, where the size is that of the payload. -/
structure SendCall where
  cmdid : UInt32
  payload : List UInt8
  cmd_lt : cmdid.toNat < 2 ^ 31
  size_le : payload.length ≤ 65523

def SendCall.body (k : SendCall) : List UInt8 := le 2 k.payload.length ++ k.payload

theorem SendCall.length_body (k : SendCall) : k.body.length = 2 + k.payload.length := by
  rw [body, List.length_append, length_le]

theorem SendCall.size_toNat (k : SendCall) :
    (UInt16.ofNat k.payload.length).toNat = k.payload.length := by
  have := k.size_le
  rw [UInt16.toNat_ofNat', Nat.mod_eq_of_lt (by omega)]

/-- The frame of a call, with the target id that both sides put in. -/
def SendCall.frame (source : UInt16) (k : SendCall) : Frame where
  cmd := k.cmdid
  target := ((1 : UInt16) <<< 8) + 1
  source := source
  body := k.body
  cmd_lt := k.cmd_lt
  body_le := by
    have := k.size_le
    rw [length_body]
    omega

/-- The whole frame fits the 16-bit size that goes with it. -/
theorem SendCall.narrowed (source : UInt16) (k : SendCall) :
    (((Stream.ofHeader k.cmdid (((1 : UInt16) <<< 8) + 1) source).append k.body).eos.buf).take
      (UInt16.ofNat ((Stream.ofHeader k.cmdid (((1 : UInt16) <<< 8) + 1) source).append
        k.body).eos.size).toNat = (k.frame source).bytes := by
  have hsize := k.size_le
  have hmod : (10 + k.body.length) % 65536 = 10 + k.body.length := by
    rw [length_body, Nat.mod_eq_of_lt (by omega)]
  rw [narrowed_buf, hmod]
  exact List.take_of_length_le (length_frameBytes _ _ _ _).le

/-- The bytes sent on a connection. -/
def TcpSlaveServer.sent (c : TcpConduit) (s : TcpSlaveServer) : List UInt8 :=
  (s.wire.filter (·.1 = c.serial)).flatMap Prod.snd

theorem TcpSlaveServer.sent_send (c : TcpConduit) (buf : List UInt8) (s : TcpSlaveServer) :
    (s.send c buf).sent c = s.sent c ++ buf := by
  simp [sent, send, List.filter_append]

theorem TcpSlaveServer.sent_connUpAt (c : TcpConduit) (key : Int) (s : TcpSlaveServer) :
    (s.connUpAt key).2.sent c = s.sent c := by
  unfold connUpAt
  split <;> rfl

theorem Worker.Looked.connUpAt {w w' : Worker} (h : Looked w w') (key : Int) :
    (w'.server.connUpAt key).1 = (w.server.connUpAt key).1 := by
  unfold TcpSlaveServer.connUpAt
  rcases h.connUp key with he | ⟨hnone, hzero⟩
  · rw [he]
    cases w.server.connUp[key]? <;> rfl
  · rw [hnone, hzero]

namespace TcpClientService

variable {s t : TcpClientService} {c : TcpConduit} {sessionID : Int}

theorem findConn_looked (h : Worker.Looked s.worker t.worker) (id : Int) :
    (t.findConn id).1 = (s.findConn id).1 := by
  have hfind {a b : TcpClientService} (hab : Worker.Looked a.worker b.worker) (i : Int) :
      b.find i = a.find i := by
    unfold find
    split_ifs
    · rfl
    · exact hab.kept.slot _
  have hlook (u : TcpClientService) (i : Int) : find i { u with
      worker := { u.worker with server := (u.worker.server.connUpAt (-id)).2 } } = u.find i :=
    hfind (Worker.looked_connUpAt (-id) u.worker) i
  unfold findConn
  split_ifs
  · exact hfind h id
  · dsimp only
    rw [h.connUpAt, hlook, hlook, hfind h]

theorem sent_findConn (id : Int) (s : TcpClientService) :
    (s.findConn id).2.worker.server.sent c = s.worker.server.sent c := by
  unfold findConn
  split_ifs
  · rfl
  · exact s.worker.server.sent_connUpAt c (-id)

theorem sendMsg_eq (k : SendCall) (s : TcpClientService) :
    s.sendMsg sessionID k.cmdid k.payload (UInt16.ofNat k.payload.length) =
      s.sendMsgToClient sessionID
        ((Stream.ofHeader k.cmdid (((1 : UInt16) <<< 8) + 1) (((0xFF : UInt16) <<< 8) + 1)).append
          k.body).eos.buf
        (UInt16.ofNat ((Stream.ofHeader k.cmdid (((1 : UInt16) <<< 8) + 1)
          (((0xFF : UInt16) <<< 8) + 1)).append k.body).eos.size) := by
  rw [sendMsg, k.size_toNat, List.take_length, putUInt16_append, k.size_toNat]
  rfl

theorem sent_sendMsg (hc : (s.findConn (-sessionID)).1 = some c) (k : SendCall) :
    let t := s.sendMsg sessionID k.cmdid k.payload (UInt16.ofNat k.payload.length)
    t.worker.server.sent c =
        s.worker.server.sent c ++ (k.frame (((0xFF : UInt16) <<< 8) + 1)).bytes ∧
      (t.findConn (-sessionID)).1 = some c := by
  intro t
  have ht : t = _ := sendMsg_eq k s
  rw [ht]
  refine ⟨?_, (findConn_looked (looked_sendMsgToClient ..) _).trans hc⟩
  rw [sendMsgToClient, hc]
  dsimp only
  rw [TcpSlaveServer.sent_send, sent_findConn, k.narrowed]

/-- The calls of `sendMsg` one after the other. -/
def sendMsgs (sessionID : Int) (ks : List SendCall) (s : TcpClientService) : TcpClientService :=
  ks.foldl (fun s k => s.sendMsg sessionID k.cmdid k.payload (UInt16.ofNat k.payload.length)) s

theorem sent_sendMsgs (hc : (s.findConn (-sessionID)).1 = some c) (ks : List SendCall) :
    (s.sendMsgs sessionID ks).worker.server.sent c = s.worker.server.sent c ++
      (ks.map fun k => (k.frame (((0xFF : UInt16) <<< 8) + 1)).bytes).flatten := by
  induction ks generalizing s with
  | nil => exact (List.append_nil _).symm
  | cons k ks ih =>
    obtain ⟨hsent, hlive⟩ := sent_sendMsg hc k
    have hrest := ih hlive
    rw [hsent] at hrest
    rw [List.map_cons, List.flatten_cons, ← List.append_assoc]
    exact hrest

end TcpClientService

namespace Server

variable {s t : Server} {k : Fin WORKERS} {c : TcpConduit} {sessionID : Int}

theorem resolve_looked (hk : ∀ k, Worker.Kept (s.workers k) (t.workers k))
    (h0 : Worker.Looked (s.workers 0) (t.workers 0)) (id : Int) : t.resolve id = s.resolve id := by
  have hfind {a b : Server} (hab : ∀ k, Worker.Kept (a.workers k) (b.workers k)) (i : Int) :
      b.find i = a.find i := by
    have hslot (j : Fin WORKERS) (n : ℕ) : b.slot j n = a.slot j n := (hab j).slot n
    simp only [find, hslot]
  have hlook (u : Server) (i : Int) :
      find i (u.setServer 0 ((u.workers 0).server.connUpAt (-id)).2) = u.find i := by
    refine hfind (fun j => ?_) i
    rw [setServer_workers]
    split_ifs with hj
    · rw [hj]
      exact connUpAt_kept (-id) (u.workers 0)
    · exact .refl _
  unfold resolve findConn
  split_ifs
  · exact hfind hk id
  · dsimp only
    rw [h0.connUpAt, hlook, hlook, hfind hk]

theorem sent_findConn (id : Int) (s : Server) (k : Fin WORKERS) (c : TcpConduit) :
    ((s.findConn id).2.workers k).server.sent c = (s.workers k).server.sent c := by
  unfold findConn
  split_ifs
  · rfl
  · dsimp only
    rw [setServer_workers]
    split_ifs with hk
    · rw [hk]
      exact (s.workers 0).server.sent_connUpAt c (-id)
    · rfl

theorem sent_sendMsg (hc : s.resolve sessionID = some (k, c)) (src : UInt16) (call : SendCall)
    (cause : Option ℕ) :
    let t := s.sendMsg src sessionID call.cmdid call.payload call.payload.length cause
    (t.workers k).server.sent c = (s.workers k).server.sent c ++ (call.frame src).bytes ∧
      t.resolve sessionID = some (k, c) := by
  intro t
  have ht : t = s.sendMsgToClient sessionID
      ((Stream.ofHeader call.cmdid (((1 : UInt16) <<< 8) + 1) src).append call.body).eos.buf
      (UInt16.ofNat ((Stream.ofHeader call.cmdid (((1 : UInt16) <<< 8) + 1) src).append
        call.body).eos.size) cause := by
    simp only [t]
    rw [sendMsg, List.take_length, putUInt16_append, call.size_toNat]
    rfl
  rw [ht]
  refine ⟨?_, (resolve_looked (sendMsgToClient_kept _ _ _ _ rfl) (looked_sendMsgToClient _ _ _ _ rfl)
    sessionID).trans hc⟩
  have hfind : (s.findConn sessionID).1 = some (k, c) := hc
  rw [sendMsgToClient, hfind]
  dsimp only
  rw [send]
  dsimp only
  rw [setServer_workers, if_pos rfl]
  dsimp only
  rw [TcpSlaveServer.sent_send, sent_findConn, call.narrowed]

def sendMsgs (src : UInt16) (sessionID : Int) (calls : List SendCall) (s : Server) : Server :=
  calls.foldl (fun s k => s.sendMsg src sessionID k.cmdid k.payload k.payload.length none) s

theorem sent_sendMsgs (hc : s.resolve sessionID = some (k, c)) (src : UInt16)
    (calls : List SendCall) :
    ((s.sendMsgs src sessionID calls).workers k).server.sent c = (s.workers k).server.sent c ++
      (calls.map fun call => (call.frame src).bytes).flatten := by
  induction calls generalizing s with
  | nil => exact (List.append_nil _).symm
  | cons call calls ih =>
    obtain ⟨hsent, hlive⟩ := sent_sendMsg hc src call none
    have hrest := ih hlive
    rw [hsent] at hrest
    rw [List.map_cons, List.flatten_cons, ← List.append_assoc]
    exact hrest

end Server

/-- A session of the server. The logic thread calls into the managed code. -/
def Server.session (cfg : ServerCommonConfig) (id : ℤ) (hid : -2 ^ 31 ≤ id ∧ id < 2 ^ 31) :
    Endpoint Unit ManagedCall where
  kind := .gameClient
  id := id
  int_le := hid.1
  int_lt := hid.2
  deliver _ m hdr := ((MsgPopHandler.processMsg m hdr).map (LogicCall.managed cfg true)).getD []

/-- A connection of the client library. The caller of `GetMsg` passes a buffer in. -/
def TcpClientService.connection (ss id : ℤ) (hid : -2 ^ 31 ≤ id ∧ id < 2 ^ 31) :
    Endpoint { buffer : List UInt8 // 65523 ≤ buffer.length } Callback where
  kind := .clientConn ss
  id := id
  int_le := hid.1
  int_lt := hid.2
  deliver buffer m hdr := (getMsg m hdr buffer).callback.toList

section

variable {cfg : ServerCommonConfig} {id ss : ℤ} {hid : -2 ^ 31 ≤ id ∧ id < 2 ^ 31} {f : Frame}

theorem Frame.clientHdr (hsource : f.source.toNat >>> 8 = 0xFF) (id : ℤ) :
    onRecv .gameClient f.recv id =
      .client ⟨⟨CLIENT_MSGTYPE, f.cmd, UInt32.ofNat f.body.length, id⟩⟩ := by
  rw [onRecv, GameClient.onRecv, if_neg (fun h => h.2 hsource)]
  simp only [Frame.recv, ofInt_toNat]

theorem delivered_managed {o : List ManagedCall} (hsource : f.source.toNat >>> 8 = 0xFF)
    (h : (Server.session cfg id hid).Delivered (onRecv .gameClient f.recv id) f.body o) :
    o = (Logic.processLogic cfg true f.cmd f.body (UInt32.ofNat f.body.length) id).invoked := by
  obtain ⟨-, m, a, n, off, hold, rfl⟩ := h
  have hf := f.recv_fits .gameClient id
  have hlo : -2 ^ 31 ≤ (onRecv .gameClient f.recv id).msgHdr.sessionID := by
    rw [onRecv_sessionID]
    exact hid.1
  have hhi : (onRecv .gameClient f.recv id).msgHdr.sessionID < 2 ^ 31 := by
    rw [onRecv_sessionID]
    exact hid.2
  have hcall := processMsg_holds hf hlo hhi hold
  rw [processMsg_block hf, Frame.clientHdr hsource] at hcall
  simp only [Server.session, hcall]
  rfl

/-- The managed entries that the frame `f` of a client invokes. -/
def Frame.invoked (cfg : ServerCommonConfig) (id : ℤ) (f : Frame) : List ManagedCall :=
  (Logic.processLogic cfg true f.cmd f.body (UInt32.ofNat f.body.length) id).invoked

theorem Frame.body_toNat (f : Frame) : (UInt32.ofNat f.body.length).toNat = f.body.length := by
  have := f.body_le
  rw [UInt32.toNat_ofNat', Nat.mod_eq_of_lt (by omega)]

theorem Frame.invoked_long (hcmd : f.cmd ≠ 2) (hlen : 2 < f.body.length) :
    f.invoked cfg id = [.processMsg id f.cmd (f.body.drop 2) (UInt32.ofNat (leNat (f.body.take 2)))] := by
  have hlt : (2 : UInt32) < UInt32.ofNat f.body.length :=
    UInt32.lt_iff_toNat_lt.mpr (by rw [f.body_toNat]; exact hlen)
  rw [invoked, processLogic_long hcmd hlt f.body_toNat]

theorem Frame.invoked_short (hcmd : f.cmd ≠ 2) (hlen : f.body.length ≤ 2) :
    f.invoked cfg id = [] := by
  have hle : UInt32.ofNat f.body.length ≤ 2 :=
    UInt32.le_iff_toNat_le.mpr (by rw [f.body_toNat]; exact hlen)
  rw [invoked, processLogic_short hcmd hle]

/-- The entry `ProcessMsg` with the arguments of the call `k`. -/
def SendCall.entry (id : ℤ) (k : SendCall) : ManagedCall :=
  .processMsg id k.cmdid k.payload (UInt32.ofNat k.payload.length)

theorem SendCall.invoked (src : UInt16) {k : SendCall} (hcmd : k.cmdid ≠ 2) :
    (k.frame src).invoked cfg id = if k.payload = [] then [] else [k.entry id] := by
  have hlen : (k.frame src).body.length = 2 + k.payload.length := k.length_body
  have hsize := k.size_le
  split_ifs with hnil
  · exact Frame.invoked_short hcmd (by rw [hlen, hnil]; exact le_rfl)
  · have hpos := List.length_pos_iff.mpr hnil
    have htake : (k.frame src).body.take 2 = le 2 k.payload.length :=
      List.take_left' (length_le _ _)
    have hdrop : (k.frame src).body.drop 2 = k.payload := List.drop_left' (length_le _ _)
    rw [Frame.invoked_long hcmd (by omega), htake, hdrop, leNat_le_of_lt (by omega)]
    rfl

theorem registerMsg_invoked (peer : UInt16) (lib : ServerCommonConfig) :
    (registerMsg peer lib).invoked cfg id = [.processMsg id 1 registerText 18] := by
  have hbody : (registerMsg peer lib).body = le 2 18 ++ registerText := by
    have hlen : (UInt16.ofNat registerText.length).toNat = registerText.length := by
      rw [length_registerText]
      rfl
    have heq : (registerMsg peer lib).body = Stream.chars registerText := rfl
    rw [heq]
    unfold Stream.chars
    dsimp only
    rw [hlen, List.take_length, length_registerText]
  have hlen : (registerMsg peer lib).body.length = 20 := length_register
  rw [Frame.invoked_long (by exact (by decide : (1 : UInt32) ≠ 2)) (by omega), hbody,
    List.drop_left' (length_le _ _), List.take_left' (length_le _ _)]
  rfl

theorem sends_invoked (src : UInt16) {ks : List SendCall} (hcmd : ∀ k ∈ ks, k.cmdid ≠ 2) :
    ((ks.map (SendCall.frame src)).map (Frame.invoked cfg id)).flatten =
      (ks.filter (·.payload ≠ [])).map (SendCall.entry id) := by
  induction ks with
  | nil => rfl
  | cons k ks ih =>
    obtain ⟨hk, hks⟩ := List.forall_mem_cons.mp hcmd
    rw [List.map_cons, List.map_cons, List.flatten_cons, SendCall.invoked src hk, ih hks]
    by_cases hnil : k.payload = []
    · simp [hnil]
    · simp [hnil]

end

/-- The server's entry `ProcessMsg` is invoked for the register frame that opens a connection,
and then once for each call with a payload, in order and with its arguments. A call without
payload invokes nothing. -/
theorem client_to_server_delivery {client : TcpClientService} {sessionID : Int} {c : TcpConduit}
    (hc : (client.findConn (-sessionID)).1 = some c) {peer : UInt16} {lib : ServerCommonConfig}
    (hlib : lib.serverType = 0xFF) (hsent : client.worker.server.sent c = registerFrame peer.toNat lib)
    (ks : List SendCall) (hcmd : ∀ k ∈ ks, k.cmdid ≠ 2) (cfg : ServerCommonConfig) {id : ℤ}
    (hid : -2 ^ 31 ≤ id ∧ id < 2 ^ 31) (es : List (ReceiverEvent Unit)) (s : Receiver ManagedCall) :
    let E := Server.session cfg id hid
    let stream := (client.sendMsgs sessionID ks).worker.server.sent c
    let all := ManagedCall.processMsg id 1 registerText 18 ::
      (ks.filter (·.payload ≠ [])).map (SendCall.entry id)
    Transition.run E.step es Endpoint.start = some s → s.arrived <+: stream →
      s.seen.flatten <+: all ∧ (∃ t, E.step (.logic ()) s = some t) ∧
      ∀ es' t, E.Drains stream es' s t → t.seen.flatten = all := by
  intro E stream all h harrived
  let src : UInt16 := ((0xFF : UInt16) <<< 8) + 1
  let fs := registerMsg peer lib :: ks.map (SendCall.frame src)
  have hstream : stream = (fs.map Frame.bytes).flatten := by
    have hs := TcpClientService.sent_sendMsgs hc ks
    rw [hsent, registerFrame_eq] at hs
    rw [List.map_cons, List.flatten_cons, List.map_map]
    exact hs
  have hall : (fs.map (Frame.invoked cfg id)).flatten = all := by
    rw [List.map_cons, List.flatten_cons, registerMsg_invoked, sends_invoked src hcmd]
    rfl
  have hsource : ∀ f ∈ fs, f.source.toNat >>> 8 = 0xFF := by
    intro f hf
    rcases List.mem_cons.mp hf with rfl | hf
    · have huid := lib.serverUID.toNat_lt
      have htype : lib.serverType.toNat = 255 := by rw [hlib]; rfl
      have hregister : (registerMsg peer lib).source.toNat = _ := lib.serverId_toNat
      rw [hregister, htype, Nat.shiftRight_eq_div_pow]
      omega
    · obtain ⟨k, -, rfl⟩ := List.mem_map.mp hf
      exact (by decide : src.toNat >>> 8 = 0xFF)
  rw [hstream] at harrived ⊢
  have heq {gs : List Frame} {seen : List (List ManagedCall)}
      (hf : List.Forall₂ (fun f o => Frame.invoked cfg id f = o) gs seen) :
      seen = gs.map (Frame.invoked cfg id) := by
    have hmap := List.forall₂_map_left_iff.mpr hf
    rw [List.forall₂_eq_eq_eq] at hmap
    exact hmap.symm
  obtain ⟨⟨gs, hgs, hseen⟩, hlogic, hlive⟩ := E.delivered
    (R := fun f o => Frame.invoked cfg id f = o)
    (fun f hf o ho => (delivered_managed (hsource f hf) ho).symm) h harrived
  refine ⟨?_, hlogic (), ?_⟩
  · rw [heq hseen, ← hall]
    exact (hgs.map _).flatten
  · intro es' t hdrains
    rw [heq (hlive es' t hdrains), hall]

def libraryConfig : ServerCommonConfig :=
  (ServerCommonConfig.ofType 0xFF 1 0).addConnectList 257 "127.0.0.1" 8100

/-- The steps of `PushMsg` for a message that gets a chunk from `malloc` at `a`. -/
def pushAt {χ : Type} (a : ℕ) : List (ReceiverEvent χ) :=
  [.push 0 0, .push 0 a, .push 0 0, .push 0 0, .push 0 0, .push 0 0]

/-- Two messages are read while the first is drained, and more of the stream arrives. -/
def reading {χ : Type} (stream : List UInt8) (x : χ) : List (ReceiverEvent χ) :=
  [.arrive (stream.dropLast), .readRound] ++ pushAt 1000 ++ [.logic x, .logic x,
    .arrive stream.getLast?.toList, .readRound] ++ pushAt 2000

theorem idle_of_msg {p : Pusher} (h : p.msg = none) : p = .idle := by
  cases p with
  | idle => rfl
  | _ => exact absurd h (by simp [Pusher.msg])

theorem Endpoint.exists_drains {χ δ : Type} (E : Endpoint χ δ) (stream : List UInt8)
    (es es' : List (ReceiverEvent χ)) (P : Receiver δ → Prop) [DecidablePred P]
    (h : (Transition.run E.step es start).any fun s => s.arrived = stream ∧
      accepted.next s.input = none ∧ (s.bus.threads 0).msg.isNone ∧
      4 * s.bus.inserted.length ≤ es'.countP ReceiverEvent.isLogic ∧
      (Transition.run E.step es' s).any fun t => t.arrived = stream ∧ P t) :
    ∃ s t, Transition.run E.step es start = some s ∧ E.Drains stream es' s t ∧ P t := by
  obtain ⟨s, hs, harrived, hnext, hidle, hsteps, ht⟩ := Transition.exists_run E.step es start _ h
  obtain ⟨t, ht, hend, hP⟩ := Transition.exists_run E.step es' s _ ht
  exact ⟨s, t, hs, ⟨ht, harrived, hend, hnext, idle_of_msg (Option.isNone_iff_eq_none.mp hidle),
    hsteps⟩, hP⟩

def libraryEvents : List ClientEvent :=
  [.worker (.initConnection 257), .worker .takeOps, .worker (.exec ⟨9, false, false, false⟩)]

def libraryConn : TcpConduit := ⟨.clientConn 257, 9, 0, 0⟩

theorem library_connected : ∃ client : TcpClientService,
    Transition.run TcpClientService.step libraryEvents (TcpClientService.start libraryConfig) =
      some client ∧ (client.findConn (-257)).1 = some libraryConn ∧
      client.worker.server.sent libraryConn = registerFrame ((257 : UInt16).toNat : Int) libraryConfig :=
  Transition.exists_run _ _ _ (fun client : TcpClientService => (client.findConn (-257)).1 = some libraryConn ∧
    client.worker.server.sent libraryConn = registerFrame ((257 : UInt16).toNat : Int) libraryConfig)
    (by decide +kernel)

def threeBytes : SendCall := ⟨7, [1, 2, 3], by decide, by decide⟩

def noBytes : SendCall := ⟨8, [], by decide, by decide⟩

theorem reads_call (k : SendCall) (hk : k = threeBytes ∨ k = noBytes) :
    let stream := registerFrame ((257 : UInt16).toNat : Int) libraryConfig ++
      [(k.frame (((0xFF : UInt16) <<< 8) + 1)).bytes].flatten
    ∃ s t, Transition.run (Server.session (.ofType 5 1 8000) 4 (by decide)).step (reading stream ())
        Endpoint.start = some s ∧
      (Server.session (.ofType 5 1 8000) 4 (by decide)).Drains stream (List.replicate 8 (.logic ())) s t ∧
      t.seen = [[.processMsg 4 1 registerText 18],
        if k.payload = [] then [] else [k.entry 4]] := by
  rcases hk with rfl | rfl
  · exact Endpoint.exists_drains _ _ _ _ (fun t : Receiver ManagedCall =>
      t.seen = [[.processMsg 4 1 registerText 18], [threeBytes.entry 4]]) (by decide +kernel)
  · exact Endpoint.exists_drains _ _ _ _ (fun t : Receiver ManagedCall =>
      t.seen = [[.processMsg 4 1 registerText 18], []]) (by decide +kernel)

theorem client_to_server_three_bytes : ∃ client s t,
    Transition.run TcpClientService.step libraryEvents (TcpClientService.start libraryConfig) =
      some client ∧
    Transition.run (Server.session (.ofType 5 1 8000) 4 (by decide)).step
      (reading ((client.sendMsgs 257 [threeBytes]).worker.server.sent libraryConn) ())
      Endpoint.start = some s ∧
    Transition.run (Server.session (.ofType 5 1 8000) 4 (by decide)).step
      (List.replicate 8 (.logic ())) s = some t ∧
    t.seen.flatten = [.processMsg 4 1 registerText 18, .processMsg 4 7 [1, 2, 3] 3] := by
  obtain ⟨client, hclient, hc, hsent⟩ := library_connected
  have hstream := TcpClientService.sent_sendMsgs hc [threeBytes]
  rw [hsent, List.map_singleton] at hstream
  obtain ⟨s, t, hs, hdrains, -⟩ := reads_call threeBytes (.inl rfl)
  have hcmd : ∀ k ∈ [threeBytes], k.cmdid ≠ 2 := by
    intro k hk
    obtain rfl := List.mem_singleton.mp hk
    decide
  rw [← hstream] at hs hdrains
  obtain ⟨-, -, hall⟩ := client_to_server_delivery hc rfl hsent [threeBytes] hcmd
    (.ofType 5 1 8000) (by decide) _ s hs (by rw [hdrains.arrived])
  exact ⟨client, s, t, hclient, hs, hdrains.run, hall _ t hdrains⟩

/-- A call without payload: the whole stream is read and drained, and the server's entry has
been invoked for the register frame only. -/
theorem client_to_server_no_bytes : ∃ client s t,
    Transition.run TcpClientService.step libraryEvents (TcpClientService.start libraryConfig) =
      some client ∧ (client.findConn (-257)).1 = some libraryConn ∧
    Transition.run (Server.session (.ofType 5 1 8000) 4 (by decide)).step
      (reading ((client.sendMsgs 257 [noBytes]).worker.server.sent libraryConn) ())
      Endpoint.start = some s ∧
    (Server.session (.ofType 5 1 8000) 4 (by decide)).Drains
      ((client.sendMsgs 257 [noBytes]).worker.server.sent libraryConn)
      (List.replicate 8 (.logic ())) s t ∧
    t.seen.flatten = [.processMsg 4 1 registerText 18] ∧ noBytes.entry 4 ∉ t.seen.flatten := by
  obtain ⟨client, hclient, hc, hsent⟩ := library_connected
  have hstream := TcpClientService.sent_sendMsgs hc [noBytes]
  rw [hsent, List.map_singleton] at hstream
  obtain ⟨s, t, hs, hdrains, hseen⟩ := reads_call noBytes (.inr rfl)
  have hflat : t.seen.flatten = [.processMsg 4 1 registerText 18] := by
    rw [hseen]
    rfl
  rw [← hstream] at hs hdrains
  refine ⟨client, s, t, hclient, hc, hs, hdrains, hflat, fun hin => ?_⟩
  rw [hflat] at hin
  have heq := List.mem_singleton.mp hin
  exact absurd (ManagedCall.processMsg.inj heq).2.1 (by decide)

/-- The callback of `GetMsg` as it should be for the call `k`. -/
def SendCall.Called (id : ℤ) (k : SendCall) (o : List Callback) : Prop :=
  ∃ cb, o = [cb] ∧ cb.session_id = UInt32.ofInt id ∧ cb.size.toNat = k.payload.length ∧
    cb.buffer.take cb.size.toNat = k.payload

theorem delivered_callback {ss id : ℤ} {hid : -2 ^ 31 ≤ id ∧ id < 2 ^ 31} {src : UInt16}
    {k : SendCall} {o : List Callback}
    (h : (TcpClientService.connection ss id hid).Delivered
      (onRecv (.clientConn ss) (k.frame src).recv id) k.body o) : k.Called id o := by
  obtain ⟨buffer, m, a, n, off, hold, rfl⟩ := h
  have hf : (onRecv (.clientConn ss) (k.frame src).recv id).Fits k.body :=
    (k.frame src).recv_fits (.clientConn ss) id
  have hsess := onRecv_sessionID (.clientConn ss) (k.frame src).recv id
  have hlo : -2 ^ 31 ≤ (onRecv (.clientConn ss) (k.frame src).recv id).msgHdr.sessionID := by
    rw [hsess]
    exact hid.1
  have hhi : (onRecv (.clientConn ss) (k.frame src).recv id).msgHdr.sessionID < 2 ^ 31 := by
    rw [hsess]
    exact hid.2
  have hsize := k.size_le
  have hlen := k.length_body
  obtain ⟨-, hbody⟩ := block_read hlo hhi hold
  have hlength := Memory.read_take hbody (by omega : 2 ≤ k.body.length)
  have hpayload := Memory.read_drop hbody (by omega : 2 ≤ k.body.length)
  have htake : k.body.take 2 = le 2 k.payload.length := List.take_left' (length_le _ _)
  have hdrop : k.body.drop 2 = k.payload := List.drop_left' (length_le _ _)
  have hsub : k.body.length - 2 = k.payload.length := by omega
  rw [htake] at hlength
  rw [hdrop, hsub] at hpayload
  have hget := getMsg_block hlo hhi hold rfl buffer.1
  have hsizeof : (onRecv (.clientConn ss) (k.frame src).recv id).sizeof = sizeofProxyMsgHdr := rfl
  rw [hsizeof] at hlength hpayload
  simp only [hlength, leNat_le_of_lt (show k.payload.length < 256 ^ 2 by omega), k.size_toNat,
    hpayload] at hget
  have hdeliver : (TcpClientService.connection ss id hid).deliver buffer m (a + off) =
      [⟨UInt32.ofInt id, UInt16.ofNat k.payload.length, memcpyTo buffer k.payload⟩] := by
    have hcallback := congrArg (fun r : GetMsgRun => r.callback.toList) hget
    rw [hsess] at hcallback
    exact hcallback
  rw [hdeliver]
  refine ⟨_, rfl, rfl, k.size_toNat, ?_⟩
  dsimp only
  rw [k.size_toNat]
  exact List.take_left

/-- The callback of the client is invoked once for each call, in order, with the session of
the connection, and with the payload at the beginning of the caller's buffer. -/
theorem server_to_client_delivery {server : Server} {sessionID : Int} {k : Fin WORKERS}
    {c : TcpConduit} (hc : server.resolve sessionID = some (k, c))
    (hsent : (server.workers k).server.sent c = []) (src : UInt16) (ks : List SendCall) (ss : ℤ)
    {id : ℤ} (hid : -2 ^ 31 ≤ id ∧ id < 2 ^ 31)
    (es : List (ReceiverEvent { buffer : List UInt8 // 65523 ≤ buffer.length }))
    (s : Receiver Callback) :
    let E := TcpClientService.connection ss id hid
    let stream := ((server.sendMsgs src sessionID ks).workers k).server.sent c
    Transition.run E.step es Endpoint.start = some s → s.arrived <+: stream →
      (∃ front, front <+: ks ∧ List.Forall₂ (SendCall.Called id) front s.seen) ∧
      (∀ buffer, ∃ t, E.step (.logic buffer) s = some t) ∧
      ∀ es' t, E.Drains stream es' s t → List.Forall₂ (SendCall.Called id) ks t.seen := by
  intro E stream h harrived
  have hstream : stream = ((ks.map (SendCall.frame src)).map Frame.bytes).flatten := by
    have hs := Server.sent_sendMsgs hc src ks
    rw [hsent, List.nil_append] at hs
    rw [List.map_map]
    exact hs
  rw [hstream] at harrived ⊢
  let R (f : Frame) (o : List Callback) : Prop :=
    ∀ call : SendCall, f = call.frame src → call.Called id o
  have hR : ∀ f ∈ ks.map (SendCall.frame src), ∀ o,
      E.Delivered (onRecv E.kind f.recv E.id) f.body o → R f o := by
    rintro f - o ho call rfl
    exact delivered_callback ho
  have hcalled {gs : List SendCall} {seen : List (List Callback)}
      (hf : List.Forall₂ R (gs.map (SendCall.frame src)) seen) :
      List.Forall₂ (SendCall.Called id) gs seen :=
    (List.forall₂_map_left_iff.mp hf).imp fun call o ho => ho call rfl
  obtain ⟨⟨gs, hgs, hseen⟩, hlogic, hlive⟩ := E.delivered hR h harrived
  refine ⟨?_, hlogic, ?_⟩
  · obtain ⟨front, hfront, rfl⟩ := List.prefix_map_iff.mp hgs
    exact ⟨front, hfront, hcalled hseen⟩
  · intro es' t hdrains
    exact hcalled (hlive es' t hdrains)


def sessionEvents : List ServerEvent :=
  [.worker 0 (.accepted 5), .worker 0 .takeOps, .worker 0 (.exec ⟨-1, false, false, false⟩)]

def callerBuffer : { buffer : List UInt8 // 65523 ≤ buffer.length } :=
  ⟨List.replicate 65523 0, List.length_replicate.ge⟩

theorem server_to_client_two_calls : ∃ server s t,
    Transition.run Server.step sessionEvents (Server.start (.ofType 5 1 8000)) = some server ∧
    Transition.run (TcpClientService.connection 257 0 (by decide)).step
      (reading (((server.sendMsgs 0x0A00 0 [threeBytes, noBytes]).workers 0).server.sent
        ⟨.gameClient, 5, 0, 0⟩) callerBuffer) Endpoint.start = some s ∧
    Transition.run (TcpClientService.connection 257 0 (by decide)).step
      (List.replicate 8 (.logic callerBuffer)) s = some t ∧
    List.Forall₂ (SendCall.Called 0) [threeBytes, noBytes] t.seen := by
  obtain ⟨server, hserver, hc, hsent⟩ := Transition.exists_run Server.step sessionEvents
    (Server.start (.ofType 5 1 8000)) (fun server : Server =>
      server.resolve 0 = some (0, ⟨.gameClient, 5, 0, 0⟩) ∧
      (server.workers 0).server.sent ⟨.gameClient, 5, 0, 0⟩ = []) (by decide)
  have hstream := Server.sent_sendMsgs hc 0x0A00 [threeBytes, noBytes]
  rw [hsent] at hstream
  obtain ⟨s, t, hs, hdrains, -⟩ := (TcpClientService.connection 257 0 (by decide)).exists_drains
    ([] ++ ([threeBytes, noBytes].map fun call => (call.frame 0x0A00).bytes).flatten)
    (reading ([] ++ ([threeBytes, noBytes].map fun call => (call.frame 0x0A00).bytes).flatten)
      callerBuffer) (List.replicate 8 (.logic callerBuffer)) (fun _ => True) (by decide +kernel)
  rw [← hstream] at hs hdrains
  obtain ⟨-, -, hall⟩ := server_to_client_delivery hc hsent 0x0A00 [threeBytes, noBytes] 257
    (by decide) _ s hs (by rw [hdrains.arrived])
  exact ⟨server, s, t, hserver, hs, hdrains.run, hall _ t hdrains⟩

end RgcFifa
