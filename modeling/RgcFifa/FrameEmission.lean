import RgcFifa.ServerInv

/-! The functions that frame a payload and hand it to a conduit. Each narrows the size of
the framed stream to 16 bits on the way to `TcpConduit::send`. -/

namespace RgcFifa

def WholeFrame (bytes : List UInt8) : Prop :=
  bytes ≠ [] ∧ 0 < (GameClient.parsePacket bytes).len ∧
    (GameClient.parsePacket bytes).len = bytes.length

namespace Server

/-- `Logic::SendMsg`. The source id is `serverType << (8 + serverUID)`, a shift that the
language leaves undefined for large ids, so it is a parameter here. -/
def sendMsg (srcId : UInt16) (sessionID : Int) (cmdid : UInt32) (buffer : List UInt8) (size : ℕ)
    (cause : Option ℕ) (s : Server) : Server :=
  let st := (((Stream.ofHeader cmdid (((1 : UInt16) <<< 8) + 1) srcId).putUInt16 (UInt16.ofNat size)).append
    (buffer.take size)).eos
  s.sendMsgToClient sessionID st.buf (UInt16.ofNat st.size) cause

def sendMsg2Server (srcId : UInt16) (sessionID : Int) (cmdid : UInt32) (buffer : List UInt8)
    (size : ℕ) (target : UInt16) (cause : Option ℕ) (s : Server) : Server :=
  let st := (((Stream.ofHeader cmdid target srcId).putUInt16 (UInt16.ofNat size)).append
    (buffer.take size)).eos
  s.sendMsgToClient sessionID st.buf (UInt16.ofNat st.size) cause

/-- Between two states the conduit `p` was sent one string of bytes, and it is a whole frame. -/
def Emits (s t : Server) (p : Fin WORKERS × TcpConduit) (cause : Option ℕ) : Prop :=
  ∃ bytes, t.writes = s.writes ++ [⟨p.1, p.2.serial, bytes, cause⟩] ∧ WholeFrame bytes

end Server

/-- The client library: one worker, and a record of what it sent. -/
structure TcpClientService where
  worker : Worker
  writes : List (ℕ × List UInt8)

namespace TcpClientService

def find (id : Int) (s : TcpClientService) : Option TcpConduit :=
  if id = -1 then none else s.worker.slot (TcpSlaveServer.slotOf id)

def findConn (id : Int) (s : TcpClientService) : Option TcpConduit × TcpClientService :=
  if id > 0 then (s.find id, s)
  else
    let up := s.worker.server.connUpAt (-id)
    let s := { s with worker := { s.worker with server := up.2 } }
    (s.find up.1, s)

/-- `TcpClientWrapper::SendMsgToClient(int, const void *, UInt16)`. -/
def sendMsgToClient (sessionID : Int) (buffer : List UInt8) (size : UInt16) (s : TcpClientService) :
    TcpClientService :=
  let conn := s.findConn (-sessionID)
  match conn.1 with
  | none => conn.2
  | some c => { conn.2 with
      worker := { conn.2.worker with
        server := conn.2.worker.server.send c (buffer.take size.toNat) }
      writes := conn.2.writes ++ [(c.serial, buffer.take size.toNat)] }

/-- The exported `sendMsg`. -/
def sendMsg (sessionID : Int) (cmdid : UInt32) (buffer : List UInt8) (size : UInt16)
    (s : TcpClientService) : TcpClientService :=
  let st := (((Stream.ofHeader cmdid (((1 : UInt16) <<< 8) + 1)
    (((0xFF : UInt16) <<< 8) + 1)).putUInt16 size).append (buffer.take size.toNat)).eos
  s.sendMsgToClient sessionID st.buf (UInt16.ofNat st.size)

def Emits (s t : TcpClientService) (c : TcpConduit) : Prop :=
  ∃ bytes, t.writes = s.writes ++ [(c.serial, bytes)] ∧ WholeFrame bytes

end TcpClientService

theorem wholeFrame_iff (bytes : List UInt8) : WholeFrame bytes ↔
    Complete bytes ∧ (headerPacket bytes).len = bytes.length := by
  constructor
  · rintro ⟨_, hpos, hlen⟩
    have hc := (parsePacket_len_pos bytes).mp hpos
    rw [parsePacket_eq, if_pos hc] at hlen
    exact ⟨hc, hlen⟩
  · rintro ⟨hc, hlen⟩
    refine ⟨fun hnil => ?_, (parsePacket_len_pos bytes).mpr hc, ?_⟩
    · have h10 := hc.1
      simp [hnil] at h10
    · rw [parsePacket_eq, if_pos hc]
      exact hlen

/-- The narrowed size cuts the stream at a frame boundary unless it cuts the header. -/
theorem wholeFrame_narrowed (cmd : UInt32) (target source : UInt16) (body : List UInt8) :
    WholeFrame ((frameBytes cmd target source body).take ((10 + body.length) % 65536)) ↔
      10 ≤ (10 + body.length) % 65536 := by
  have hlen := length_frameBytes cmd target source body
  have htake : ((frameBytes cmd target source body).take ((10 + body.length) % 65536)).length =
      (10 + body.length) % 65536 := by
    rw [List.length_take_of_le]
    omega
  rw [wholeFrame_iff]
  constructor
  · rintro ⟨hc, _⟩
    have h10 := hc.1
    omega
  · intro h10
    have hh : headerPacket ((frameBytes cmd target source body).take ((10 + body.length) % 65536)) =
        headerPacket (frameBytes cmd target source body) := headerPacket_take h10
    have hl : (headerPacket ((frameBytes cmd target source body).take
        ((10 + body.length) % 65536))).len = (10 + body.length) % 65536 := by
      rw [hh, headerPacket_frameBytes]
      dsimp only
      omega
    refine ⟨⟨by omega, ?_⟩, by rw [hl, htake]⟩
    rw [htake]
    exact hl.le

theorem narrowed_buf (cmd : UInt32) (target source : UInt16) (body : List UInt8) :
    (((Stream.ofHeader cmd target source).append body).eos.buf).take
        (UInt16.ofNat ((Stream.ofHeader cmd target source).append body).eos.size).toNat =
      (frameBytes cmd target source body).take ((10 + body.length) % 65536) := by
  have hsize : (UInt16.ofNat ((Stream.ofHeader cmd target source).append body).eos.size).toNat =
      (10 + body.length) % 65536 := by simp
  rw [hsize]
  rfl

theorem putUInt16_append (st : Stream) (v : UInt16) (b : List UInt8) :
    (st.putUInt16 v).append b = st.append (ByteWords.le 2 v.toNat ++ b) :=
  Stream.append_append _ _ _

namespace Server

theorem emits_framed {s : Server} {sessionID : Int} {p : Fin WORKERS × TcpConduit}
    (hp : s.resolve sessionID = some p) (cmd : UInt32) (target source : UInt16) (body : List UInt8)
    (cause : Option ℕ) :
    s.Emits (s.sendMsgToClient sessionID ((Stream.ofHeader cmd target source).append body).eos.buf
      (UInt16.ofNat ((Stream.ofHeader cmd target source).append body).eos.size) cause) p cause ↔
      10 ≤ (10 + body.length) % 65536 := by
  have hw := sendMsgToClient_writes sessionID
    ((Stream.ofHeader cmd target source).append body).eos.buf
    (UInt16.ofNat ((Stream.ofHeader cmd target source).append body).eos.size) cause s
  rw [hp, Option.map_some, Option.toList_some, narrowed_buf] at hw
  rw [← wholeFrame_narrowed cmd target source body, Emits, hw]
  constructor
  · rintro ⟨bytes, hb, hwhole⟩
    have he := List.append_cancel_left hb
    simp only [List.cons.injEq, Write.mk.injEq, and_true, true_and] at he
    rwa [he]
  · intro hwhole
    exact ⟨_, rfl, hwhole⟩

end Server

theorem TcpClientService.emits_framed {s : TcpClientService} {sessionID : Int} {c : TcpConduit}
    (hc : (s.findConn (-sessionID)).1 = some c) (cmd : UInt32) (target source : UInt16)
    (body : List UInt8) :
    s.Emits (s.sendMsgToClient sessionID ((Stream.ofHeader cmd target source).append body).eos.buf
      (UInt16.ofNat ((Stream.ofHeader cmd target source).append body).eos.size)) c ↔
      10 ≤ (10 + body.length) % 65536 := by
  have hrest : (s.findConn (-sessionID)).2.writes = s.writes := by
    unfold findConn
    split_ifs <;> rfl
  rw [← wholeFrame_narrowed cmd target source body, Emits, sendMsgToClient, hc]
  dsimp only
  rw [hrest, narrowed_buf]
  constructor
  · rintro ⟨bytes, hb, hwhole⟩
    have he := List.append_cancel_left hb
    simp only [List.cons.injEq, Prod.mk.injEq, and_true, true_and] at he
    rwa [he]
  · intro hwhole
    exact ⟨_, rfl, hwhole⟩

open Server

theorem emitted_frame_iff (s : Server) (client : TcpClientService) (source : UInt16) (cmdid : UInt32)
    (payload : List UInt8) (sessionID : Int) (cause : Option ℕ) :
    (∀ p, s.resolve sessionID = some p →
      (s.Emits (s.sendMsg source sessionID cmdid payload payload.length cause) p cause ↔
        10 ≤ (12 + payload.length) % 65536) ∧
      ∀ target : UInt16,
        (s.Emits (s.sendMsg2Server source sessionID cmdid payload payload.length target cause) p
          cause ↔ 10 ≤ (12 + payload.length) % 65536) ∧
        (s.Emits (s.proxyMsg2Server sessionID cmdid payload payload.length target source cause) p
          cause ↔ 10 ≤ (10 + payload.length) % 65536)) ∧
    ∀ (size : UInt16) c, (client.findConn (-sessionID)).1 = some c → payload.length = size.toNat →
      (client.Emits (client.sendMsg sessionID cmdid payload size) c ↔
        10 ≤ (12 + payload.length) % 65536) := by
  have hlen (v : UInt16) : 10 + (ByteWords.le 2 v.toNat ++ payload).length = 12 + payload.length := by
    rw [List.length_append, ByteWords.length_le]
    omega
  constructor
  · intro p hp
    refine ⟨?_, fun target => ⟨?_, ?_⟩⟩
    · rw [sendMsg, List.take_length, putUInt16_append, emits_framed hp, hlen]
    · rw [sendMsg2Server, List.take_length, putUInt16_append, emits_framed hp, hlen]
    · rw [proxyMsg2Server, List.take_length, emits_framed hp]
  · intro size c hc hsize
    rw [TcpClientService.sendMsg, ← hsize, List.take_length, putUInt16_append,
      TcpClientService.emits_framed hc, hlen]

/-- Three bytes to the conduit in slot zero, and from the client to its server 65281. -/
theorem emitted_frame_short : (∃ s p, Transition.run step
      [.worker 0 (.accepted 5), .worker 0 .takeOps, .worker 0 (.exec ⟨-1, false, false, false⟩)]
      (start (.ofType 5 1 8000)) = some s ∧ s.resolve 0 = some p ∧
      s.Emits (s.sendMsg 0x0501 0 7 [1, 2, 3] 3 none) p none) ∧
    ∃ w c, Transition.run Worker.step
      [.initConnection 65281, .takeOps, .exec ⟨9, false, false, false⟩]
      (Worker.start 0 ((ServerCommonConfig.ofType 0xFF 1 0).addConnectList 65281 "127.0.0.1" 8100)) =
        some w ∧ ((TcpClientService.mk w []).findConn (-65281)).1 = some c ∧
      (TcpClientService.mk w []).Emits ((TcpClientService.mk w []).sendMsg 65281 7 [1, 2, 3] 3) c := by
  constructor
  · obtain ⟨s, hs, hp⟩ := Transition.exists_run step
      [.worker 0 (.accepted 5), .worker 0 .takeOps, .worker 0 (.exec ⟨-1, false, false, false⟩)]
      (start (.ofType 5 1 8000)) (fun s => s.resolve 0 = some (0, ⟨.gameClient, 5, 0, 0⟩))
      (by decide)
    have hiff := (emitted_frame_iff s ⟨Worker.start 0 (.ofType 5 1 8000), []⟩ 0x0501 7 [1, 2, 3] 0
      none).1 _ hp
    exact ⟨s, _, hs, hp, hiff.1.mpr (by decide)⟩
  · obtain ⟨w, hw, hc⟩ := Transition.exists_run Worker.step
      [.initConnection 65281, .takeOps, .exec ⟨9, false, false, false⟩]
      (Worker.start 0 ((ServerCommonConfig.ofType 0xFF 1 0).addConnectList 65281 "127.0.0.1" 8100))
      (fun w => ((TcpClientService.mk w []).findConn (-65281)).1 =
        some ⟨.clientConn 65281, 9, 0, 0⟩) (by decide)
    have hiff := (emitted_frame_iff (start (.ofType 5 1 8000)) ⟨w, []⟩ 0x0501 7 [1, 2, 3] 65281
      none).2 3 _ hc rfl
    exact ⟨w, _, hw, hc, hiff.mpr (by decide)⟩

/-- A relayed body of 65526 bytes makes a stream of 65536, and nothing of it is sent. -/
theorem emitted_frame_lost : ∃ s p, Transition.run step
      [.worker 0 (.accepted 5), .worker 0 .takeOps, .worker 0 (.exec ⟨-1, false, false, false⟩)]
      (start (.ofType 5 1 8000)) = some s ∧ s.resolve 0 = some p ∧
      ¬ s.Emits (s.proxyMsg2Server 0 7 (List.replicate 65526 0) 65526 0x0102 0x0103 none) p none := by
  obtain ⟨s, hs, hp⟩ := Transition.exists_run step
    [.worker 0 (.accepted 5), .worker 0 .takeOps, .worker 0 (.exec ⟨-1, false, false, false⟩)]
    (start (.ofType 5 1 8000)) (fun s => s.resolve 0 = some (0, ⟨.gameClient, 5, 0, 0⟩))
    (by decide)
  refine ⟨s, _, hs, hp, fun he => ?_⟩
  have htake : (List.replicate 65526 (0 : UInt8)).take 65526 = List.replicate 65526 0 := by
    rw [List.take_replicate, Nat.min_self]
  rw [proxyMsg2Server, htake, emits_framed hp, List.length_replicate] at he
  omega

end RgcFifa
