import RgcFifa.ProxyRouting

/-! A relayed frame leaves the server as it came in. The frame is taken apart at the
network side, queued, and put together again by the logic thread. -/

namespace RgcFifa

open Server

theorem ofInt_toNat (x : UInt32) : UInt32.ofInt (x.toNat : Int) = x := by
  have h := x.toNat_lt
  have hm : ((x.toNat : Int) % 2 ^ 32).toNat = x.toNat := by omega
  rw [UInt32.ofInt, hm, UInt32.ofNat_toNat]

theorem Frame.recv_of_bytes {f g : Frame} (h : f.bytes = g.bytes) : f.recv = g.recv := by
  have hf := f.next
  rw [h, g.next] at hf
  exact (congrArg Prod.snd (Option.some.inj hf)).symm

/-- A frame that `GameClient::onRecv` takes for the proxy and that is no registration. -/
structure Frame.ForProxy (f : Frame) : Prop where
  target : 0 < f.target.toNat
  source : f.source.toNat >>> 8 ≠ 0xFF
  cmd : f.cmd ≠ 0x01

theorem Msg.Framed.block_eq {m : Msg} {f : Frame} (hf : m.Framed) (hraw : m.raw = f.bytes) : m.block =
    (onRecv m.kind f.recv (m.slot * WORKERS + m.worker)).block f.body := by
  obtain ⟨g, hg, hb⟩ := hf
  have hrecv : g.recv = f.recv := Frame.recv_of_bytes (hg.symm.trans hraw)
  rw [hb, hrecv, show g.body = f.body from congrArg Recv.buf hrecv]

theorem Frame.recv_fits (f : Frame) (kind : ConduitKind) (id : Int) :
    (onRecv kind f.recv id).Fits f.body := by
  refine onRecv_fits kind id rfl ?_
  have := f.body_le
  simp only [Frame.recv]
  omega

/-- The call made for a message is the one that the conduit meant by its header. -/
theorem Msg.Framed.processMsg {m : Msg} {f : Frame} (hf : m.Framed) (hraw : m.raw = f.bytes) :
    m.block.processMsg =
      some ((onRecv m.kind f.recv (m.slot * WORKERS + m.worker)).call f.body) := by
  rw [hf.block_eq hraw, processMsg_block (f.recv_fits m.kind _)]

theorem Frame.proxyHdr {f : Frame} (htarget : 0 < f.target.toNat)
    (hsource : f.source.toNat >>> 8 ≠ 0xFF) (id : Int) : onRecv .gameClient f.recv id =
    .proxy (.ofIds f.cmd PROXY_MSGTYPE (UInt32.ofNat f.body.length) id
      f.target.toNat f.source.toNat) := by
  rw [onRecv, GameClient.onRecv, if_pos ⟨htarget, hsource⟩]
  simp only [Frame.recv, ofInt_toNat]

namespace Server

variable {s : Server} {m : Msg} {f : Frame}

theorem relays_of_frame (hf : m.Framed) (hraw : m.raw = f.bytes) (hkind : m.kind = .gameClient)
    (hp : f.ForProxy) : Relays f.target m f.cmd f.body f.source := by
  have hcall := hf.processMsg hraw
  have hblen := (f.recv_fits .gameClient (m.slot * WORKERS + m.worker)).bodyLen
  rw [hkind, Frame.proxyHdr hp.target hp.source] at hcall
  rw [Frame.proxyHdr hp.target hp.source] at hblen
  refine ⟨hp.cmd, _, _, _, _, _, _, hcall, hblen, ?_, ?_⟩
  · exact (SPLIT_ID_ofNat _).trans UInt16.ofNat_toNat
  · exact (SPLIT_ID_ofNat _).trans UInt16.ofNat_toNat

theorem relay_frame (h : s.Inv) (hm : m ∈ s.arrived) (hraw : m.raw = f.bytes)
    (hkind : m.kind = .gameClient) (hp : f.ForProxy) (hlen : f.bytes.length < 65536)
    {k : Fin WORKERS} {c : TcpConduit} (hlink : s.resolve (s.link f.target) = some (k, c))
    {r : Server} (hr : r = { s with draining := r.draining, handled := r.handled }) :
    (r.callLogic m).writes = s.writes ++ [⟨k, c.serial, f.bytes, some m.num⟩] := by
  have hw := relay_writes (relays_of_frame (h.origin m hm).framed hraw hkind hp) r
  have hres : r.resolve (r.link f.target) = s.resolve (s.link f.target) := by
    rw [hr]
    unfold resolve findConn link
    split_ifs <;> rfl
  have hwrites : r.writes = s.writes := by rw [hr]
  have hsize : f.bytes.length = 10 + f.body.length := length_frameBytes _ _ _ _
  have htake : (frameBytes f.cmd f.target f.source f.body).take f.bytes.length = f.bytes :=
    List.take_length
  rw [hw, hres, hlink, hwrites, Nat.mod_eq_of_lt (by omega), ← hsize, htake]
  rfl

end Server

theorem relay_transparent (cfg : ServerCommonConfig) (es : List ServerEvent) {s : Server}
    (hs : Transition.run step es (start cfg) = some s) :
    (∀ k n, s.received k n = s.consumed k n ++ s.input k n) ∧
    s.arrived = s.handled ++ s.draining ++ s.msgQueue ∧
    s.arrived.map Msg.num = List.range s.arrived.length ∧
    (s.writes.filterMap Write.cause).Pairwise (· < ·) ∧
    ∀ m rest, s.draining = m :: rest → ∀ f : Frame, m.raw = f.bytes → m.kind = .gameClient →
      f.ForProxy → f.bytes.length < 65536 →
      ∀ id k c, s.linkedServer[f.target.toUInt32]? = some id → s.resolve id = some (k, c) →
        ∃ t, step .processMsg s = some t ∧ t.handled = s.handled ++ [m] ∧
          t.writes = s.writes ++ [⟨k, c.serial, f.bytes, some m.num⟩] := by
  have h := inv_run cfg hs
  refine ⟨h.streams, h.queue, h.num, h.causes, ?_⟩
  intro m rest hd f hraw hkind hp hlen id k c hid hc
  have hmem : m ∈ s.arrived := by
    rw [h.queue, hd]
    simp
  have hlink : s.resolve (s.link f.target) = some (k, c) := by
    rw [link, hid]
    exact hc
  refine ⟨callLogic m { s with draining := rest, handled := s.handled ++ [m] }, ?_, ?_, ?_⟩
  · simp only [step, processMsg, hd]
  · rw [callLogic_rest]
  · exact relay_frame h hmem hraw hkind hp hlen hlink rfl

theorem relay_transparent_registered : ∃ s t, Transition.run step
      [.worker 0 (.accepted 5), .worker 0 .takeOps, .worker 0 (.exec ⟨-1, false, false, false⟩),
        .receive 0 0 (frameBytes 1 0x0501 0x0102 []), .readRound 0 0, .getMsgQueue, .processMsg,
        .receive 0 0 (frameBytes 7 0x0102 0x0103 [9]), .readRound 0 0, .getMsgQueue]
      (start (.ofType 5 1 8000)) = some s ∧ step .processMsg s = some t ∧
      t.writes = s.writes ++ [⟨0, 0, frameBytes 7 0x0102 0x0103 [9], some 1⟩] := by
  obtain ⟨s, hs, hm, hid, hc⟩ := Transition.exists_run step
    [.worker 0 (.accepted 5), .worker 0 .takeOps, .worker 0 (.exec ⟨-1, false, false, false⟩),
      .receive 0 0 (frameBytes 1 0x0501 0x0102 []), .readRound 0 0, .getMsgQueue, .processMsg,
      .receive 0 0 (frameBytes 7 0x0102 0x0103 [9]), .readRound 0 0, .getMsgQueue]
    (start (.ofType 5 1 8000))
    (fun s => s.draining.map (fun m => (m.raw, m.kind, m.num)) =
        [(frameBytes 7 0x0102 0x0103 [9], .gameClient, 1)] ∧
      s.linkedServer[(0x0102 : UInt16).toUInt32]? = some 0 ∧
      s.resolve 0 = some (0, ⟨.gameClient, 5, 0, 0⟩)) (by decide)
  obtain ⟨m, hd, hm⟩ := List.map_eq_singleton_iff.mp hm
  obtain ⟨hraw, hm⟩ := Prod.mk.inj hm
  obtain ⟨hkind, hnum⟩ := Prod.mk.inj hm
  obtain ⟨_, _, _, _, hrelay⟩ := relay_transparent (.ofType 5 1 8000) _ hs
  obtain ⟨t, ht, _, hw⟩ := hrelay m [] hd ⟨7, 0x0102, 0x0103, [9], by decide, by decide⟩ hraw hkind
    ⟨by decide, by decide, by decide⟩ (by decide) 0 0 ⟨.gameClient, 5, 0, 0⟩ hid hc
  rw [hnum] at hw
  exact ⟨s, t, hs, ht, hw⟩

end RgcFifa
