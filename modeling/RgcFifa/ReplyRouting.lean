import RgcFifa.FrameEmission
import RgcFifa.Handshake

/-! The way back through a proxy: the source id in a frame that `SendMsg2Server` sends, as
the receiver decodes it behind the proxy, against the id that the proxy knows the sender by. -/

namespace RgcFifa

open Server

/-- The values of `static_cast<UInt16>(serverType) << 8 + static_cast<UInt16>(serverUID)`,
where the sum is the shift count. The language leaves a shift undefined that is too far or
too large. -/
def SourceId (cfg : ServerCommonConfig) (v : UInt16) : Prop :=
  8 + cfg.serverUID.toNat < 32 → cfg.serverType.toNat <<< (8 + cfg.serverUID.toNat) < 2 ^ 32 →
    v = UInt16.ofNat (cfg.serverType.toNat <<< (8 + cfg.serverUID.toNat))

/-- A server with the configuration `cfg` is registered at a proxy. -/
structure RepliesReturn (cfg : ServerCommonConfig) : Prop where
  /-- what it sends to a registered server comes out of the proxy with its id as source -/
  source : ∀ (v : UInt16) (a : Server) (sessionID : Int) (cmdid : UInt32) (buffer : List UInt8)
    (size : ℕ) (target : UInt16) (cause : Option ℕ) (w : Write), SourceId cfg v → cmdid ≠ 0x01 →
    w ∈ (a.sendMsg2Server v sessionID cmdid buffer size target cause).writes.drop a.writes.length →
    ∀ (config : ServerCommonConfig) (es : List ServerEvent) (s t : Server) (m r : Msg)
      (rest : List Msg), Transition.run step es (start config) = some s → s.draining = m :: rest →
      m.kind = .gameClient → m.raw = w.bytes → s.registrant cfg.serverId = some r →
      r.worker = m.worker → r.serial = m.serial → (s.registrant target).isSome →
      step .processMsg s = some t → ∀ x ∈ t.writes.drop s.writes.length,
        0 < (GameClient.parsePacket x.bytes).len →
          (GameClient.parsePacket x.bytes).source = cfg.serverId.toNat
  /-- and a server's frame for that source selects the session it has registered -/
  reply : ∀ (v : UInt16), SourceId cfg v → ∀ (config : ServerCommonConfig) (es : List ServerEvent)
    (s : Server) (m r : Msg) (rest : List Msg) (f : Frame),
    Transition.run step es (start config) = some s → s.draining = m :: rest →
    m.kind = .gameClient → m.raw = f.bytes → f.target = v → f.source.toNat >>> 8 ≠ 0xFF →
    f.cmd ≠ 0x01 → s.registrant cfg.serverId = some r →
    ∃ key source, Relays key m f.cmd f.body source ∧ s.link key = r.block.hdr.sessionID

theorem SourceId.shift (cfg : ServerCommonConfig) :
    SourceId cfg (UInt16.ofNat (cfg.serverType.toNat <<< (8 + cfg.serverUID.toNat))) :=
  fun _ _ => rfl

theorem SourceId.eq_serverId {cfg : ServerCommonConfig} {v : UInt16} (h : SourceId cfg v)
    (huid : cfg.serverUID = 0) : v = cfg.serverId := by
  have htype := cfg.serverType.toNat_lt
  have h0 : cfg.serverUID.toNat = 0 := by rw [huid]; rfl
  rw [SourceId, h0] at h
  rw [ServerCommonConfig.serverId, h0, Nat.add_zero]
  refine h (by omega) ?_
  rw [Nat.shiftLeft_eq]
  omega

/-- The shifted value has a zero where the uid belongs, and is never a client's id. -/
theorem sourceId_shift (cfg : ServerCommonConfig) (huid : cfg.serverUID ≠ 0) :
    let v := UInt16.ofNat (cfg.serverType.toNat <<< (8 + cfg.serverUID.toNat))
    v ≠ cfg.serverId ∧ v.toNat >>> 8 ≠ 0xFF := by
  intro v
  have hlt := cfg.serverUID.toNat_lt
  have hpos : cfg.serverUID.toNat ≠ 0 := fun he => huid (UInt8.toNat_inj.mp he)
  obtain ⟨n, hn⟩ := Nat.exists_eq_succ_of_ne_zero hpos
  have hv : v.toNat = cfg.serverType.toNat * 2 ^ n % 128 * 512 := by
    have hpow : cfg.serverType.toNat * 2 ^ (8 + cfg.serverUID.toNat) =
        cfg.serverType.toNat * 2 ^ n * 512 := by
      rw [hn, show 8 + n.succ = n + 9 by omega, pow_add]
      ring
    rw [UInt16.toNat_ofNat', Nat.shiftLeft_eq, hpow]
    omega
  refine ⟨fun he => ?_, ?_⟩
  · have hid := cfg.serverId_toNat
    rw [← he, hv] at hid
    omega
  · rw [Nat.shiftRight_eq_div_pow, hv]
    omega

namespace Server

variable {s t : Server} {m : Msg} {k : Fin WORKERS} {i : ℕ} {c : TcpConduit}

theorem Fed.idle (h : Idle k i c s) {f : Frame} (hf : Fed k i c f s t m) {u : Server}
    (hu : step .processMsg t = some u) : Idle k i c u ∧ u.handled = s.handled ++ [m] := by
  have hkept := callLogic_kept m (s := s)
    (r := { t with draining := [], handled := t.handled ++ [m] }) hf.workers k
  rw [step_processMsg hf.draining] at hu
  obtain rfl := Option.some.inj hu
  refine ⟨⟨(hkept.slot i).trans h.slot, ?_, ?_, ?_⟩, ?_⟩
  · rw [callLogic_rest]
    exact hf.input
  · rw [callLogic_rest]
    exact hf.msgQueue
  · rw [callLogic_rest]
  · rw [callLogic_rest]
    exact congrArg (· ++ [m]) hf.handled

theorem registers_register {cfg : ServerCommonConfig} {ss : UInt16} (hf : m.Framed)
    (hraw : m.raw = (registerMsg ss cfg).bytes) (hkind : m.kind = .gameClient)
    (hpos : 0 < (registerTarget ss).toNat) (htype : cfg.serverType ≠ 0xFF) :
    m.registers cfg.serverId := by
  have hcall := hf.processMsg hraw
  rw [hkind, Frame.proxyHdr (f := registerMsg ss cfg) hpos
    (ServerCommonConfig.serverId_type htype)] at hcall
  have hsplit : SPLIT_ID (UInt8.ofNat (cfg.serverId.toNat >>> 8)) (UInt8.ofNat cfg.serverId.toNat) =
      cfg.serverId := (SPLIT_ID_ofNat _).trans UInt16.ofNat_toNat
  rw [Msg.registers, hcall]
  simp only [MsgHdrType.call, ProxyMsgHdr.ofIds, if_true, registerMsg, hsplit, and_self, decide_true]

/-- A server connects, registers, and sends the frame `f`. -/
theorem exists_registered (cfg : ServerCommonConfig) (htype : cfg.serverType ≠ 0xFF) (f : Frame) :
    ∃ es s m r c, Transition.run step es (start (.ofType 1 1 8100)) = some s ∧ s.draining = [m] ∧
      m.raw = f.bytes ∧ m.kind = .gameClient ∧ s.registrant cfg.serverId = some r ∧
      r.worker = m.worker ∧ r.serial = m.serial ∧ s.slot r.worker r.slot = some c := by
  obtain ⟨s₀, h₀, hslot, hin, hrest⟩ := Transition.exists_run step
    [.worker 0 (.accepted 5), .worker 0 .takeOps, .worker 0 (.exec ⟨-1, false, false, false⟩)]
    (start (.ofType 1 1 8100)) (fun s => s.slot 0 0 = some ⟨.gameClient, 5, 0, 0⟩ ∧
      s.input 0 0 = [] ∧ s.msgQueue = [] ∧ s.draining = [] ∧ s.handled = []) (by decide)
  have hidle : Idle 0 0 ⟨.gameClient, 5, 0, 0⟩ s₀ := ⟨hslot, hin, hrest.1, hrest.2.1⟩
  obtain ⟨s₁, r, h₁, hfed⟩ := hidle.fed (registerMsg 257 cfg)
  have hstep := step_processMsg hfed.draining
  obtain ⟨hidle₂, hhandled⟩ := hfed.idle hidle hstep
  obtain ⟨s₃, m, h₃, hfed₃⟩ := hidle₂.fed f
  have hrun₁ := Transition.run_append h₀ h₁
  have hreg := registers_register (head_framed (inv_run _ hrun₁) hfed.draining) hfed.raw hfed.kind
    (by decide) htype
  have h₂ : Transition.run step [.processMsg] s₁ = some _ := Transition.run_cons.mpr ⟨_, hstep, rfl⟩
  have hrun₃ := Transition.run_append (Transition.run_append hrun₁ h₂) h₃
  refine ⟨_, s₃, m, r, ⟨.gameClient, 5, 0, 0⟩, hrun₃, hfed₃.draining, hfed₃.raw, hfed₃.kind, ?_,
    hfed.worker.trans hfed₃.worker.symm, hfed.serial.trans hfed₃.serial.symm, ?_⟩
  · rw [registrant, hfed₃.handled, hhandled, hrest.2.2]
    simp [hreg]
  · rw [hfed.worker, hfed.slot, slot, hfed₃.workers]
    exact hidle₂.slot

theorem sendMsg2Server_bytes {a : Server} {v target : UInt16} {sessionID : Int} {cmdid : UInt32}
    {buffer : List UInt8} {size : ℕ} {cause : Option ℕ} {w : Write}
    (hw : w ∈ (a.sendMsg2Server v sessionID cmdid buffer size target cause).writes.drop
      a.writes.length) :
    ∃ body, w.bytes = (frameBytes cmdid target v body).take ((10 + body.length) % 65536) := by
  rw [sendMsg2Server, putUInt16_append, sendMsgToClient_writes, List.drop_left, narrowed_buf] at hw
  cases hp : a.resolve sessionID with
  | none => simp [hp] at hw
  | some p =>
    simp only [hp, Option.map_some, Option.toList_some, List.mem_singleton] at hw
    exact ⟨_, congrArg Write.bytes hw⟩

/-- A frame cut behind its header still shows all header fields. -/
theorem header_narrowed {cmd : UInt32} {target source : UInt16} {body : List UInt8} {n : ℕ}
    (h : 10 ≤ ((frameBytes cmd target source body).take n).length) :
    headerPacket ((frameBytes cmd target source body).take n) =
      ⟨cmd.toInt32.toInt, 10, body.length % 65536 + 10, target.toNat, source.toNat⟩ := by
  rw [headerPacket_take, headerPacket_frameBytes]
  exact h.trans (List.length_take_le _ _)

theorem source_relayed {f : Frame} (hf : m.Framed) (hraw : m.raw = f.bytes)
    (hkind : m.kind = .gameClient) (hcmd : f.cmd ≠ 0x01) {r : Server} {x : Write}
    (hx : x ∈ (r.callLogic m).writes.drop r.writes.length)
    (hlen : 0 < (GameClient.parsePacket x.bytes).len) :
    (GameClient.parsePacket x.bytes).source = f.source.toNat := by
  by_cases hp : 0 < f.target.toNat ∧ f.source.toNat >>> 8 ≠ 0xFF
  · rw [relay_writes (relays_of_frame hf hraw hkind ⟨hp.1, hp.2, hcmd⟩), List.drop_left] at hx
    obtain ⟨p, _, rfl⟩ := Option.map_eq_some_iff.mp (Option.mem_toList.mp hx)
    have hc := (parsePacket_len_pos _).mp hlen
    rw [parsePacket_eq, if_pos hc, header_narrowed hc.1]
  · rw [callLogic_client hf hraw hkind hp, List.drop_length] at hx
    exact absurd hx List.not_mem_nil

theorem frame_of_narrowed {f : Frame} {cmd : UInt32} {target source : UInt16} {body : List UInt8}
    {n : ℕ} (h : f.bytes = (frameBytes cmd target source body).take n) :
    f.cmd = cmd ∧ f.target = target ∧ f.source = source := by
  have h10 : 10 ≤ ((frameBytes cmd target source body).take n).length := by
    rw [← h]
    exact f.complete.1
  have hh := header_narrowed h10
  rw [← h, Frame.bytes, headerPacket_frameBytes] at hh
  simp only [Packet.mk.injEq] at hh
  obtain ⟨hc, -, -, ht, hs⟩ := hh
  refine ⟨?_, UInt16.toNat_inj.mp ht, UInt16.toNat_inj.mp hs⟩
  rw [← ofInt_toInt f.cmd, hc, ofInt_toInt]

theorem repliesReturn_of {cfg : ServerCommonConfig} (huid : cfg.serverUID = 0)
    (hzero : cfg.serverType ≠ 0) : RepliesReturn cfg where
  source := by
    intro v a sessionID cmdid buffer size target cause w hv hcmd hw config es s t m r rest hs hd hkind
      hraw _ _ _ _ ht x hx hlen
    obtain ⟨body, hbytes⟩ := sendMsg2Server_bytes hw
    have hf := head_framed (inv_run config hs) hd
    obtain ⟨f, hfraw, -⟩ := id hf
    obtain ⟨hfc, -, hfs⟩ := frame_of_narrowed (hfraw.symm.trans (hraw.trans hbytes))
    rw [step_processMsg hd] at ht
    obtain rfl := Option.some.inj ht
    rw [← hv.eq_serverId huid, ← hfs]
    exact source_relayed (r := { s with draining := rest, handled := s.handled ++ [m] }) hf hfraw
      hkind (by rwa [hfc]) hx hlen
  reply := by
    intro v hv config es s m r rest f hs hd hkind hraw htarget hsource hcmd hr
    have hpos : 0 < cfg.serverId.toNat := by
      have hne : cfg.serverType.toNat ≠ 0 := fun he => hzero (UInt8.toNat_inj.mp he)
      rw [cfg.serverId_toNat]
      omega
    have hid : f.target = cfg.serverId := htarget.trans (hv.eq_serverId huid)
    have hrel := relays_of_frame (head_framed (inv_run config hs) hd) hraw hkind
      ⟨by rwa [hid], hsource, hcmd⟩
    refine ⟨_, _, hrel, ?_⟩
    rw [hid, linked_run config hs, hr]
    rfl

/-- A frame with a wrong source reaches the receiver with that source. -/
theorem uid_of_repliesReturn {cfg : ServerCommonConfig} (htype : cfg.serverType ≠ 0xFF)
    (h : RepliesReturn cfg) : cfg.serverUID = 0 := by
  by_contra huid
  obtain ⟨hne, hsrc⟩ := sourceId_shift cfg huid
  have hpos : 0 < cfg.serverId.toNat := by
    have hu : cfg.serverUID.toNat ≠ 0 := fun he => huid (UInt8.toNat_inj.mp he)
    rw [cfg.serverId_toNat]
    omega
  let v := UInt16.ofNat (cfg.serverType.toNat <<< (8 + cfg.serverUID.toNat))
  let f : Frame := ⟨7, cfg.serverId, v, [0, 0], by decide, by decide⟩
  obtain ⟨es, s, m, r, c, hs, hd, hraw, hkind, hreg, hworker, hserial, hslot⟩ :=
    exists_registered cfg htype f
  have hinv := inv_run _ hs
  have hf := head_framed hinv hd
  have hlink : s.resolve (s.link cfg.serverId) = some (r.worker, c) := by
    rw [resolve_link hinv (linked_run _ hs), hreg]
    simp [hslot]
  -- the sender is taken in the same state, where it has a connection to send on
  have hw : (s.sendMsg2Server v (s.link cfg.serverId) 7 [] 0 cfg.serverId none).writes =
      s.writes ++ [⟨r.worker, c.serial, f.bytes, none⟩] := by
    rw [sendMsg2Server, putUInt16_append, sendMsgToClient_writes, hlink, narrowed_buf]
    rfl
  have ht := step_processMsg hd
  have hcmd : f.cmd ≠ 0x01 := (by decide : (7 : UInt32) ≠ 0x01)
  have hrel := relay_writes (relays_of_frame hf hraw hkind ⟨hpos, hsrc, hcmd⟩)
    { s with draining := [], handled := s.handled ++ [m] }
  have hres : resolve (link cfg.serverId { s with draining := [], handled := s.handled ++ [m] })
      { s with draining := [], handled := s.handled ++ [m] } = some (r.worker, c) := by
    rw [resolve_congr (s := s)]
    · exact hlink
    · rfl
  rw [hres] at hrel
  have hsource := h.source v s (s.link cfg.serverId) 7 [] 0 cfg.serverId none
    ⟨r.worker, c.serial, f.bytes, none⟩ (SourceId.shift cfg) (by decide)
    (by rw [hw, List.drop_left]; exact List.mem_singleton_self _) _ es s _ m r [] hs hd hkind hraw
    hreg hworker hserial (by rw [hreg]; rfl) ht
    ⟨r.worker, c.serial, f.bytes, some m.num⟩
  rw [hrel, List.drop_left] at hsource
  have hc : Complete f.bytes := f.complete
  have hval := hsource (List.mem_singleton_self _) ((parsePacket_len_pos _).mpr hc)
  rw [parsePacket_eq, if_pos hc, Frame.bytes, headerPacket_frameBytes] at hval
  exact hne (UInt16.toNat_inj.mp hval)

/-- A frame for the id zero is not for the proxy. -/
theorem type_of_repliesReturn {cfg : ServerCommonConfig} (htype : cfg.serverType ≠ 0xFF)
    (h : RepliesReturn cfg) : cfg.serverType ≠ 0 := by
  intro hzero
  have hv : UInt16.ofNat (cfg.serverType.toNat <<< (8 + cfg.serverUID.toNat)) = 0 := by
    rw [hzero, UInt8.toNat_zero, Nat.zero_shiftLeft]
    rfl
  let f : Frame := ⟨7, 0, 0x0101, [], by decide, by decide⟩
  obtain ⟨es, s, m, r, c, hs, hd, hraw, hkind, hreg, -, -, -⟩ := exists_registered cfg htype f
  obtain ⟨key, source, hrel, -⟩ := h.reply 0 (hv ▸ SourceId.shift cfg) _ es s m r [] f hs hd hkind hraw
    rfl (by decide) (by decide) hreg
  obtain ⟨_, _, _, _, _, _, hcall, -⟩ := hrel.call
  have hclient := (head_framed (inv_run _ hs) hd).processMsg hraw
  rw [hkind] at hclient
  exact nomatch hcall.symm.trans hclient

end Server

/-- Replies find their way back through a proxy to the servers of uid 0 and no others. -/
theorem replies_return_iff (cfg : ServerCommonConfig) (htype : cfg.serverType ≠ 0xFF) :
    RepliesReturn cfg ↔ cfg.serverUID = 0 ∧ cfg.serverType ≠ 0 :=
  ⟨fun h => ⟨uid_of_repliesReturn htype h, type_of_repliesReturn htype h⟩,
    fun h => repliesReturn_of h.1 h.2⟩

theorem replies_return_uid_zero : RepliesReturn (.ofType 5 0 8000) :=
  (replies_return_iff (.ofType 5 0 8000) (by decide)).mpr ⟨rfl, by decide⟩

/-- Server 0x0501 sends with the source 0x0A00. -/
theorem replies_lost_uid_one : SourceId (.ofType 5 1 8000) 0x0A00 ∧
    (ServerCommonConfig.ofType 5 1 8000).serverId = 0x0501 ∧ ¬ RepliesReturn (.ofType 5 1 8000) :=
  ⟨SourceId.shift (.ofType 5 1 8000), rfl,
    fun h => absurd (uid_of_repliesReturn (by decide) h) (by decide)⟩

end RgcFifa
