import RgcFifa.RelayTransparency
import RgcFifa.SessionIds

/-! Which frames change the session of a linked server. The entry of a server id follows
the latest registration for that id, whichever session sends it, and nothing else. -/

namespace RgcFifa

open Server

/-- A frame in which a game client calls itself the server `key`. -/
structure Frame.Registers (f : Frame) (key : UInt16) : Prop where
  target : 0 < f.target.toNat
  notClient : f.source.toNat >>> 8 ≠ 0xFF
  cmd : f.cmd = 0x01
  source : f.source = key

theorem registers_frame_iff {m : Msg} {f : Frame} (hf : m.Framed) (hraw : m.raw = f.bytes)
    (key : UInt16) : m.registers key = true ↔ m.kind = .gameClient ∧ f.Registers key := by
  have hcall := hf.processMsg hraw
  have hsource : SPLIT_ID (UInt8.ofNat (f.source.toNat >>> 8)) (UInt8.ofNat f.source.toNat) =
      f.source := (SPLIT_ID_ofNat _).trans UInt16.ofNat_toNat
  cases hk : m.kind with
  | clientConn ss =>
    rw [hk] at hcall
    simp [Msg.registers, hcall, onRecv, ClientConn.onRecv, MsgHdrType.call, ProxyMsgHdr.ofIds,
      SERVER_MSGTYPE, PROXY_MSGTYPE]
  | gameClient =>
    rw [hk] at hcall
    by_cases hp : 0 < f.target.toNat ∧ f.source.toNat >>> 8 ≠ 0xFF
    · rw [Frame.proxyHdr hp.1 hp.2] at hcall
      have hreg : m.registers key = true ↔ f.cmd = 0x01 ∧ f.source = key := by
        simp only [Msg.registers, hcall, MsgHdrType.call, ProxyMsgHdr.ofIds, hsource, if_true,
          decide_eq_true_eq]
      rw [hreg]
      exact ⟨fun h => ⟨rfl, hp.1, hp.2, h.1, h.2⟩, fun h => ⟨h.2.cmd, h.2.source⟩⟩
    · have hclient : (onRecv .gameClient f.recv (m.slot * WORKERS + m.worker)) =
          .client ⟨⟨CLIENT_MSGTYPE, UInt32.ofInt f.recv.cmd, UInt32.ofNat f.recv.len,
            m.slot * WORKERS + m.worker⟩⟩ := by
        rw [onRecv, GameClient.onRecv]
        exact if_neg hp
      rw [hclient] at hcall
      simp only [Msg.registers, hcall, MsgHdrType.call]
      refine iff_of_false Bool.false_ne_true ?_
      rintro ⟨_, h⟩
      exact hp ⟨h.target, h.notClient⟩

namespace Server

variable {s t : Server} {key : UInt16} {r : Msg}

theorem handled_step {e : ServerEvent} (h : step e s = some t) : s.handled <+: t.handled := by
  cases step_cases h with
  | worker k e w _ hrest => rw [hrest]; exact List.prefix_rfl
  | input _ hrest => rw [hrest]
  | push m c _ _ _ _ _ _ hrest => rw [hrest]
  | swap _ hrest => rw [hrest]
  | send id buf size hcall => rw [hcall, sendMsgToClient_rest]
  | logic m rest _ hcall =>
    rw [hcall, callLogic_rest]
    exact List.prefix_append _ _

theorem handled_run {es : List ServerEvent} (h : Transition.run step es s = some t) :
    s.handled <+: t.handled := by
  have hstep (e : ServerEvent) (u v : Server) (hu : s.handled <+: u.handled)
      (hv : step e u = some v) : s.handled <+: v.handled := hu.trans (handled_step hv)
  exact Transition.run_preserves hstep List.prefix_rfl h

theorem registrant_of_prefix (hr : s.registrant key = some r) (hp : s.handled <+: t.handled) :
    t.registrant key = some r ∨
      ∃ m ∈ t.handled.drop s.handled.length, m.registers key ∧ t.registrant key = some m := by
  obtain ⟨new, hnew⟩ := hp
  have hdrop : t.handled.drop s.handled.length = new := by rw [← hnew, List.drop_left]
  rw [hdrop]
  simp only [registrant, ← hnew, List.filter_append, List.getLast?_append] at hr ⊢
  cases hlast : (new.filter (·.registers key)).getLast? with
  | none => exact .inl hr
  | some m =>
    obtain ⟨hm, hreg⟩ := List.mem_filter.mp (List.mem_of_getLast? hlast)
    exact .inr ⟨m, hm, hreg, rfl⟩

/-- Messages of one connected conduit carry one session id. -/
theorem sessionID_of_conduit {m : Msg} (hm : t.Origin m) (hr : t.Origin r)
    (hworker : m.worker = r.worker) (hserial : m.serial = r.serial) {c : TcpConduit}
    (hc : t.slot r.worker r.slot = some c) (he : c.serial = r.serial) :
    m.block.hdr.sessionID = r.block.hdr.sessionID := by
  rw [← hworker] at hc
  have hslot := hm.stays r.slot c hc (he.trans hserial.symm)
  rw [hm.sessionID, hr.sessionID, hworker, hslot]

end Server

/-- While the session that registered as `key` is connected, only a registration for `key`
on another session takes the entry away from it, and relayed frames go to its conduit. -/
theorem linked_server_kept (cfg : ServerCommonConfig) (es es' : List ServerEvent) {s t : Server}
    (hs : Transition.run step es (start cfg) = some s) (ht : Transition.run step es' s = some t)
    {key : UInt16} {r : Msg} (hr : s.registrant key = some r) {c : TcpConduit}
    (hc : t.slot r.worker r.slot = some c) (hserial : c.serial = r.serial)
    (hother : ∀ m ∈ t.handled.drop s.handled.length,
      ¬ (m.worker = r.worker ∧ m.serial = r.serial) →
        ¬ ∃ f : Frame, m.raw = f.bytes ∧ m.kind = .gameClient ∧ f.Registers key) :
    s.link key = r.block.hdr.sessionID ∧ t.link key = s.link key ∧
    ∀ m rest, t.draining = m :: rest → ∀ f : Frame, m.raw = f.bytes → m.kind = .gameClient →
      f.ForProxy → f.target = key → ∃ u, step .processMsg t = some u ∧ u.writes = t.writes ++
        [⟨r.worker, r.serial, f.bytes.take ((10 + f.body.length) % 65536), some m.num⟩] := by
  have hrun := Transition.run_append hs ht
  have h := inv_run cfg hrun
  have hl := linked_run cfg hrun
  have hpre := handled_run ht
  have hrmem : r ∈ t.handled := hpre.subset (List.mem_of_mem_filter (List.mem_of_getLast? hr))
  have horigin (m : Msg) (hm : m ∈ t.handled) : t.Origin m := h.handled_origin hm
  have hor := horigin r hrmem
  have hs_link : s.link key = r.block.hdr.sessionID := by
    rw [linked_run cfg hs key, hr]
    rfl
  have ht_link : t.link key = r.block.hdr.sessionID := by
    rw [hl key]
    rcases registrant_of_prefix hr hpre with hreg | ⟨m, hm, hmreg, hreg⟩
    · rw [hreg]
      rfl
    · have hom := horigin m (List.mem_of_mem_drop hm)
      obtain ⟨f, hraw, _⟩ := hom.framed
      have hf := (registers_frame_iff hom.framed hraw key).mp hmreg
      have hsame : m.worker = r.worker ∧ m.serial = r.serial := by
        by_contra hne
        exact hother m hm hne ⟨f, hraw, hf⟩
      rw [hreg]
      exact sessionID_of_conduit hom hor hsame.1 hsame.2 hc hserial
  refine ⟨hs_link, ht_link.trans hs_link.symm, ?_⟩
  intro m rest hd f hraw hkind hp htarget
  have hm : m ∈ t.arrived := by
    rw [h.queue, hd]
    simp
  have hres : t.resolve (t.link key) = some (r.worker, c) := by
    rw [ht_link, hor.sessionID, resolve_uid h, hc]
    rfl
  have hw := relay_writes (relays_of_frame (h.origin m hm).framed hraw hkind hp)
    { t with draining := rest, handled := t.handled ++ [m] }
  have hres' : resolve (link f.target { t with draining := rest, handled := t.handled ++ [m] })
      { t with draining := rest, handled := t.handled ++ [m] } = some (r.worker, c) := by
    rw [← hres, ← htarget]
    unfold resolve findConn link
    split_ifs <;> rfl
  rw [hres'] at hw
  refine ⟨callLogic m { t with draining := rest, handled := t.handled ++ [m] }, ?_, ?_⟩
  · simp only [step, processMsg, hd]
  · rw [← hserial]
    exact hw

/-- A server registers, another one registers under an id of its own, and a third session
sends a frame to the first. -/
theorem linked_server_kept_beside : ∃ (s t : Server) (r : Msg), Transition.run step
      [.worker 0 (.accepted 5), .worker 1 (.accepted 6), .worker 0 .takeOps, .worker 1 .takeOps,
        .worker 0 (.exec ⟨-1, false, false, false⟩), .worker 1 (.exec ⟨-1, false, false, false⟩),
        .receive 0 0 (frameBytes 1 0x0501 0x0102 []), .readRound 0 0, .getMsgQueue, .processMsg]
      (start (.ofType 5 1 8000)) = some s ∧
    Transition.run step
      [.receive 1 0 (frameBytes 1 0x0501 0x0103 []), .readRound 1 0, .getMsgQueue, .processMsg,
        .receive 1 0 (frameBytes 7 0x0102 0x0103 [9]), .readRound 1 0, .getMsgQueue] s = some t ∧
    t.handled.length = 2 ∧ t.link 0x0102 = r.block.hdr.sessionID ∧
    ∃ u, step .processMsg t = some u ∧
      u.writes = t.writes ++ [⟨r.worker, r.serial, frameBytes 7 0x0102 0x0103 [9], some 2⟩] := by
  obtain ⟨s, hs, hreg, ht⟩ := Transition.exists_run step
    [.worker 0 (.accepted 5), .worker 1 (.accepted 6), .worker 0 .takeOps, .worker 1 .takeOps,
      .worker 0 (.exec ⟨-1, false, false, false⟩), .worker 1 (.exec ⟨-1, false, false, false⟩),
      .receive 0 0 (frameBytes 1 0x0501 0x0102 []), .readRound 0 0, .getMsgQueue, .processMsg]
    (start (.ofType 5 1 8000))
    (fun s => (s.registrant 0x0102).map (fun r => (r.worker, r.slot, r.serial)) = some (0, 0, 0) ∧
      (Transition.run step
        [.receive 1 0 (frameBytes 1 0x0501 0x0103 []), .readRound 1 0, .getMsgQueue, .processMsg,
          .receive 1 0 (frameBytes 7 0x0102 0x0103 [9]), .readRound 1 0, .getMsgQueue] s).any
        fun t => decide (t.slot 0 0 = some ⟨.gameClient, 5, 0, 0⟩ ∧ t.handled.length = 2 ∧
          (∀ m ∈ t.handled.drop s.handled.length, m.registers 0x0102 = false) ∧
          t.draining.map (fun m => (m.raw, m.kind, m.num)) =
            [(frameBytes 7 0x0102 0x0103 [9], .gameClient, 2)])) (by decide)
  obtain ⟨r, hr, hat⟩ := Option.map_eq_some_iff.mp hreg
  obtain ⟨hworker, hat⟩ := Prod.mk.inj hat
  obtain ⟨hslot, hserial⟩ := Prod.mk.inj hat
  obtain ⟨t, ht, hend⟩ := (Option.any_eq_true _ _).mp ht
  obtain ⟨hc, hlen, hnone, hm⟩ := of_decide_eq_true hend
  obtain ⟨m, hd, hm⟩ := List.map_eq_singleton_iff.mp hm
  obtain ⟨hraw, hm⟩ := Prod.mk.inj hm
  obtain ⟨hkind, hnum⟩ := Prod.mk.inj hm
  have hother : ∀ m ∈ t.handled.drop s.handled.length,
      ¬ (m.worker = r.worker ∧ m.serial = r.serial) →
        ¬ ∃ f : Frame, m.raw = f.bytes ∧ m.kind = .gameClient ∧ f.Registers 0x0102 := by
    rintro m hm - ⟨f, hf, hfreg⟩
    have h := inv_run (.ofType 5 1 8000) (Transition.run_append hs ht)
    have ho := h.handled_origin (List.mem_of_mem_drop hm)
    exact absurd ((registers_frame_iff ho.framed hf _).mpr hfreg) (by simp [hnone m hm])
  obtain ⟨hlink, hkept, hrelay⟩ := linked_server_kept (.ofType 5 1 8000) _ _ hs ht hr
    (by rw [hworker, hslot]; exact hc) hserial.symm hother
  obtain ⟨u, hu, hw⟩ := hrelay m [] hd ⟨7, 0x0102, 0x0103, [9], by decide, by decide⟩ hraw hkind
    ⟨by decide, by decide, by decide⟩ rfl
  rw [hnum] at hw
  exact ⟨s, t, r, hs, ht, hlen, hkept.trans hlink, u, hu, hw⟩

/-- A second session registers under the same id while the first is connected. -/
theorem linked_server_taken : ∃ (s t : Server) (r m : Msg), Transition.run step
      [.worker 0 (.accepted 5), .worker 1 (.accepted 6), .worker 0 .takeOps, .worker 1 .takeOps,
        .worker 0 (.exec ⟨-1, false, false, false⟩), .worker 1 (.exec ⟨-1, false, false, false⟩),
        .receive 0 0 (frameBytes 1 0x0501 0x0102 []), .readRound 0 0, .getMsgQueue, .processMsg,
        .receive 1 0 (frameBytes 1 0x0501 0x0102 []), .readRound 1 0, .getMsgQueue]
      (start (.ofType 5 1 8000)) = some s ∧ step .processMsg s = some t ∧
    s.registrant 0x0102 = some r ∧ t.handled = s.handled ++ [m] ∧ m.worker ≠ r.worker ∧
    t.slot r.worker r.slot = some ⟨.gameClient, 5, 0, r.serial⟩ ∧
    s.linkedServer[(0x0102 : UInt16).toUInt32]? = some 0 ∧
    t.linkedServer[(0x0102 : UInt16).toUInt32]? = some 1 := by
  obtain ⟨s, hs, hreg, ht⟩ := Transition.exists_run step
    [.worker 0 (.accepted 5), .worker 1 (.accepted 6), .worker 0 .takeOps, .worker 1 .takeOps,
      .worker 0 (.exec ⟨-1, false, false, false⟩), .worker 1 (.exec ⟨-1, false, false, false⟩),
      .receive 0 0 (frameBytes 1 0x0501 0x0102 []), .readRound 0 0, .getMsgQueue, .processMsg,
      .receive 1 0 (frameBytes 1 0x0501 0x0102 []), .readRound 1 0, .getMsgQueue]
    (start (.ofType 5 1 8000))
    (fun s => (s.registrant 0x0102).map (fun r => (r.worker, r.slot, r.serial)) = some (0, 0, 0) ∧
      s.linkedServer[(0x0102 : UInt16).toUInt32]? = some 0 ∧ (step .processMsg s).any fun t =>
        decide ((∃ m ∈ s.draining, t.handled = s.handled ++ [m] ∧ m.worker = 1) ∧
          t.slot 0 0 = some ⟨.gameClient, 5, 0, 0⟩ ∧
          t.linkedServer[(0x0102 : UInt16).toUInt32]? = some 1)) (by decide)
  obtain ⟨hold, ht⟩ := ht
  obtain ⟨r, hr, hat⟩ := Option.map_eq_some_iff.mp hreg
  obtain ⟨hworker, hat⟩ := Prod.mk.inj hat
  obtain ⟨hslot, hserial⟩ := Prod.mk.inj hat
  obtain ⟨t, ht, hend⟩ := (Option.any_eq_true _ _).mp ht
  obtain ⟨⟨m, _, hm, hmw⟩, hc, hnew⟩ := of_decide_eq_true hend
  refine ⟨s, t, r, m, hs, ht, hr, hm, ?_, ?_, hold, hnew⟩
  · rw [hmw, hworker]
    exact Fin.ne_of_val_ne Nat.one_ne_zero
  · rw [hworker, hslot, hserial]
    exact hc

end RgcFifa
