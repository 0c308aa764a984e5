import RgcFifa.ServerInv

/-! Where the proxy sends a relayed frame. The route is the session id of the latest
registration, kept after that session is gone, and session zero where nobody registered. -/

namespace RgcFifa

def Msg.registers (key : UInt16) (m : Msg) : Bool :=
  match m.block.processMsg with
  | some (.processProxyLogic cmd_id _ _ _ _ source_type source_id _) =>
      cmd_id = 0x01 ∧ SPLIT_ID source_type source_id = key
  | _ => false

namespace Server

def registrant (key : UInt16) (s : Server) : Option Msg :=
  (s.handled.filter (·.registers key)).getLast?

def link (key : UInt16) (s : Server) : Int := (s.linkedServer[key.toUInt32]?).getD 0

def Linked (s : Server) : Prop :=
  ∀ key, s.link key = ((s.registrant key).map (·.block.hdr.sessionID)).getD 0

/-- What the logic thread writes between two states goes to the connected conduit that
registered `key` last. -/
def Routed (key : UInt16) (s t : Server) : Prop :=
  ∀ w ∈ t.writes.drop s.writes.length, ∃ r c, s.registrant key = some r ∧
    s.slot r.worker r.slot = some c ∧ c.serial = r.serial ∧ w.worker = r.worker ∧
      w.serial = r.serial

/-- The slot of the registered session has not been filled since the registration came
in; where nobody has registered, slot zero of the first worker is empty. -/
def RouteFresh (key : UInt16) (s : Server) : Prop :=
  (s.registrant key = none → s.slot 0 0 = none) ∧
    ∀ r ∈ s.registrant key, ∀ c ∈ s.slot r.worker r.slot, c.serial < r.built

instance (key : UInt16) (s : Server) : Decidable (RouteFresh key s) :=
  inferInstanceAs (Decidable ((s.registrant key = none → s.slot 0 0 = none) ∧
    ∀ r ∈ s.registrant key, ∀ c ∈ s.slot r.worker r.slot, c.serial < r.built))

variable {s t : Server} {m : Msg}

theorem processMsg_sessionID {b : MsgBlock} {cmd_id len : UInt32} {body : List UInt8}
    {target_type target_id source_type source_id : UInt8} {sessionID : Int}
    (h : b.processMsg = some (.processProxyLogic cmd_id body len target_type target_id source_type
      source_id sessionID)) : sessionID = b.hdr.sessionID := by
  unfold MsgBlock.processMsg at h
  split_ifs at h <;>
    simp only [Option.some.injEq, LogicCall.processProxyLogic.injEq, reduceCtorEq] at h
  exact h.2.2.2.2.2.2.2.symm

theorem link_insert (key key' : UInt16) (v : Int) (s : Server) :
    link key { s with linkedServer := s.linkedServer.insert key'.toUInt32 v } =
      if key' = key then v else s.link key := by
  simp only [link, Std.ExtTreeMap.getElem?_insert]
  by_cases hk : key' = key
  · simp [hk]
  · have hk' : ¬ key'.toUInt32 = key.toUInt32 := fun he => hk (UInt16.toUInt32_inj.mp he)
    simp [hk, hk']

theorem linkedServerAt_fst (key : UInt16) (s : Server) :
    (s.linkedServerAt key.toUInt32).1 = s.link key := by
  unfold linkedServerAt link
  split
  · next v hv => rw [hv]; rfl
  · next hv => rw [hv]; rfl

theorem link_linkedServerAt (key key' : UInt16) (s : Server) :
    link key (s.linkedServerAt key'.toUInt32).2 = s.link key := by
  unfold linkedServerAt
  split
  · rfl
  · next hv =>
    rw [link_insert]
    split_ifs with hk
    · rw [← hk, link, hv]
      rfl
    · rfl

theorem link_sendMsgToClient (key : UInt16) (id : Int) (buf : List UInt8) (size : UInt16)
    (cause : Option ℕ) (s : Server) : (s.sendMsgToClient id buf size cause).link key = s.link key := by
  rw [sendMsgToClient_rest]
  rfl

theorem link_callLogic (key : UInt16) (m : Msg) (s : Server) : (s.callLogic m).link key =
    if m.registers key then m.block.hdr.sessionID else s.link key := by
  cases hm : m.block.processMsg with
  | none => simp [callLogic, Msg.registers, hm]
  | some call =>
    cases call with
    | processLogic cmd_id body len sess => simp [callLogic, Msg.registers, hm]
    | processProxyLogic cmd_id body len tt ti st si sess =>
      simp only [callLogic, Msg.registers, hm, decide_eq_true_eq]
      rw [processMsg_sessionID hm]
      unfold processProxyLogic proxyMsg2Server
      by_cases hcmd : cmd_id = 0x01
      · simp only [hcmd, if_true, link_sendMsgToClient, link_insert, true_and]
      · simp only [hcmd, if_false, link_sendMsgToClient, link_linkedServerAt, false_and]

theorem linked_start (cfg : ServerCommonConfig) : (start cfg).Linked := fun _ => rfl

theorem Linked.step (hl : s.Linked) {e : ServerEvent} (ht : step e s = some t) : t.Linked := by
  intro key
  cases step_cases ht with
  | worker k e w _ hrest => rw [hrest]; exact hl key
  | input _ hrest => rw [hrest]; exact hl key
  | push m c _ _ _ _ _ _ hrest => rw [hrest]; exact hl key
  | swap _ hrest => rw [hrest]; exact hl key
  | send id buf size hcall => rw [hcall, sendMsgToClient_rest]; exact hl key
  | logic m rest hd hcall =>
    have hreg : t.registrant key = if m.registers key then some m else s.registrant key := by
      rw [hcall, callLogic_rest]
      simp only [registrant, List.filter_append]
      split_ifs with hk <;> simp [hk]
    have hlink : t.link key = if m.registers key then m.block.hdr.sessionID else s.link key := by
      rw [hcall, link_callLogic]
      rfl
    rw [hlink, hreg]
    split_ifs
    · rfl
    · exact hl key

structure Relays (key : UInt16) (m : Msg) (cmd_id : UInt32) (body : List UInt8) (source : UInt16) :
    Prop where
  not_register : cmd_id ≠ 0x01
  call : ∃ (len : UInt32) (target_type target_id source_type source_id : UInt8) (sessionID : Int),
    m.block.processMsg = some (.processProxyLogic cmd_id body len target_type target_id source_type
      source_id sessionID) ∧ len.toNat = body.length ∧ SPLIT_ID target_type target_id = key ∧
      SPLIT_ID source_type source_id = source

theorem relay_writes {key source : UInt16} {cmd_id : UInt32} {body : List UInt8}
    (hm : Relays key m cmd_id body source) (s : Server) : (s.callLogic m).writes = s.writes ++
      ((s.resolve (s.link key)).map fun p => ⟨p.1, p.2.serial,
        (frameBytes cmd_id key source body).take ((10 + body.length) % 65536),
          some m.num⟩).toList := by
  obtain ⟨len, tt, ti, st, si, sess, hcall, hlen, rfl, rfl⟩ := hm.call
  have hresolve (id : Int) : (s.linkedServerAt (SPLIT_ID tt ti).toUInt32).2.resolve id =
      s.resolve id := by
    rw [linkedServerAt_rest]
    unfold resolve findConn
    split_ifs <;> rfl
  have hsize : (UInt16.ofNat ((Stream.ofHeader cmd_id (SPLIT_ID tt ti) (SPLIT_ID st si)).append
      body).eos.size).toNat = (10 + body.length) % 65536 := by simp
  unfold callLogic
  rw [hcall]
  simp only [processProxyLogic, if_neg hm.not_register, proxyMsg2Server]
  rw [hlen, List.take_length, sendMsgToClient_writes, hsize, linkedServerAt_fst, hresolve,
    linkedServerAt_rest]
  rfl

theorem relays_of_framed (hf : m.Framed) {cmd_id len : UInt32} {body : List UInt8}
    {target_type target_id source_type source_id : UInt8} {sessionID : Int}
    (hm : m.block.processMsg = some (.processProxyLogic cmd_id body len target_type target_id
      source_type source_id sessionID)) (hcmd : cmd_id ≠ 0x01) :
    Relays (SPLIT_ID target_type target_id) m cmd_id body (SPLIT_ID source_type source_id) := by
  refine ⟨hcmd, len, target_type, target_id, source_type, source_id, sessionID, hm, ?_, rfl, rfl⟩
  obtain ⟨f, _, hb⟩ := hf
  have hlen : f.recv.len < 2 ^ 32 := by
    have := f.body_le
    simp only [Frame.recv]
    omega
  have hfits := onRecv_fits m.kind (m.slot * WORKERS + m.worker) (rfl : f.recv.len = f.recv.buf.length)
    hlen
  rw [hb] at hm
  exact call_len hfits (Option.some.inj ((processMsg_block hfits).symm.trans hm))

theorem linked_run {es : List ServerEvent} (cfg : ServerCommonConfig)
    (h : Transition.run step es (start cfg) = some s) : s.Linked :=
  Transition.run_preserves (fun _ _ _ hl ht => hl.step ht) (linked_start cfg) h

theorem Inv.registrant_origin (h : s.Inv) {key : UInt16} {r : Msg}
    (hr : s.registrant key = some r) : s.Origin r := by
  have hm : r ∈ s.handled := List.mem_of_mem_filter (List.mem_of_getLast? hr)
  apply h.origin
  rw [h.queue]
  exact List.mem_append_left _ (List.mem_append_left _ hm)

theorem resolve_link (h : s.Inv) (hl : s.Linked) (key : UInt16) : s.resolve (s.link key) =
    match s.registrant key with
    | none => (s.slot 0 0).map (0, ·)
    | some r => (s.slot r.worker r.slot).map (r.worker, ·) := by
  rw [hl key]
  cases hr : s.registrant key with
  | none => exact resolve_uid h 0 0
  | some r =>
    have ho := h.registrant_origin hr
    simp only [Option.map_some, Option.getD_some]
    rw [ho.sessionID]
    exact resolve_uid h r.slot r.worker

theorem routed_iff (h : s.Inv) (hl : s.Linked) {key source : UInt16} {cmd_id : UInt32}
    {body : List UInt8} (hm : Relays key m cmd_id body source) {r : Server}
    (hr : r = { s with draining := r.draining, handled := r.handled }) :
    Routed key s (r.callLogic m) ↔ RouteFresh key s := by
  have hw := relay_writes hm r
  have hres : r.resolve (r.link key) = s.resolve (s.link key) := by
    rw [hr]
    unfold resolve findConn link
    split_ifs <;> rfl
  have hwrites : r.writes = s.writes := by rw [hr]
  rw [hres, resolve_link h hl, hwrites] at hw
  unfold Routed RouteFresh
  rw [hw, List.drop_left]
  cases hreg : s.registrant key with
  | none =>
    cases hc : s.slot 0 0 with
    | none => simp
    | some c => simp
  | some q =>
    have ho := h.registrant_origin hreg
    cases hc : s.slot q.worker q.slot with
    | none => simp [hc]
    | some c =>
      have hocc := ho.occupant c hc
      have hser := ho.serial
      have hiff : c.serial = q.serial ↔ c.serial < q.built := by omega
      simp [hc, hiff]

end Server

open Server

theorem relay_routed_iff (cfg : ServerCommonConfig) (es : List ServerEvent) {s : Server}
    (hs : Transition.run step es (start cfg) = some s) {m : Msg} {rest : List Msg}
    (hd : s.draining = m :: rest) {cmd_id len : UInt32} {body : List UInt8}
    {target_type target_id source_type source_id : UInt8} {sessionID : Int}
    (hm : m.block.processMsg = some (.processProxyLogic cmd_id body len target_type target_id
      source_type source_id sessionID)) (hcmd : cmd_id ≠ 0x01) :
    ∃ t, step .processMsg s = some t ∧ (Routed (SPLIT_ID target_type target_id) s t ↔
      RouteFresh (SPLIT_ID target_type target_id) s) := by
  have h := inv_run cfg hs
  have hmem : m ∈ s.arrived := by
    rw [h.queue, hd]
    simp
  have hrel := relays_of_framed (h.origin m hmem).framed hm hcmd
  refine ⟨callLogic m { s with draining := rest, handled := s.handled ++ [m] }, ?_, ?_⟩
  · simp only [step, processMsg, hd]
  · exact routed_iff h (linked_run cfg hs) hrel rfl

/-- A conduit registers and is sent a frame. -/
theorem relay_routed_registered : ∃ s t, Transition.run step
      [.worker 0 (.accepted 5), .worker 0 .takeOps, .worker 0 (.exec ⟨-1, false, false, false⟩),
        .receive 0 0 (frameBytes 1 0x0501 0x0102 []), .readRound 0 0, .getMsgQueue, .processMsg,
        .receive 0 0 (frameBytes 7 0x0102 0x0103 [9]), .readRound 0 0, .getMsgQueue]
      (start (.ofType 5 1 8000)) = some s ∧ step .processMsg s = some t ∧ Routed 0x0102 s t ∧
      t.writes.drop s.writes.length = [⟨0, 0, frameBytes 7 0x0102 0x0103 [9], some 1⟩] := by
  obtain ⟨s, hs, hm, hfresh, hw⟩ := Transition.exists_run step
    [.worker 0 (.accepted 5), .worker 0 .takeOps, .worker 0 (.exec ⟨-1, false, false, false⟩),
      .receive 0 0 (frameBytes 1 0x0501 0x0102 []), .readRound 0 0, .getMsgQueue, .processMsg,
      .receive 0 0 (frameBytes 7 0x0102 0x0103 [9]), .readRound 0 0, .getMsgQueue]
    (start (.ofType 5 1 8000))
    (fun s => s.draining.map (·.block.processMsg) = [some (.processProxyLogic 7 [9] 1 1 2 1 3 0)] ∧
      RouteFresh 0x0102 s ∧ (step .processMsg s).any fun t => t.writes.drop s.writes.length =
        [⟨0, 0, frameBytes 7 0x0102 0x0103 [9], some 1⟩]) (by decide)
  obtain ⟨m, hd, hm⟩ := List.map_eq_singleton_iff.mp hm
  obtain ⟨t, ht, hiff⟩ := relay_routed_iff (.ofType 5 1 8000) _ hs hd hm (by decide)
  rw [ht] at hw
  exact ⟨s, t, hs, ht, hiff.mpr hfresh, by simpa using hw⟩

/-- Nobody has registered the target, and the frame goes to the conduit in slot zero;
or its registrant is gone, and the frame goes to the conduit that took over the slot. -/
theorem relay_misrouted :
    (∃ s t, Transition.run step
      [.worker 0 (.accepted 5), .worker 0 .takeOps, .worker 0 (.exec ⟨-1, false, false, false⟩),
        .receive 0 0 (frameBytes 7 0x0102 0x0103 [9]), .readRound 0 0, .getMsgQueue]
      (start (.ofType 5 1 8000)) = some s ∧ step .processMsg s = some t ∧
      s.registrant 0x0102 = none ∧ ¬ Routed 0x0102 s t) ∧
    ∃ s t, Transition.run step
      [.worker 0 (.accepted 5), .worker 0 .takeOps, .worker 0 (.exec ⟨-1, false, false, false⟩),
        .receive 0 0 (frameBytes 1 0x0501 0x0102 []), .readRound 0 0, .getMsgQueue, .processMsg,
        .worker 0 (.forceClose 0), .worker 0 (.accepted 6), .worker 0 .takeOps,
        .worker 0 (.exec ⟨-1, false, false, false⟩), .worker 0 (.exec ⟨-1, false, false, false⟩),
        .receive 0 0 (frameBytes 7 0x0102 0x0103 [9]), .readRound 0 0, .getMsgQueue]
      (start (.ofType 5 1 8000)) = some s ∧ step .processMsg s = some t ∧
      (s.registrant 0x0102).map Msg.serial = some 0 ∧ ¬ Routed 0x0102 s t := by
  constructor
  · obtain ⟨s, hs, hreg, hw⟩ := Transition.exists_run step
      [.worker 0 (.accepted 5), .worker 0 .takeOps, .worker 0 (.exec ⟨-1, false, false, false⟩),
        .receive 0 0 (frameBytes 7 0x0102 0x0103 [9]), .readRound 0 0, .getMsgQueue]
      (start (.ofType 5 1 8000))
      (fun s => s.registrant 0x0102 = none ∧ (step .processMsg s).any fun t =>
        t.writes.drop s.writes.length = [⟨0, 0, frameBytes 7 0x0102 0x0103 [9], some 0⟩])
      (by decide)
    obtain ⟨t, ht, hw⟩ := (Option.any_eq_true _ _).mp hw
    refine ⟨s, t, hs, ht, hreg, fun hr => ?_⟩
    obtain ⟨r, _, hr, _⟩ := hr _ (by rw [of_decide_eq_true hw]; exact List.mem_singleton_self _)
    exact nomatch hreg.symm.trans hr
  · obtain ⟨s, hs, hreg, hw⟩ := Transition.exists_run step
      [.worker 0 (.accepted 5), .worker 0 .takeOps, .worker 0 (.exec ⟨-1, false, false, false⟩),
        .receive 0 0 (frameBytes 1 0x0501 0x0102 []), .readRound 0 0, .getMsgQueue, .processMsg,
        .worker 0 (.forceClose 0), .worker 0 (.accepted 6), .worker 0 .takeOps,
        .worker 0 (.exec ⟨-1, false, false, false⟩), .worker 0 (.exec ⟨-1, false, false, false⟩),
        .receive 0 0 (frameBytes 7 0x0102 0x0103 [9]), .readRound 0 0, .getMsgQueue]
      (start (.ofType 5 1 8000))
      (fun s => (s.registrant 0x0102).map Msg.serial = some 0 ∧ (step .processMsg s).any fun t =>
        t.writes.drop s.writes.length = [⟨0, 1, frameBytes 7 0x0102 0x0103 [9], some 1⟩])
      (by decide)
    obtain ⟨t, ht, hw⟩ := (Option.any_eq_true _ _).mp hw
    refine ⟨s, t, hs, ht, hreg, fun hr => ?_⟩
    obtain ⟨r, _, hr, _, _, _, hser⟩ :=
      hr _ (by rw [of_decide_eq_true hw]; exact List.mem_singleton_self _)
    rw [hr] at hreg
    have hzero : r.serial = 0 := Option.some.inj hreg
    exact absurd (hser.trans hzero) (by decide)

end RgcFifa
