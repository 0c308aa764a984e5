import RgcFifa.ServerInv

/-! What a session id denotes once the message that carries it has been dequeued. The id
names a slot. It reaches the conduit that received the message as long as that conduit
is connected, and afterwards whichever conduit was accepted into the slot later. -/

namespace RgcFifa

open Server

namespace Server

theorem answer_writes {s : Server} (h : s.Inv) {m : Msg} (ho : s.Origin m) (buffer : List UInt8)
    (size : UInt16) (cause : Option ℕ) :
    (s.sendMsgToClient m.block.hdr.sessionID buffer size cause).writes = s.writes ++
      ((s.slot m.worker m.slot).map fun c =>
        ⟨m.worker, c.serial, buffer.take size.toNat, cause⟩).toList := by
  rw [sendMsgToClient_writes, ho.sessionID, resolve_uid h, Option.map_map]
  rfl

theorem Inv.handled_origin {s : Server} (h : s.Inv) {m : Msg} (hm : m ∈ s.handled) : s.Origin m := by
  apply h.origin
  rw [h.queue]
  exact List.mem_append_left _ (List.mem_append_left _ hm)

end Server

theorem answer_stays_in_slot (cfg : ServerCommonConfig) (es : List ServerEvent) {s : Server}
    (hs : Transition.run step es (start cfg) = some s) {m : Msg} (hm : m ∈ s.handled)
    (buffer : List UInt8) (size : UInt16) (cause : Option ℕ) :
    (∀ i c, s.slot m.worker i = some c → c.serial = m.serial →
      (s.sendMsgToClient m.block.hdr.sessionID buffer size cause).writes =
        s.writes ++ [⟨m.worker, m.serial, buffer.take size.toNat, cause⟩]) ∧
    ((s.sendMsgToClient m.block.hdr.sessionID buffer size cause).writes = s.writes ∨
      ∃ c, s.slot m.worker m.slot = some c ∧ (c.serial = m.serial ∨ m.built ≤ c.serial) ∧
        (s.sendMsgToClient m.block.hdr.sessionID buffer size cause).writes =
          s.writes ++ [⟨m.worker, c.serial, buffer.take size.toNat, cause⟩]) := by
  have h := inv_run cfg hs
  have ho := h.handled_origin hm
  have hw := answer_writes h ho buffer size cause
  constructor
  · intro i c hc he
    have hi := ho.stays i c hc he
    rw [hi] at hc
    rw [hw, show s.slot m.worker m.slot = some c from hc, ← he]
    rfl
  · cases hc : s.slot m.worker m.slot with
    | none =>
      rw [hc] at hw
      exact .inl (hw.trans (List.append_nil _))
    | some c =>
      rw [hc] at hw
      exact .inr ⟨c, rfl, ho.occupant c hc, hw⟩

theorem answer_reaches_receiver : ∃ s m, Transition.run step
      [.worker 0 (.accepted 5), .worker 0 .takeOps, .worker 0 (.exec ⟨-1, false, false, false⟩),
        .receive 0 0 (frameBytes 7 0 0 []), .readRound 0 0, .getMsgQueue, .processMsg]
      (start (.ofType 5 1 8000)) = some s ∧ m ∈ s.handled ∧ m.serial = 0 ∧
      (s.sendMsgToClient m.block.hdr.sessionID [1, 2] 2 none).writes =
        s.writes ++ [⟨m.worker, m.serial, [1, 2], none⟩] := by
  obtain ⟨s, hs, hm, hc⟩ := Transition.exists_run step
    [.worker 0 (.accepted 5), .worker 0 .takeOps, .worker 0 (.exec ⟨-1, false, false, false⟩),
      .receive 0 0 (frameBytes 7 0 0 []), .readRound 0 0, .getMsgQueue, .processMsg]
    (start (.ofType 5 1 8000))
    (fun s => s.handled.map (fun m => (m.worker, m.serial)) = [(0, 0)] ∧
      s.slot 0 0 = some ⟨.gameClient, 5, 0, 0⟩) (by decide)
  obtain ⟨m, hhandled, hm⟩ := List.map_eq_singleton_iff.mp hm
  obtain ⟨hworker, hserial⟩ := Prod.mk.inj hm
  have hmem : m ∈ s.handled := by rw [hhandled]; exact List.mem_singleton_self m
  refine ⟨s, m, hs, hmem, hserial, ?_⟩
  refine (answer_stays_in_slot (.ofType 5 1 8000) _ hs hmem [1, 2] 2 none).1 0
    ⟨.gameClient, 5, 0, 0⟩ ?_ hserial.symm
  rw [hworker]
  exact hc

/-- A message waits in the queue while its conduit closes and the slot is filled again:
the answer goes to the new conduit. -/
theorem answer_reaches_successor : ∃ s m, Transition.run step
      [.worker 0 (.accepted 5), .worker 0 .takeOps, .worker 0 (.exec ⟨-1, false, false, false⟩),
        .receive 0 0 (frameBytes 7 0 0 []), .readRound 0 0, .worker 0 (.forceClose 0),
        .worker 0 (.accepted 6), .worker 0 .takeOps, .worker 0 (.exec ⟨-1, false, false, false⟩),
        .worker 0 (.exec ⟨-1, false, false, false⟩), .getMsgQueue, .processMsg]
      (start (.ofType 5 1 8000)) = some s ∧ m ∈ s.handled ∧ m.serial = 0 ∧
      (s.sendMsgToClient m.block.hdr.sessionID [1, 2] 2 none).writes =
        s.writes ++ [⟨m.worker, 1, [1, 2], none⟩] := by
  obtain ⟨s, hs, hm⟩ := Transition.exists_run step
    [.worker 0 (.accepted 5), .worker 0 .takeOps, .worker 0 (.exec ⟨-1, false, false, false⟩),
      .receive 0 0 (frameBytes 7 0 0 []), .readRound 0 0, .worker 0 (.forceClose 0),
      .worker 0 (.accepted 6), .worker 0 .takeOps, .worker 0 (.exec ⟨-1, false, false, false⟩),
      .worker 0 (.exec ⟨-1, false, false, false⟩), .getMsgQueue, .processMsg]
    (start (.ofType 5 1 8000))
    (fun s => ∃ m ∈ s.handled, m.serial = 0 ∧
      (s.sendMsgToClient m.block.hdr.sessionID [1, 2] 2 none).writes =
        s.writes ++ [⟨m.worker, 1, [1, 2], none⟩]) (by decide)
  obtain ⟨m, hmem, hm⟩ := hm
  exact ⟨s, m, hs, hmem, hm⟩

end RgcFifa
