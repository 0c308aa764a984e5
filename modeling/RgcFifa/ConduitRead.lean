import RgcFifa.FrameCodec

/-! `TcpConduit::on_read`: frames are reassembled from whatever pieces the stream
arrives in. The input buffer is the list of unconsumed bytes. -/

namespace RgcFifa

/-- The two conduit classes. A `ClientConn` keeps the server key `_ss`. -/
inductive ConduitKind where
  | gameClient
  | clientConn (ss : Int)
  deriving DecidableEq, Repr

def parsePacket : ConduitKind → List UInt8 → Packet
  | .gameClient => GameClient.parsePacket
  | .clientConn _ => ClientConn.parsePacket

/-- The `onRecv` calls made, the bytes left, and how often `forceClose` was called. -/
structure ReadOutcome where
  calls : List Recv
  buffer : List UInt8
  closes : ℕ
  deriving DecidableEq, Repr

/-- The loop of `on_read`, for at most `fuel` rounds. -/
def onReadLoop (kind : ConduitKind) : ℕ → List UInt8 → Option ReadOutcome
  | 0, _ => none
  | fuel + 1, buffer =>
    let p := parsePacket kind buffer
    if p.cmd < 0 then some ⟨[], buffer, 1⟩
    else if p.len ≤ 0 then some ⟨[], buffer, 0⟩
    else
      (onReadLoop kind fuel (buffer.drop p.len)).map fun r =>
        { r with calls := p.recv buffer :: r.calls }

/-- Every round but the last consumes a byte, so this many rounds are enough. -/
def onRead (kind : ConduitKind) (buffer : List UInt8) : Option ReadOutcome :=
  onReadLoop kind (buffer.length + 1) buffer

/-- Successive read events. Each finds its piece behind the bytes left over. -/
def onReads (kind : ConduitKind) : List (List UInt8) → List UInt8 → Option ReadOutcome
  | [], buffer => some ⟨[], buffer, 0⟩
  | piece :: pieces, buffer =>
    (onRead kind (buffer ++ piece)).bind fun r =>
      (onReads kind pieces r.buffer).map fun q =>
        ⟨r.calls ++ q.calls, q.buffer, r.closes + q.closes⟩

structure IsFrame (f : List UInt8) : Prop where
  header : 10 ≤ f.length
  length : f.length = 10 + ByteWords.leNat (f.take 2)

def commandOf (f : List UInt8) : ℕ := ByteWords.beNat ((f.drop 2).take 4)

def Rejected (f : List UInt8) : Prop := 2 ^ 31 ≤ commandOf f

def recvOf (f : List UInt8) : Recv where
  cmd := commandOf f
  len := f.length - 10
  buf := f.drop 10
  target := ByteWords.beNat ((f.drop 6).take 2)
  source := ByteWords.beNat ((f.drop 8).take 2)

abbrev accepted : Reassembly.Decoder UInt8 Recv := decoder fun p => 0 ≤ p.cmd

/-- A rejected frame has completely arrived at the head of the buffer. -/
def Blocked (buffer : List UInt8) : Prop := Complete buffer ∧ (headerPacket buffer).cmd < 0

instance (buffer : List UInt8) : Decidable (Blocked buffer) :=
  inferInstanceAs (Decidable (_ ∧ _))

theorem parsePacket_kind (kind : ConduitKind) (buf : List UInt8) :
    parsePacket kind buf = GameClient.parsePacket buf := by
  cases kind with
  | gameClient => rfl
  | clientConn ss => exact congrFun parsePacket_agree buf

theorem accepted_next_none {buf : List UInt8} :
    accepted.next buf = none ↔ ¬ Complete buf ∨ Blocked buf := by
  constructor
  · intro h
    by_cases hc : Complete buf
    · refine .inr ⟨hc, ?_⟩
      by_contra hneg
      have hs : accepted.next buf = some ((headerPacket buf).len, (headerPacket buf).recv buf) :=
        decoder_next.mpr ⟨hc, by simpa using hneg, rfl, rfl⟩
      exact Option.some_ne_none _ (hs.symm.trans h)
    · exact .inl hc
  · intro h
    by_contra hne
    obtain ⟨⟨n, v⟩, hs⟩ := Option.ne_none_iff_exists'.mp hne
    obtain ⟨hc, ha, _, _⟩ := decoder_next.mp hs
    have ha' : 0 ≤ (headerPacket buf).cmd := by simpa using ha
    rcases h with h | h
    · exact h hc
    · exact absurd h.2 (by omega)

theorem onReadLoop_succ (kind : ConduitKind) (fuel : ℕ) (buf : List UInt8) :
    onReadLoop kind (fuel + 1) buf =
      match accepted.next buf with
      | none => some ⟨[], buf, if Blocked buf then 1 else 0⟩
      | some (n, v) => (onReadLoop kind fuel (buf.drop n)).map fun r =>
          { r with calls := v :: r.calls } := by
  rw [onReadLoop, parsePacket_kind, parsePacket_eq]
  by_cases hc : Complete buf
  · have hpos : ¬ (headerPacket buf).len ≤ 0 := Nat.not_succ_le_zero _
    simp only [if_pos hc]
    by_cases hneg : (headerPacket buf).cmd < 0
    · rw [if_pos hneg, accepted_next_none.mpr (.inr ⟨hc, hneg⟩)]
      simp [Blocked, hc, hneg]
    · have hs : accepted.next buf = some ((headerPacket buf).len, (headerPacket buf).recv buf) :=
        decoder_next.mpr ⟨hc, by simpa using hneg, rfl, rfl⟩
      rw [if_neg hneg, if_neg hpos, hs]
  · rw [accepted_next_none.mpr (.inl hc)]
    simp [Blocked, hc, Packet.incomplete]

theorem onReadLoop_eq (kind : ConduitKind) (buf : List UInt8) :
    ∀ fuel, buf.length < fuel → onReadLoop kind fuel buf =
      some ⟨(accepted.drain buf).1, (accepted.drain buf).2,
        if Blocked (accepted.drain buf).2 then 1 else 0⟩ := by
  induction buf using accepted.induct with
  | hnone buf h =>
    intro fuel hfuel
    obtain ⟨fuel, rfl⟩ := Nat.exists_eq_succ_of_ne_zero (by omega : fuel ≠ 0)
    rw [onReadLoop_succ, h, Reassembly.Decoder.drain_none h]
  | hsome buf n v h ih =>
    intro fuel hfuel
    obtain ⟨fuel, rfl⟩ := Nat.exists_eq_succ_of_ne_zero (by omega : fuel ≠ 0)
    have hpos := accepted.pos h
    have hle := accepted.le h
    have hlt : (buf.drop n).length < fuel := by simp only [List.length_drop]; omega
    rw [onReadLoop_succ, h, Reassembly.Decoder.drain_some h]
    simp only [ih fuel hlt, Option.map_some]

theorem onRead_eq (kind : ConduitKind) (buf : List UInt8) :
    onRead kind buf = some ⟨(accepted.drain buf).1, (accepted.drain buf).2,
      if Blocked (accepted.drain buf).2 then 1 else 0⟩ :=
  onReadLoop_eq kind buf _ (Nat.lt_succ_self _)

theorem Blocked.append {buf : List UInt8} (h : Blocked buf) (c : List UInt8) :
    Blocked (buf ++ c) :=
  ⟨h.1.append c, by rw [headerPacket_append h.1.1]; exact h.2⟩

theorem Blocked.drain {buf : List UInt8} (h : Blocked buf) :
    accepted.drain buf = ([], buf) :=
  Reassembly.Decoder.drain_none (accepted_next_none.mpr (.inr h))

theorem onReads_eq (kind : ConduitKind) (pieces : List (List UInt8)) (buf : List UInt8) :
    ∃ r, onReads kind pieces buf = some r ∧ (r.calls, r.buffer) = accepted.feed pieces buf ∧
      (Blocked buf → Blocked r.buffer) ∧
      (¬ Blocked buf → (0 < r.closes ↔ Blocked r.buffer)) := by
  induction pieces generalizing buf with
  | nil => exact ⟨⟨[], buf, 0⟩, rfl, rfl, id, fun h => by simp [h]⟩
  | cons piece pieces ih =>
    obtain ⟨q, hq, hfeed, hstay, hclose⟩ := ih (accepted.drain (buf ++ piece)).2
    refine ⟨_, by rw [onReads, onRead_eq, Option.bind_some, hq, Option.map_some], ?_, ?_, ?_⟩
    · rw [Reassembly.Decoder.feed, ← hfeed]
    · intro h
      rw [(h.append piece).drain] at hstay
      exact hstay (h.append piece)
    · intro _
      by_cases hb : Blocked (accepted.drain (buf ++ piece)).2
      · simp [hb, hstay hb]
      · simpa [hb] using hclose hb

theorem IsFrame.complete_append {f : List UInt8} (h : IsFrame f) (rest : List UInt8) :
    Complete (f ++ rest) :=
  Complete.append ⟨h.header, by have := h.length; omega⟩ rest

theorem isFrame_take {buf : List UInt8} (h : Complete buf) :
    IsFrame (buf.take (headerPacket buf).len) := by
  have hh : headerPacket (buf.take (headerPacket buf).len) = headerPacket buf :=
    headerPacket_take (Nat.le_add_left _ _)
  have hlen : (buf.take (headerPacket buf).len).length = (headerPacket buf).len :=
    List.length_take_of_le h.2
  refine ⟨h.take.1, ?_⟩
  rw [hlen, Nat.add_comm]
  exact (congrArg Packet.len hh).symm

theorem rejected_iff {f : List UInt8} (h : IsFrame f) : Rejected f ↔ (headerPacket f).cmd < 0 :=
  (headerPacket_cmd_neg h.header).symm

theorem blocked_iff {buf : List UInt8} :
    Blocked buf ↔ ∃ f rest, buf = f ++ rest ∧ IsFrame f ∧ Rejected f := by
  constructor
  · intro h
    have hf := isFrame_take h.1
    refine ⟨_, _, (List.take_append_drop (headerPacket buf).len buf).symm, hf, ?_⟩
    have hh : headerPacket (buf.take (headerPacket buf).len) = headerPacket buf :=
      headerPacket_take (Nat.le_add_left _ _)
    rw [rejected_iff hf, hh]
    exact h.2
  · rintro ⟨f, rest, rfl, hf, hr⟩
    refine ⟨hf.complete_append rest, ?_⟩
    rw [headerPacket_append hf.header]
    exact (rejected_iff hf).mp hr

theorem accepted_item {f : List UInt8} {v : Recv} (h : accepted.next f = some (f.length, v)) :
    (IsFrame f ∧ ¬ Rejected f) ∧ v = recvOf f := by
  obtain ⟨hc, ha, hl, rfl⟩ := decoder_next.mp h
  have hf : IsFrame f := by
    have hh := isFrame_take hc
    rwa [hl, List.take_length] at hh
  have hcmd : 0 ≤ (headerPacket f).cmd := by simpa using ha
  have hr : ¬ Rejected f := by rw [rejected_iff hf]; omega
  have hlt : commandOf f < 2 ^ 31 := Nat.not_le.mp hr
  have hint : (headerPacket f).cmd = commandOf f := by
    have hn : (UInt32.ofNat (commandOf f)).toNat = commandOf f := by
      rw [UInt32.toNat_ofNat', Nat.mod_eq_of_lt (by omega)]
    rw [headerPacket, ← commandOf, uint32_toInt, hn, if_pos hlt]
  refine ⟨⟨hf, hr⟩, ?_⟩
  rw [Packet.recv, hl, List.take_length, hint]
  rfl

/-- Reassembly does not depend on how the stream is cut into read events. The calls
are the whole frames before the first rejected one; the bytes behind them stay. -/
theorem reads_segmentation (kind : ConduitKind) (pieces : List (List UInt8)) :
    ∃ (r whole : ReadOutcome) (frames : List (List UInt8)),
      onReads kind pieces [] = some r ∧ onRead kind pieces.flatten = some whole ∧
      r.calls = whole.calls ∧ r.buffer = whole.buffer ∧
      (∀ f ∈ frames, IsFrame f ∧ ¬ Rejected f) ∧
      r.calls = frames.map recvOf ∧ pieces.flatten = frames.flatten ++ r.buffer ∧
      (∀ f rest, r.buffer = f ++ rest → IsFrame f → Rejected f) ∧
      (0 < r.closes ↔ ∃ f rest, r.buffer = f ++ rest ∧ IsFrame f ∧ Rejected f) ∧
      (0 < whole.closes ↔ ∃ f rest, r.buffer = f ++ rest ∧ IsFrame f ∧ Rejected f) := by
  have hnil : accepted.next [] = none := by decide
  have hnb : ¬ Blocked [] := by decide
  obtain ⟨r, hr, hfeed, _, hclose⟩ := onReads_eq kind pieces []
  rw [Reassembly.Decoder.feed_eq_drain _ _ hnil, List.nil_append] at hfeed
  have hcalls : r.calls = (accepted.drain pieces.flatten).1 := congrArg Prod.fst hfeed
  have hbuf : r.buffer = (accepted.drain pieces.flatten).2 := congrArg Prod.snd hfeed
  obtain ⟨frames, hsplit, hitems⟩ := accepted.drain_items pieces.flatten
  obtain ⟨hframes, hmap⟩ := Reassembly.items_map (hitems.imp fun _ _ => accepted_item)
  refine ⟨r, _, frames, hr, onRead_eq kind _, hcalls, hbuf, hframes, hcalls.trans hmap, ?_, ?_,
    ?_, ?_⟩
  · rw [hbuf]; exact hsplit
  · intro f rest hrest hf
    have hnone : accepted.next r.buffer = none := by
      rw [hbuf]; exact Reassembly.Decoder.next_drain _
    have hb : Blocked r.buffer := by
      refine (accepted_next_none.mp hnone).resolve_left (fun hc => hc ?_)
      rw [hrest]; exact hf.complete_append rest
    rw [rejected_iff hf, ← headerPacket_append hf.header rest, ← hrest]
    exact hb.2
  · rw [hclose hnb, blocked_iff]
  · rw [hbuf, ← blocked_iff]
    split_ifs with hb <;> simp [hb]

end RgcFifa
