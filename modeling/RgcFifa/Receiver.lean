import RgcFifa.ExactlyOnce

/-! One connection of a process together with its message bus. The network thread of the
connection reads frames and pushes a message for each, the other connections push theirs,
and the logic thread hands every message to the application. -/

namespace RgcFifa

open ByteWords

/-- A connection, and what the application gets for the block of a message: it depends on
the memory and on what the caller of the drain passes in. -/
structure Endpoint (χ δ : Type) where
  kind : ConduitKind
  id : ℤ
  int_le : -2 ^ 31 ≤ id
  int_lt : id < 2 ^ 31
  deliver : χ → Memory → ℕ → List δ

/-- `arrived` and `seen` are records: the bytes that have come in, and what the application
got for each message of the connection. -/
structure Receiver (δ : Type) where
  bus : MessageBus
  input : List UInt8
  arrived : List UInt8
  seen : List (List δ)

/-- The connection is read by thread 0, which may serve others as well. -/
inductive ReceiverEvent (χ : Type) where
  | arrive (bytes : List UInt8)
  | readRound
  | call (i : ℕ) (msg : PushMsg)
  | push (i a : ℕ)
  | logic (x : χ)

def ReceiverEvent.isLogic {χ : Type} : ReceiverEvent χ → Bool
  | .logic _ => true
  | _ => false

theorem recv_length (kind : ConduitKind) {buf : List UInt8} (h : ¬ (parsePacket kind buf).len ≤ 0) :
    ((parsePacket kind buf).recv buf).len = ((parsePacket kind buf).recv buf).buf.length ∧
      ((parsePacket kind buf).recv buf).len < 2 ^ 32 := by
  rw [parsePacket_kind] at h ⊢
  have hc := (parsePacket_len_pos buf).mp (Nat.pos_of_ne_zero fun h0 => h h0.le)
  have hle : (headerPacket buf).len ≤ buf.length := hc.2
  have hn := ByteWords.leNat_lt (buf.take 2)
  have hlen : (buf.take 2).length ≤ 2 := List.length_take_le _ _
  have hpow : 256 ^ (buf.take 2).length ≤ 256 ^ 2 := Nat.pow_le_pow_right (by omega) hlen
  rw [parsePacket_eq, if_pos hc]
  simp only [Packet.recv, List.length_drop, List.length_take, Nat.min_eq_left hle, true_and]
  simp only [headerPacket]
  omega

theorem Frame.accepted_next (f : Frame) :
    accepted.next f.bytes = some (f.bytes.length, f.recv) := by
  obtain ⟨hc, -, hlen, hrecv⟩ := decoder_next.mp f.next
  have hcmd : (headerPacket f.bytes).cmd = f.cmd.toNat := congrArg Recv.cmd hrecv
  exact decoder_next.mpr ⟨hc, by simp [hcmd], hlen, hrecv⟩

theorem drain_frames (fs : List Frame) :
    accepted.drain (fs.map Frame.bytes).flatten = (fs.map Frame.recv, []) := by
  have hf : List.Forall₂ (fun i v => accepted.next i = some (i.length, v))
      (fs.map Frame.bytes) (fs.map Frame.recv) := by
    rw [List.forall₂_map_left_iff, List.forall₂_map_right_iff]
    exact List.forall₂_same.mpr fun f _ => f.accepted_next
  have hempty : accepted.next [] = none := by decide
  have hd := Reassembly.Decoder.drain_flatten hf []
  rwa [List.append_nil, Reassembly.Decoder.drain_none hempty, List.append_nil] at hd

namespace Endpoint

variable {χ δ : Type}

def start : Receiver δ := ⟨MessageBus.Init, [], [], []⟩

/-- One round of the loop of `on_read`. A rejected header ends the connection. -/
def readRound (E : Endpoint χ δ) (s : Receiver δ) : Option (Receiver δ) :=
  let p := parsePacket E.kind s.input
  if p.cmd < 0 then some s
  else if h : p.len ≤ 0 then some s
  else
    (MessageBus.step (.call 0 (PushMsg.ofRecv E.kind (p.recv s.input) E.id (recv_length E.kind h).1
      (recv_length E.kind h).2 ⟨E.int_le, E.int_lt⟩)) s.bus).map fun bus =>
        { s with bus, input := s.input.drop p.len }

/-- What the application gets in the next step of the logic thread, if that is a dispatch
of a message of the connection. -/
def dispatch (E : Endpoint χ δ) (x : χ) (s : MessageBus) : List (List δ) :=
  match s.logic with
  | .dispatch hdr =>
      if (MsgHdr.ofBytes (s.mem.read hdr sizeofMsgHdr)).sessionID = E.id then
        [E.deliver x s.mem hdr]
      else []
  | _ => []

def step (E : Endpoint χ δ) : ReceiverEvent χ → Receiver δ → Option (Receiver δ)
  | .arrive bytes, s => some { s with input := s.input ++ bytes, arrived := s.arrived ++ bytes }
  | .readRound, s => E.readRound s
  | .call i msg, s =>
      if msg.hdr.msgHdr.sessionID = E.id then none
      else (MessageBus.step (.call i msg) s.bus).map fun bus => { s with bus }
  | .push i a, s => (MessageBus.step (.push i a) s.bus).map fun bus => { s with bus }
  | .logic x, s => (MessageBus.step .logic s.bus).map fun bus =>
      { s with bus, seen := s.seen ++ E.dispatch x s.bus }

/-- The messages of the connection, as headers with their bodies: those given to `PushMsg`,
and those put into the queue and dispatched. -/
def Mine (E : Endpoint χ δ) (msg : PushMsg) : Prop := msg.hdr.msgHdr.sessionID = E.id

instance (E : Endpoint χ δ) : DecidablePred E.Mine := fun _ => inferInstanceAs (Decidable (_ = _))

def posted (E : Endpoint χ δ) (s : MessageBus) : List PushMsg :=
  (s.called.map Prod.snd).filter E.Mine

def dispatched (E : Endpoint χ δ) (s : MessageBus) : List PushMsg :=
  ((s.inserted.take s.dispatched.length).map Inserted.msg).filter E.Mine

/-- The application got `o` for the message from a memory that held its block. -/
def Delivered (E : Endpoint χ δ) (hdr : MsgHdrType) (msgBody : List UInt8) (o : List δ) : Prop :=
  ∃ x m a n off, m.Holds a n off (hdr.toBytes ++ msgBody) ∧ o = E.deliver x m (a + off)

/-- The frames read so far were posted in order, and the rest is still in the input. -/
structure Inv (E : Endpoint χ δ) (s : Receiver δ) : Prop where
  bus : BusInv s.bus
  mine : ∀ p ∈ s.bus.called, E.Mine p.2 → p.1 = 0
  read : ∃ rs : List Recv, rs ++ (accepted.drain s.input).1 = (accepted.drain s.arrived).1 ∧
    (E.posted s.bus).map (fun msg => (msg.hdr, msg.msgBody)) =
      rs.map fun r => (onRecv E.kind r E.id, r.buf)
  rest : (accepted.drain s.input).2 = (accepted.drain s.arrived).2
  seen : List.Forall₂ (fun msg o => E.Delivered msg.hdr msg.msgBody o) (E.dispatched s.bus) s.seen

/-- The stream has been read in `s` and all of it is pushed, and the logic thread takes as
many steps on the way to `t` as it needs for the messages that wait. -/
structure Drains (E : Endpoint χ δ) (stream : List UInt8) (es : List (ReceiverEvent χ))
    (s t : Receiver δ) : Prop where
  run : Transition.run E.step es s = some t
  arrived : s.arrived = stream
  arrived_end : t.arrived = stream
  next : accepted.next s.input = none
  idle : s.bus.threads 0 = .idle
  steps : 4 * s.bus.inserted.length ≤ es.countP ReceiverEvent.isLogic

variable {E : Endpoint χ δ} {s t : Receiver δ}

theorem inv_start : E.Inv start where
  bus := busInv_start
  mine := fun _ h => absurd h List.not_mem_nil
  read := ⟨[], rfl, rfl⟩
  rest := rfl
  seen := .nil

/-- What a step of the process does to the bus and to the records. -/
inductive Stepped (E : Endpoint χ δ) (s : Receiver δ) : Receiver δ → Prop where
  | arrive (bytes : List UInt8) :
      Stepped E s { s with input := s.input ++ bytes, arrived := s.arrived ++ bytes }
  | wait : Stepped E s s
  | frame {n : ℕ} {r : Recv} {msg : PushMsg} {bus : MessageBus}
      (hnext : accepted.next s.input = some (n, r))
      (hbus : MessageBus.step (.call 0 msg) s.bus = some bus)
      (hmsg : (msg.hdr, msg.msgBody) = (onRecv E.kind r E.id, r.buf)) :
      Stepped E s { s with bus, input := s.input.drop n }
  | other {i : ℕ} {msg : PushMsg} {bus : MessageBus}
      (hbus : MessageBus.step (.call i msg) s.bus = some bus) (hmsg : ¬ E.Mine msg) :
      Stepped E s { s with bus }
  | push {i a : ℕ} {bus : MessageBus} (hbus : s.bus.pushMsg i a = some bus) :
      Stepped E s { s with bus }
  | logic {bus : MessageBus} (x : χ) (hbus : s.bus.processMsg = some bus) :
      Stepped E s { s with bus, seen := s.seen ++ E.dispatch x s.bus }

theorem readRound_stepped (h : E.readRound s = some t) : E.Stepped s t := by
  unfold readRound at h
  dsimp only at h
  split_ifs at h with hcmd hlen
  · obtain rfl := Option.some.inj h
    exact .wait
  · obtain rfl := Option.some.inj h
    exact .wait
  · obtain ⟨bus, hbus, rfl⟩ := Option.map_eq_some_iff.mp h
    have hpos : 0 < (parsePacket E.kind s.input).len := Nat.pos_of_ne_zero fun h0 => hlen h0.le
    rw [parsePacket_kind] at hcmd hpos
    have hc := (parsePacket_len_pos s.input).mp hpos
    have hp : parsePacket E.kind s.input = headerPacket s.input := by
      rw [parsePacket_kind, parsePacket_eq, if_pos hc]
    rw [parsePacket_eq, if_pos hc] at hcmd
    have hnext : accepted.next s.input =
        some ((headerPacket s.input).len, (headerPacket s.input).recv s.input) :=
      decoder_next.mpr ⟨hc, by simpa using hcmd, rfl, rfl⟩
    rw [← hp] at hnext
    exact .frame hnext hbus rfl

theorem step_stepped {e : ReceiverEvent χ} (h : E.step e s = some t) : E.Stepped s t := by
  cases e with
  | arrive bytes =>
    obtain rfl := Option.some.inj h
    exact .arrive bytes
  | readRound => exact readRound_stepped h
  | call i msg =>
    simp only [step] at h
    split_ifs at h with hmsg
    obtain ⟨bus, hbus, rfl⟩ := Option.map_eq_some_iff.mp h
    exact .other hbus hmsg
  | push i a =>
    obtain ⟨bus, hbus, rfl⟩ := Option.map_eq_some_iff.mp h
    exact .push hbus
  | logic x =>
    obtain ⟨bus, hbus, rfl⟩ := Option.map_eq_some_iff.mp h
    exact .logic x hbus

theorem filter_mine {msg : PushMsg} (h : E.Mine msg) : [msg].filter E.Mine = [msg] := by
  simp [h]

theorem filter_other {msg : PushMsg} (h : ¬ E.Mine msg) : [msg].filter E.Mine = [] := by
  simp [h]

theorem posted_call {i : ℕ} {msg : PushMsg} {bus bus' : MessageBus}
    (h : MessageBus.step (.call i msg) bus = some bus') :
    bus'.called = bus.called ++ [(i, msg)] ∧
      E.posted bus' = E.posted bus ++ [msg].filter E.Mine ∧ E.dispatched bus' = E.dispatched bus := by
  simp only [MessageBus.step] at h
  split at h
  · obtain rfl := Option.some.inj h
    refine ⟨rfl, ?_, rfl⟩
    simp only [posted, MessageBus.setThread, List.map_append, List.filter_append, List.map_cons,
      List.map_nil]
  · exact absurd h (by simp)

theorem pushMsg_called {i a : ℕ} {bus bus' : MessageBus} (h : bus.pushMsg i a = some bus') :
    bus'.called = bus.called := by
  cases pushMsg_cases h <;> rfl

theorem processMsg_called {bus bus' : MessageBus} (h : bus.processMsg = some bus') :
    bus'.called = bus.called := by
  cases processMsg_cases h <;> rfl

theorem dispatched_push {i a : ℕ} {bus bus' : MessageBus} (hI : BusInv bus)
    (h : bus.pushMsg i a = some bus') : E.dispatched bus' = E.dispatched bus := by
  obtain ⟨own, free, done, rest, ho, hl⟩ := hI.inv
  obtain ⟨-, -, hd, hin | ⟨e, hin⟩⟩ := pushMsg_logs h
  · rw [dispatched, dispatched, hd, hin]
  · have hle : bus.dispatched.length ≤ bus.inserted.length := by
      have hcalls := hl.calls_le
      rw [hl.length_inserted, hl.length_dispatched]
      omega
    rw [dispatched, dispatched, hd, hin, List.take_append_of_le_length hle]

/-- A dispatch shows the application the first message of the bus, out of its own block. -/
theorem dispatched_logic {bus bus' : MessageBus} (x : χ) (hI : BusInv bus)
    (h : bus.processMsg = some bus') :
    ∃ msgs, E.dispatched bus' = E.dispatched bus ++ msgs ∧
      List.Forall₂ (fun msg o => E.Delivered msg.hdr msg.msgBody o) msgs (E.dispatch x bus) := by
  obtain ⟨own, free, done, rest, ho, hl⟩ := hI.inv
  cases processMsg_cases h with
  | @dispatch hdr hp =>
    obtain ⟨b, rest, rfl, rfl, -⟩ := hl.current (by rw [hp]; rfl)
    have hlen : bus.dispatched.length = done.length := by
      rw [hl.length_dispatched, hp]
      rfl
    have htake : done.length + 1 = (done ++ [b]).length := by simp
    have hbefore := hl.map_take Prod.fst done.length
    have hafter := hl.map_take Prod.fst (done.length + 1)
    rw [List.take_left] at hbefore
    rw [List.append_cons done b rest, htake, List.take_left, List.map_append] at hafter
    have hfull := (Memory.holds_append.mp (ho.bus.full b List.mem_cons_self)).2
    have hhdr := (block_read b.msg.int_le b.msg.int_lt hfull).1
    rw [PushMsg.sizeWord, length_le] at hfull
    rw [PushMsg.sizeWord, length_le, ← Nat.add_assoc] at hhdr
    have hbuf : b.base + chunkOffset b.msg.size + sizeofSizeT = b.buffer := rfl
    refine ⟨[b.msg].filter E.Mine, ?_, ?_⟩
    · simp only [dispatched, List.length_append, List.length_singleton, hlen]
      rw [← List.filter_append, htake]
      exact congrArg (List.filter fun msg => decide (E.Mine msg))
        (hafter.trans (congrArg (· ++ [b.msg]) hbefore.symm))
    · simp only [dispatch, hp]
      rw [← hbuf, hhdr]
      by_cases hm : b.msg.hdr.msgHdr.sessionID = E.id
      · rw [filter_mine hm, if_pos hm]
        exact .cons ⟨x, bus.mem, _, _, _, hfull, by rw [← Nat.add_assoc]⟩ .nil
      · rw [filter_other hm, if_neg hm]
        exact .nil
  | abort habort => exact absurd rfl (hI.processMsg h).alive
  | _ hp =>
    have hnil : E.dispatch x bus = [] := by simp only [dispatch, hp]
    exact ⟨[], (List.append_nil _).symm, by rw [hnil]; exact .nil⟩

theorem Inv.arrive (h : E.Inv s) (bytes : List UInt8) :
    E.Inv { s with input := s.input ++ bytes, arrived := s.arrived ++ bytes } := by
  obtain ⟨rs, hsplit, hposted⟩ := h.read
  refine ⟨h.bus, h.mine, ⟨rs, ?_, hposted⟩, ?_, h.seen⟩
  · rw [accepted.drain_append, accepted.drain_append s.arrived, ← h.rest, ← hsplit, List.append_assoc]
  · rw [accepted.drain_append, accepted.drain_append s.arrived, ← h.rest]

theorem Inv.frame {n : ℕ} {r : Recv} {msg : PushMsg} {bus : MessageBus} (h : E.Inv s)
    (hnext : accepted.next s.input = some (n, r))
    (hbus : MessageBus.step (.call 0 msg) s.bus = some bus)
    (hmsg : (msg.hdr, msg.msgBody) = (onRecv E.kind r E.id, r.buf)) :
    E.Inv { s with bus, input := s.input.drop n } := by
  obtain ⟨rs, hsplit, hposted⟩ := h.read
  obtain ⟨hcalled, hpost, hdisp⟩ := posted_call (E := E) hbus
  have hmine : E.Mine msg := by
    rw [Mine, (Prod.mk.inj hmsg).1]
    exact onRecv_sessionID ..
  refine ⟨h.bus.step _ _ _ hbus, ?_, ⟨rs ++ [r], ?_, ?_⟩, ?_, ?_⟩
  · intro p hp
    rw [hcalled] at hp
    rcases List.mem_append.mp hp with hp | hp
    · exact h.mine p hp
    · obtain rfl := List.mem_singleton.mp hp
      exact fun _ => rfl
  · rw [Reassembly.Decoder.drain_some hnext] at hsplit
    rw [← hsplit, List.append_assoc, List.singleton_append]
  · rw [hpost, filter_mine hmine, List.map_append, List.map_append, hposted, List.map_singleton,
      List.map_singleton, hmsg]
  · rw [← h.rest, Reassembly.Decoder.drain_some hnext]
  · rw [hdisp]
    exact h.seen

theorem Inv.other {i : ℕ} {msg : PushMsg} {bus : MessageBus} (h : E.Inv s)
    (hbus : MessageBus.step (.call i msg) s.bus = some bus) (hmsg : ¬ E.Mine msg) :
    E.Inv { s with bus } := by
  obtain ⟨hcalled, hpost, hdisp⟩ := posted_call (E := E) hbus
  rw [filter_other hmsg, List.append_nil] at hpost
  refine ⟨h.bus.step _ _ _ hbus, ?_, by rw [hpost]; exact h.read, h.rest, by rw [hdisp]; exact h.seen⟩
  intro p hp
  rw [hcalled] at hp
  rcases List.mem_append.mp hp with hp | hp
  · exact h.mine p hp
  · obtain rfl := List.mem_singleton.mp hp
    exact fun hm => absurd hm hmsg

theorem Inv.stepped (h : E.Inv s) (hs : E.Stepped s t) : E.Inv t := by
  cases hs with
  | arrive bytes => exact h.arrive bytes
  | wait => exact h
  | frame hnext hbus hmsg => exact h.frame hnext hbus hmsg
  | other hbus hmsg => exact h.other hbus hmsg
  | push hbus =>
    have hcalled := pushMsg_called hbus
    refine ⟨h.bus.pushMsg hbus, by rw [hcalled]; exact h.mine, ?_, h.rest, ?_⟩
    · rw [posted, hcalled]
      exact h.read
    · rw [dispatched_push h.bus hbus]
      exact h.seen
  | logic x hbus =>
    have hcalled := processMsg_called hbus
    obtain ⟨msgs, hdisp, hseen⟩ := dispatched_logic x h.bus hbus
    refine ⟨h.bus.processMsg hbus, by rw [hcalled]; exact h.mine, ?_, h.rest, ?_⟩
    · rw [posted, hcalled]
      exact h.read
    · rw [hdisp]
      exact List.rel_append h.seen hseen

theorem inv_run {es : List (ReceiverEvent χ)} (h : Transition.run E.step es start = some s) :
    E.Inv s :=
  Transition.run_preserves (fun _ _ _ hI hs => hI.stepped (step_stepped hs)) inv_start h

theorem Inv.posted_calls (h : E.Inv s) : E.posted s.bus = (s.bus.callsOf 0).filter E.Mine := by
  simp only [posted, MessageBus.callsOf, List.filter_map, List.filter_filter]
  congr 1
  apply List.filter_congr
  intro p hp
  have hmine := h.mine p hp
  by_cases hm : E.Mine p.2
  · simp [hm, hmine hm]
  · simp [hm]

theorem Inv.inserted_thread (h : E.Inv s) {e : Inserted} (he : e ∈ s.bus.inserted)
    (hm : E.Mine e.msg) : e.thread = 0 := by
  obtain ⟨own, free, done, bus, -, hl⟩ := h.bus.inv
  have hby : e.msg ∈ s.bus.insertedBy e.thread :=
    List.mem_map_of_mem (List.mem_filter.mpr ⟨he, by simp⟩)
  have hof : e.msg ∈ s.bus.callsOf e.thread := by
    rw [hl.calls]
    exact List.mem_append_left _ hby
  obtain ⟨p, hp, hpm⟩ := List.mem_map.mp hof
  obtain ⟨hp, hthread⟩ := List.mem_filter.mp hp
  rw [← hpm] at hm
  rw [← of_decide_eq_true hthread]
  exact h.mine p hp hm

theorem Inv.posted_eq (h : E.Inv s) : E.posted s.bus =
    (s.bus.inserted.map Inserted.msg).filter E.Mine ++
      (s.bus.threads 0).msg.toList.filter E.Mine := by
  obtain ⟨own, free, done, bus, -, hl⟩ := h.bus.inv
  have hby : (s.bus.insertedBy 0).filter E.Mine =
      (s.bus.inserted.map Inserted.msg).filter E.Mine := by
    simp only [MessageBus.insertedBy, List.filter_map, List.filter_filter]
    congr 1
    apply List.filter_congr
    intro e he
    have hthread := h.inserted_thread he
    by_cases hm : E.Mine e.msg
    · simp [hm, hthread hm]
    · simp [hm]
  rw [h.posted_calls, hl.calls, List.filter_append, hby]

theorem Inv.dispatched_prefix (h : E.Inv s) : E.dispatched s.bus <+: E.posted s.bus := by
  rw [h.posted_eq]
  exact (((List.take_prefix _ _).map _).filter _).trans (List.prefix_append _ _)

/-- The application has got the first frames of the connection, in order, each from the
block that holds the message for it. -/
theorem Inv.seen_prefix (h : E.Inv s) : ∃ rs, rs <+: (accepted.drain s.arrived).1 ∧
    List.Forall₂ (fun r o => E.Delivered (onRecv E.kind r E.id) r.buf o) rs s.seen := by
  obtain ⟨rs, hsplit, hposted⟩ := h.read
  have hpre := h.dispatched_prefix.map fun msg => (msg.hdr, msg.msgBody)
  rw [hposted] at hpre
  obtain ⟨front, hfront, hmap⟩ := List.prefix_map_iff.mp hpre
  refine ⟨front, hfront.trans ⟨_, hsplit⟩, ?_⟩
  have hpairs : List.Forall₂ (fun p o => E.Delivered p.1 p.2 o)
      ((E.dispatched s.bus).map fun msg => (msg.hdr, msg.msgBody)) s.seen :=
    List.forall₂_map_left_iff.mpr h.seen
  rw [hmap] at hpairs
  exact List.forall₂_map_left_iff.mp hpairs

theorem step_bus {e : ReceiverEvent χ} (h : E.step e s = some t) :
    (t.bus = s.bus ∧ e.isLogic = false) ∨
      ∃ b : BusEvent, MessageBus.step b s.bus = some t.bus ∧ e.isLogic = b.isLogic := by
  cases e with
  | arrive bytes =>
    obtain rfl := Option.some.inj h
    exact .inl ⟨rfl, rfl⟩
  | readRound =>
    simp only [step, readRound] at h
    split_ifs at h
    · obtain rfl := Option.some.inj h
      exact .inl ⟨rfl, rfl⟩
    · obtain rfl := Option.some.inj h
      exact .inl ⟨rfl, rfl⟩
    · obtain ⟨bus, hbus, rfl⟩ := Option.map_eq_some_iff.mp h
      exact .inr ⟨_, hbus, rfl⟩
  | call i msg =>
    simp only [step] at h
    split_ifs at h
    obtain ⟨bus, hbus, rfl⟩ := Option.map_eq_some_iff.mp h
    exact .inr ⟨_, hbus, rfl⟩
  | push i a =>
    obtain ⟨bus, hbus, rfl⟩ := Option.map_eq_some_iff.mp h
    exact .inr ⟨.push i a, hbus, rfl⟩
  | logic x =>
    obtain ⟨bus, hbus, rfl⟩ := Option.map_eq_some_iff.mp h
    exact .inr ⟨.logic, hbus, rfl⟩

theorem Inv.all_freed {es : List (ReceiverEvent χ)} (h : E.Inv s)
    (hr : Transition.run E.step es s = some t)
    (hcount : 4 * s.bus.inserted.length ≤ es.countP ReceiverEvent.isLogic) :
    E.Inv t ∧ s.bus.inserted <+: t.bus.inserted ∧ s.bus.inserted.length ≤ t.bus.freed.length := by
  have hstep : ∀ (e : ReceiverEvent χ) (u v : Receiver δ),
      E.Inv u ∧ s.bus.inserted <+: u.bus.inserted → E.step e u = some v →
      (E.Inv v ∧ s.bus.inserted <+: v.bus.inserted) ∧
        v.bus.left s.bus.inserted.length ≤ u.bus.left s.bus.inserted.length ∧
        (e.isLogic → v.bus.left s.bus.inserted.length ≤ u.bus.left s.bus.inserted.length - 1) := by
    rintro e u v ⟨hu, hpre⟩ hv
    have hIv := hu.stepped (step_stepped hv)
    rcases step_bus hv with ⟨hsame, hlogic⟩ | ⟨b, hb, hlogic⟩
    · rw [hsame, hlogic]
      exact ⟨⟨hIv, hpre⟩, le_rfl, by simp⟩
    · obtain ⟨hgrow, hmono, hdown⟩ := hu.bus.step_left b hpre.length_le hb
      rw [hlogic]
      exact ⟨⟨hIv, hpre.trans hgrow⟩, hmono, hdown⟩
  have hleft : s.bus.left s.bus.inserted.length ≤ es.countP ReceiverEvent.isLogic := by
    rw [MessageBus.left]
    omega
  have hzero := Transition.run_measure (p := ReceiverEvent.isLogic) hstep ⟨h, List.prefix_rfl⟩ hr hleft
  have hkeep := Transition.run_preserves (fun e u v hu hv => (hstep e u v hu hv).1)
    ⟨h, List.prefix_rfl⟩ hr
  have hphase : t.bus.logic.phase ≤ 3 := by
    cases t.bus.logic <;> simp [Popper.phase]
  rw [MessageBus.left] at hzero
  exact ⟨hkeep.1, hkeep.2, by omega⟩

/-- Once the connection is read and its thread is through, so many steps of the logic thread
show the application all of it. -/
theorem Inv.seen_all {es : List (ReceiverEvent χ)} (h : E.Inv s)
    (hr : Transition.run E.step es s = some t) (hnext : accepted.next s.input = none)
    (hidle : s.bus.threads 0 = .idle)
    (hcount : 4 * s.bus.inserted.length ≤ es.countP ReceiverEvent.isLogic) :
    (accepted.drain s.arrived).1.length ≤ t.seen.length := by
  obtain ⟨hI, hpre, hfreed⟩ := h.all_freed hr hcount
  have hdone : s.bus.inserted.length ≤ t.bus.dispatched.length :=
    hfreed.trans hI.bus.exactlyOnce.freed_le
  have hposted : E.posted s.bus = (s.bus.inserted.map Inserted.msg).filter E.Mine := by
    rw [h.posted_eq, hidle]
    exact List.append_nil _
  have hread : (accepted.drain s.arrived).1.length = (E.posted s.bus).length := by
    obtain ⟨rs, hsplit, hmap⟩ := h.read
    have hlen := congrArg List.length hmap
    rw [Reassembly.Decoder.drain_none hnext, List.append_nil] at hsplit
    rw [List.length_map, List.length_map] at hlen
    rw [← hsplit, hlen]
  have htake : s.bus.inserted <+: t.bus.inserted.take t.bus.dispatched.length :=
    (List.prefix_take_iff ..).mpr ⟨hpre, hdone⟩
  have hsub := ((htake.map Inserted.msg).filter (fun msg => decide (E.Mine msg))).length_le
  rw [hread, hposted, ← hI.seen.length_eq]
  exact hsub

/-- What the application gets from the frames `fs`, if each one gives what `R` says. -/
theorem delivered {R : Frame → List δ → Prop} {fs : List Frame}
    (hR : ∀ f ∈ fs, ∀ o, E.Delivered (onRecv E.kind f.recv E.id) f.body o → R f o)
    {es : List (ReceiverEvent χ)} (h : Transition.run E.step es start = some s)
    (harrived : s.arrived <+: (fs.map Frame.bytes).flatten) :
    (∃ gs, gs <+: fs ∧ List.Forall₂ R gs s.seen) ∧ (∀ x, ∃ t, E.step (.logic x) s = some t) ∧
      ∀ es' t, E.Drains (fs.map Frame.bytes).flatten es' s t → List.Forall₂ R fs t.seen := by
  have hshown {u : Receiver δ} (hu : E.Inv u) (hpre : u.arrived <+: (fs.map Frame.bytes).flatten) :
      ∃ gs, gs <+: fs ∧ List.Forall₂ R gs u.seen := by
    obtain ⟨rs, hrs, hseen⟩ := hu.seen_prefix
    obtain ⟨c, hc⟩ := hpre
    have hdrain := drain_frames fs
    rw [← hc, accepted.drain_append] at hdrain
    have hfirst : rs <+: fs.map Frame.recv := by
      rw [← (Prod.mk.inj hdrain).1]
      exact hrs.trans (List.prefix_append _ _)
    obtain ⟨gs, hgs, rfl⟩ := List.prefix_map_iff.mp hfirst
    have hmem := (List.forall₂_and_left gs u.seen).mpr ⟨fun f hf => hgs.subset hf,
      List.forall₂_map_left_iff.mp hseen⟩
    exact ⟨gs, hgs, hmem.imp fun f o ⟨hf, ho⟩ => hR f hf o ho⟩
  have hI := inv_run h
  obtain ⟨bus, hbus⟩ := hI.bus.logic_enabled
  refine ⟨hshown hI harrived, fun x => ⟨_, by rw [step, hbus, Option.map_some]⟩, ?_⟩
  intro es' t hr
  have hIt : E.Inv t :=
    Transition.run_preserves (fun _ _ _ hI hs => hI.stepped (step_stepped hs)) hI hr.run
  have hlen := hI.seen_all hr.run hr.next hr.idle hr.steps
  obtain ⟨gs, hgs, hseen⟩ := hshown hIt (by rw [hr.arrived_end])
  rw [hr.arrived, drain_frames, List.length_map, ← hseen.length_eq] at hlen
  rwa [hgs.eq_of_length (le_antisymm hgs.length_le hlen)] at hseen

end Endpoint

end RgcFifa
