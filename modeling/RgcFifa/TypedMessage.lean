import RgcFifa.ConduitRead
import RgcFifa.SerializeRoundTrip

/-! Typed messages on the wire. The header of `MESSAGE_HEAD_DEF` has four bytes, and the
conduits parse frames with a header of ten. -/

namespace RgcFifa

open ByteWords

/-- `buffer.assign(hdr, hdr + 4)`. -/
def BuildHeader (msgid : UInt8) : List UInt8 := [0, 0, 0xFF, msgid]

def FixHeader (buffer : List UInt8) : List UInt8 :=
  if buffer.length < 4 then buffer
  else le 2 (UInt16.ofNat (buffer.length - 4)).toNat ++ buffer.drop 2

namespace Message

/-- What `SendMsgToClient<MsgType>` hands to `send`. -/
def wire (msg : Message) (msgid : UInt8) (v : msg.Val) : List UInt8 :=
  FixHeader (BuildHeader msgid ++ (msg.Serialize v).bytes)

/-- `MsgHandler::HandlerWrapper`: the message that the registered function is called with. -/
def handlerWrapper (msg : Message) (m : Memory) (msgBody : ℕ) (bodyLen : UInt32) : Option msg.Val :=
  let r := msg.Unserialize m msgBody bodyLen
  if r.ret ≠ -1 then r.value else none

/-- The receiving conduit takes `bytes` for one frame with the command `msgid` and the
serialized value as its body, and the handler gets the value back from any copy of the body. -/
def Survives (msg : Message) (kind : ConduitKind) (msgid : UInt8) (v : msg.Val)
    (bytes : List UInt8) : Prop :=
  ∃ r, onRead kind bytes = some ⟨[r], [], 0⟩ ∧ r.cmd = msgid.toNat ∧
    r.buf = (msg.Serialize v).bytes ∧
    ∀ m a, m.read a r.buf.length = r.buf → msg.handlerWrapper m a (UInt32.ofNat r.len) = some v

variable {msg : Message} {kind : ConduitKind} {msgid : UInt8} {v : msg.Val}

theorem wire_eq (msg : Message) (msgid : UInt8) (v : msg.Val) : msg.wire msgid v =
    le 2 ((msg.Serialize v).bytes.length % 65536) ++ [0xFF, msgid] ++ (msg.Serialize v).bytes := by
  have hlen : (BuildHeader msgid ++ (msg.Serialize v).bytes).length =
      4 + (msg.Serialize v).bytes.length := by
    rw [List.length_append]
    rfl
  rw [wire, FixHeader, if_neg (by omega), hlen, Nat.add_sub_cancel_left, UInt16.toNat_ofNat',
    List.append_assoc]
  rfl

theorem toInt_neg {n : ℕ} (hge : 2 ^ 31 ≤ n) (hlt : n < 2 ^ 32) :
    (UInt32.ofNat n).toInt32.toInt < 0 := by
  have hn : (UInt32.ofNat n).toNat = n := by rw [UInt32.toNat_ofNat', Nat.mod_eq_of_lt hlt]
  rw [uint32_toInt, hn, if_neg (by omega)]
  omega

theorem beNat_top (b3 b4 b5 : UInt8) :
    2 ^ 31 ≤ beNat [0xFF, b3, b4, b5] ∧ beNat [0xFF, b3, b4, b5] < 2 ^ 32 := by
  have h3 := b3.toNat_lt
  have h4 := b4.toNat_lt
  have h5 := b5.toNat_lt
  simp only [beNat, leNat, List.reverse_cons, List.reverse_nil, List.nil_append, List.cons_append,
    UInt8.reduceToNat]
  omega

/-- The third byte is no length but the top byte of the command, which it makes negative. -/
theorem blocked_of_third {buf : List UInt8} (hthird : buf[2]? = some 0xFF) (h : Complete buf) :
    Blocked buf := by
  refine ⟨h, ?_⟩
  obtain ⟨b0, b1, b2, b3, b4, b5, b6, b7, b8, b9, rest, rfl⟩ := exists_header h.1
  obtain rfl : b2 = 0xFF := Option.some.inj hthird
  obtain ⟨hge, hlt⟩ := beNat_top b3 b4 b5
  have hneg := toInt_neg hge hlt
  simp only [headerPacket, List.drop_succ_cons, List.drop_zero, List.take_succ_cons, List.take_zero]
  assumption

/-- No frame is found in a typed message, whatever follows it on the stream. -/
theorem onRead_wire (msg : Message) (kind : ConduitKind) (msgid : UInt8) (v : msg.Val)
    (rest : List UInt8) : ∃ closes, onRead kind (msg.wire msgid v ++ rest) =
      some ⟨[], msg.wire msgid v ++ rest, closes⟩ := by
  have hthird : (msg.wire msgid v ++ rest)[2]? = some 0xFF := by
    rw [wire_eq]
    rfl
  have hnext : accepted.next (msg.wire msgid v ++ rest) = none := by
    apply accepted_next_none.mpr
    by_cases hc : Complete (msg.wire msgid v ++ rest)
    · exact .inr (blocked_of_third hthird hc)
    · exact .inl hc
  rw [onRead_eq, Reassembly.Decoder.drain_none hnext]
  exact ⟨_, rfl⟩

/-- The same body behind the header of `Stream` arrives. -/
theorem survives_framed (hs : msg.members.Small v) (hlen : (msg.Serialize v).bytes.length ≤ 65535)
    (kind : ConduitKind) (msgid : UInt8) (target source : UInt16) : msg.Survives kind msgid v
      (frameBytes msgid.toUInt32 target source (msg.Serialize v).bytes) := by
  have hid := msgid.toNat_lt
  let f : Frame := ⟨msgid.toUInt32, target, source, (msg.Serialize v).bytes,
    by rw [UInt8.toNat_toUInt32]; omega, hlen⟩
  have hbody : f.recv.buf.length = (msg.Serialize v).bytes.length := rfl
  obtain ⟨hc, _, hn, hr⟩ := decoder_next.mp f.next
  have hneg : 0 ≤ (headerPacket f.bytes).cmd := by
    have hcmd : ((headerPacket f.bytes).recv f.bytes).cmd = f.recv.cmd := congrArg Recv.cmd hr
    change (headerPacket f.bytes).cmd = (f.cmd.toNat : Int) at hcmd
    omega
  have hnext : accepted.next f.bytes = some (f.bytes.length, f.recv) :=
    decoder_next.mpr ⟨hc, by simpa using hneg, hn, hr⟩
  have hnil : accepted.next [] = none := accepted_next_none.mpr (.inl fun h => by simp [Complete] at h)
  have hdrain : accepted.drain f.bytes = ([f.recv], []) := by
    rw [Reassembly.Decoder.drain_some hnext, List.drop_length,
      Reassembly.Decoder.drain_none hnil]
  refine ⟨f.recv, ?_, rfl, rfl, fun m a hread => ?_⟩
  · rw [onRead_eq, show frameBytes msgid.toUInt32 target source (msg.Serialize v).bytes = f.bytes
      from rfl, hdrain]
    have hb : ¬ Blocked [] := fun h => by simp [Blocked, Complete] at h
    rw [if_neg hb]
  · have hsize : (UInt32.ofNat (msg.Serialize v).bytes.length).toNat =
        (msg.Serialize v).bytes.length := UInt32.toNat_ofNat_of_lt' (by
      have h32 : UInt32.size = 4294967296 := rfl
      omega)
    have hreceived : Received m a (UInt32.ofNat f.recv.len) (msg.Serialize v).bytes [] := by
      refine ⟨?_, ?_, hsize.ge, by omega⟩
      · rw [List.append_nil]
        exact hread
      · rw [List.append_nil]
        rfl
    obtain ⟨hne, hrest⟩ := Ty.restores_received (.struct msg.members) (v := v) hs hreceived
    change msg.handlerWrapper m a _ = some v
    rw [handlerWrapper]
    exact (if_pos hne).trans hrest.value_eq

end Message

theorem typed_message_unrecognised (msg : Message) (kind : ConduitKind) (msgid : UInt8)
    (v : msg.Val) : (∀ rest, ∃ closes, onRead kind (msg.wire msgid v ++ rest) =
      some ⟨[], msg.wire msgid v ++ rest, closes⟩) ∧
    ¬ msg.Survives kind msgid v (msg.wire msgid v) := by
  refine ⟨msg.onRead_wire kind msgid v, ?_⟩
  rintro ⟨r, hread, _⟩
  obtain ⟨closes, hw⟩ := msg.onRead_wire kind msgid v []
  rw [List.append_nil, hread] at hw
  exact List.cons_ne_nil r [] (congrArg ReadOutcome.calls (Option.some.inj hw))

/-- A message with no members: four bytes, which stay in the buffer. -/
theorem empty_message_unrecognised :
    let msg : Message := ⟨.nil, by decide⟩
    msg.wire 7 () = [0, 0, 0xFF, 7] ∧ onRead .gameClient (msg.wire 7 ()) =
      some ⟨[], [0, 0, 0xFF, 7], 0⟩ ∧ ¬ msg.Survives .gameClient 7 () (msg.wire 7 ()) := by
  intro msg
  have hread : onRead .gameClient (msg.wire 7 ()) = some ⟨[], [0, 0, 0xFF, 7], 0⟩ := by decide
  refine ⟨by decide, hread, ?_⟩
  rintro ⟨r, hr, _⟩
  rw [hread] at hr
  exact List.cons_ne_nil r [] (congrArg ReadOutcome.calls (Option.some.inj hr)).symm

end RgcFifa
