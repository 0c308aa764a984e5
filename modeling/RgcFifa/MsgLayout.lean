import RgcFifa.Lib.ByteWords
import RgcFifa.Lib.Memory
import RgcFifa.MsgTypes

/-! How the headers lie in the bytes of a message block, and the dispatch of
`MsgPopHandler::ProcessMsg` on these bytes. -/

namespace RgcFifa

open ByteWords

/-- `sizeof` of the three headers; the fields of `MsgHdr` stand at 0, 4, 8 and 12. -/
def sizeofMsgHdr : ℕ := 16
def sizeofClientMsgHdr : ℕ := sizeofMsgHdr + clientIds
def sizeofProxyMsgHdr : ℕ := sizeofMsgHdr + proxyIds

def int32 (bs : List UInt8) : ℤ := Int.bmod (leNat bs) (2 ^ 32)

def MsgHdr.toBytes (h : MsgHdr) : List UInt8 :=
  -- three bytes of padding behind msgType
  [h.msgType, 0, 0, 0] ++ (le 4 h.cmdID.toNat ++ (le 4 h.bodyLen.toNat ++
    le 4 (h.sessionID % 2 ^ 32).toNat))

def MsgHdr.ofBytes (bs : List UInt8) : MsgHdr where
  msgType := bs.getD 0 0
  cmdID := UInt32.ofNat (leNat ((bs.drop 4).take 4))
  bodyLen := UInt32.ofNat (leNat ((bs.drop 8).take 4))
  sessionID := int32 ((bs.drop 12).take 4)

def MsgHdrType.toBytes (h : MsgHdrType) : List UInt8 := h.msgHdr.toBytes ++ h.ids

/-- `sizeof(MsgHdrType)` in `PushMsg`. -/
def MsgHdrType.sizeof : MsgHdrType → ℕ
  | .client _ => sizeofClientMsgHdr
  | .proxy _ => sizeofProxyMsgHdr

/-- The `switch` of `ProcessMsg` on the block that `hdr` points to. -/
def MsgPopHandler.processMsg (m : Memory) (hdr : ℕ) : Option LogicCall :=
  let h := MsgHdr.ofBytes (m.read hdr sizeofMsgHdr)
  let msgBody (sizeof : ℕ) := m.read (hdr + sizeof) h.bodyLen.toNat
  if h.msgType = CLIENT_MSGTYPE then
    some (.processLogic h.cmdID (msgBody sizeofClientMsgHdr) h.bodyLen h.sessionID)
  else if h.msgType = SERVER_MSGTYPE then
    some (.processLogic h.cmdID (msgBody sizeofProxyMsgHdr) h.bodyLen h.sessionID)
  else if h.msgType = PROXY_MSGTYPE then
    some (.processProxyLogic h.cmdID (msgBody sizeofProxyMsgHdr) h.bodyLen
      (m.bytes (hdr + 16)) (m.bytes (hdr + 17)) (m.bytes (hdr + 18)) (m.bytes (hdr + 19))
      h.sessionID)
  else none

@[simp] theorem MsgHdr.length_toBytes (h : MsgHdr) : h.toBytes.length = sizeofMsgHdr := by
  simp [MsgHdr.toBytes, sizeofMsgHdr]

@[simp] theorem MsgHdrType.length_toBytes (h : MsgHdrType) : h.toBytes.length = h.sizeof := by
  cases h with
  | client hdr => simp [MsgHdrType.toBytes, MsgHdrType.ids, MsgHdrType.sizeof, sizeofClientMsgHdr,
      clientIds]
  | proxy hdr => simp [MsgHdrType.toBytes, MsgHdrType.ids, MsgHdrType.sizeof, sizeofProxyMsgHdr,
      proxyIds]

theorem leNat_le_emod (i : ℤ) : (leNat (le 4 (i % 2 ^ 32).toNat) : ℤ) = i % 2 ^ 32 := by
  have hpos : 0 ≤ i % 2 ^ 32 := Int.emod_nonneg _ (by norm_num)
  have hmax : i % 2 ^ 32 < 2 ^ 32 := Int.emod_lt_of_pos i (by norm_num)
  have hlt : (i % 2 ^ 32).toNat < 256 ^ 4 := by omega
  rw [leNat_le_of_lt hlt, Int.toNat_of_nonneg hpos]

theorem bmod_emod {i : ℤ} (hlo : -2 ^ 31 ≤ i) (hhi : i < 2 ^ 31) :
    (i % 2 ^ 32).bmod (2 ^ 32) = i := by
  have hcast : i % 2 ^ 32 = i % ((2 ^ 32 : ℕ) : ℤ) := by norm_num
  rw [hcast, Int.emod_bmod]
  exact Int.bmod_eq_of_le (by norm_num; omega) (by norm_num; omega)

theorem int32_le {i : ℤ} (hlo : -2 ^ 31 ≤ i) (hhi : i < 2 ^ 31) :
    int32 (le 4 (i % 2 ^ 32).toNat) = i := by
  unfold int32
  rw [leNat_le_emod, bmod_emod hlo hhi]

theorem ofNat_leNat_le (x : UInt32) : UInt32.ofNat (leNat (le 4 x.toNat)) = x := by
  have hlt : x.toNat < 256 ^ 4 := x.toNat_lt
  rw [leNat_le_of_lt hlt, UInt32.ofNat_toNat]

theorem MsgHdr.ofBytes_toBytes {h : MsgHdr} (hlo : -2 ^ 31 ≤ h.sessionID)
    (hhi : h.sessionID < 2 ^ 31) : MsgHdr.ofBytes h.toBytes = h := by
  have htype : h.toBytes.getD 0 0 = h.msgType := rfl
  have hcmd : (h.toBytes.drop 4).take 4 = le 4 h.cmdID.toNat := by
    simp [MsgHdr.toBytes]
  have hlen : (h.toBytes.drop 8).take 4 = le 4 h.bodyLen.toNat := by
    simp [MsgHdr.toBytes]
  have hid : (h.toBytes.drop 12).take 4 = le 4 (h.sessionID % 2 ^ 32).toNat := by
    have hshort : (le 4 h.cmdID.toNat).drop 8 = [] := List.drop_of_length_le (by simp)
    simp [MsgHdr.toBytes, List.drop_append, hshort, List.take_of_length_le]
  rw [MsgHdr.ofBytes, htype, hcmd, hlen, hid, int32_le hlo hhi, ofNat_leNat_le,
    ofNat_leNat_le]

/-- What a block in memory shows of its message. -/
theorem block_read {m : Memory} {a n off : ℕ} {h : MsgHdrType} {msgBody : List UInt8}
    (hlo : -2 ^ 31 ≤ h.msgHdr.sessionID) (hhi : h.msgHdr.sessionID < 2 ^ 31)
    (hold : m.Holds a n off (h.toBytes ++ msgBody)) :
    MsgHdr.ofBytes (m.read (a + off) sizeofMsgHdr) = h.msgHdr ∧
      m.read (a + off + h.sizeof) msgBody.length = msgBody := by
  obtain ⟨hhdr, hbody⟩ := Memory.holds_append.mp hold
  obtain ⟨hmsg, -⟩ := Memory.holds_append.mp hhdr
  constructor
  · have hr := hmsg.read_eq
    rw [MsgHdr.length_toBytes] at hr
    rw [hr, MsgHdr.ofBytes_toBytes hlo hhi]
  · have hr := hbody.read_eq
    rwa [MsgHdrType.length_toBytes, ← Nat.add_assoc] at hr

theorem processMsg_holds {m : Memory} {a n off : ℕ} {h : MsgHdrType} {msgBody : List UInt8}
    (hf : h.Fits msgBody) (hlo : -2 ^ 31 ≤ h.msgHdr.sessionID)
    (hhi : h.msgHdr.sessionID < 2 ^ 31) (hold : m.Holds a n off (h.toBytes ++ msgBody)) :
    MsgPopHandler.processMsg m (a + off) = (h.block msgBody).processMsg := by
  obtain ⟨hread, hb⟩ := block_read hlo hhi hold
  obtain ⟨hhdr, -⟩ := Memory.holds_append.mp hold
  obtain ⟨-, hids⟩ := Memory.holds_append.mp hhdr
  have hi := hids.read_eq
  rw [← hf.bodyLen] at hb
  have hlayout := hf.layout
  rw [processMsg_block hf]
  cases h with
  | client hdr =>
    simp only [MsgHdrType.msgHdr, MsgHdrType.sizeof] at hread hb hlayout
    simp [MsgPopHandler.processMsg, hread, hb, hlayout, MsgHdrType.call]
  | proxy hdr =>
    simp only [MsgHdrType.msgHdr, MsgHdrType.sizeof] at hread hb hlayout
    simp only [MsgHdrType.msgHdr, MsgHdrType.ids, MsgHdr.length_toBytes, sizeofMsgHdr,
      List.length_cons, List.length_nil, Memory.read, List.cons.injEq, ← Nat.add_assoc] at hi
    obtain ⟨ht, hti, hs, hsi, -⟩ := hi
    rcases hlayout with hlayout | hlayout
    · simp [MsgPopHandler.processMsg, hread, hb, hlayout, MsgHdrType.call, CLIENT_MSGTYPE, SERVER_MSGTYPE,
        PROXY_MSGTYPE]
    · simp [MsgPopHandler.processMsg, hread, hb, hlayout, MsgHdrType.call, CLIENT_MSGTYPE, SERVER_MSGTYPE,
        PROXY_MSGTYPE, ht, hti, hs, hsi]

end RgcFifa
