import RgcFifa.ConduitRead

/-! The messages between the network threads and the logic thread. A message block
starts with a `MsgHdr`; in a proxy block four id bytes stand between it and the body,
and the logic thread finds the body from the message type alone. -/

namespace RgcFifa

def CLIENT_MSGTYPE : UInt8 := 0
def SERVER_MSGTYPE : UInt8 := 1
def PROXY_MSGTYPE : UInt8 := 2

structure MsgHdr where
  msgType : UInt8
  cmdID : UInt32
  bodyLen : UInt32
  sessionID : Int
  deriving DecidableEq, Repr

structure ClientMsgHdr where
  msgHdr : MsgHdr
  deriving DecidableEq, Repr

structure ProxyMsgHdr where
  msgHdr : MsgHdr
  target_type : UInt8
  target_id : UInt8
  source_type : UInt8
  source_id : UInt8
  deriving DecidableEq, Repr

/-- The constructor of `ProxyMsgHdr`, which takes the two 16-bit ids apart. -/
def ProxyMsgHdr.ofIds (id : UInt32) (type : UInt8) (blen : UInt32) (sess : Int)
    (target source : ℕ) : ProxyMsgHdr where
  msgHdr := ⟨type, id, blen, sess⟩
  target_type := UInt8.ofNat (target >>> 8)
  target_id := UInt8.ofNat target
  source_type := UInt8.ofNat (source >>> 8)
  source_id := UInt8.ofNat source

/-- The two instances of the `MsgHdrType` of `PushMsg`. -/
inductive MsgHdrType where
  | client (hdr : ClientMsgHdr)
  | proxy (hdr : ProxyMsgHdr)
  deriving DecidableEq, Repr

def MsgHdrType.msgHdr : MsgHdrType → MsgHdr
  | .client hdr => hdr.msgHdr
  | .proxy hdr => hdr.msgHdr

def MsgHdrType.ids : MsgHdrType → List UInt8
  | .client _ => []
  | .proxy hdr => [hdr.target_type, hdr.target_id, hdr.source_type, hdr.source_id]

structure MsgBlock where
  hdr : MsgHdr
  tail : List UInt8
  deriving DecidableEq, Repr

/-- What `PushMsg` copies into the block it allocates. -/
def MsgHdrType.block (h : MsgHdrType) (msgBody : List UInt8) : MsgBlock :=
  ⟨h.msgHdr, h.ids ++ msgBody.take h.msgHdr.bodyLen.toNat⟩

inductive LogicCall where
  | processLogic (cmd_id : UInt32) (msgBody : List UInt8) (len : UInt32) (sessionID : Int)
  | processProxyLogic (cmd_id : UInt32) (msgBody : List UInt8) (len : UInt32)
      (target_type target_id source_type source_id : UInt8) (sessionID : Int)
  deriving DecidableEq, Repr

/-- `sizeof(ClientMsgHdr)` and `sizeof(ProxyMsgHdr)`, less the `MsgHdr` both start with. -/
def clientIds : ℕ := 0
def proxyIds : ℕ := 4

/-- The `switch` of `MsgPopHandler::ProcessMsg`. -/
def MsgBlock.processMsg (b : MsgBlock) : Option LogicCall :=
  let body (ids : ℕ) := (b.tail.drop ids).take b.hdr.bodyLen.toNat
  if b.hdr.msgType = CLIENT_MSGTYPE then
    some (.processLogic b.hdr.cmdID (body clientIds) b.hdr.bodyLen b.hdr.sessionID)
  else if b.hdr.msgType = SERVER_MSGTYPE then
    some (.processLogic b.hdr.cmdID (body proxyIds) b.hdr.bodyLen b.hdr.sessionID)
  else if b.hdr.msgType = PROXY_MSGTYPE then
    some (.processProxyLogic b.hdr.cmdID (body proxyIds) b.hdr.bodyLen
      (b.tail.getD 0 0) (b.tail.getD 1 0) (b.tail.getD 2 0) (b.tail.getD 3 0) b.hdr.sessionID)
  else none

def GameClient.onRecv (r : Recv) (id : Int) : MsgHdrType :=
  if r.target > 0 ∧ r.source >>> 8 ≠ 0xFF then
    .proxy (.ofIds (UInt32.ofInt r.cmd) PROXY_MSGTYPE (UInt32.ofNat r.len) id r.target r.source)
  else .client ⟨⟨CLIENT_MSGTYPE, UInt32.ofInt r.cmd, UInt32.ofNat r.len, id⟩⟩

def ClientConn.onRecv (r : Recv) (id : Int) : MsgHdrType :=
  .proxy (.ofIds (UInt32.ofInt r.cmd) SERVER_MSGTYPE (UInt32.ofNat r.len) id r.target r.source)

def onRecv : ConduitKind → Recv → Int → MsgHdrType
  | .gameClient => GameClient.onRecv
  | .clientConn _ => ClientConn.onRecv

def SPLIT_ID (type id : UInt8) : UInt16 := (type.toUInt16 <<< 8) + id.toUInt16

theorem SPLIT_ID_ofNat (n : ℕ) :
    SPLIT_ID (UInt8.ofNat (n >>> 8)) (UInt8.ofNat n) = UInt16.ofNat n := by
  apply UInt16.toNat_inj.mp
  simp only [SPLIT_ID, UInt16.toNat_add, UInt16.toNat_shiftLeft, UInt8.toNat_toUInt16,
    UInt8.toNat_ofNat', UInt16.toNat_ofNat', UInt16.toNat_ofNat, Nat.shiftRight_eq_div_pow,
    Nat.shiftLeft_eq, Nat.reducePow, Nat.reduceMod]
  omega

/-- A header carries the type that fits its layout, and the length of the body. -/
structure MsgHdrType.Fits (h : MsgHdrType) (msgBody : List UInt8) : Prop where
  bodyLen : h.msgHdr.bodyLen.toNat = msgBody.length
  layout : match h with
    | .client hdr => hdr.msgHdr.msgType = CLIENT_MSGTYPE
    | .proxy hdr => hdr.msgHdr.msgType = SERVER_MSGTYPE ∨ hdr.msgHdr.msgType = PROXY_MSGTYPE

def MsgHdrType.call (h : MsgHdrType) (msgBody : List UInt8) : LogicCall :=
  match h with
  | .client hdr =>
      .processLogic hdr.msgHdr.cmdID msgBody hdr.msgHdr.bodyLen hdr.msgHdr.sessionID
  | .proxy hdr =>
      if hdr.msgHdr.msgType = PROXY_MSGTYPE then
        .processProxyLogic hdr.msgHdr.cmdID msgBody hdr.msgHdr.bodyLen hdr.target_type
          hdr.target_id hdr.source_type hdr.source_id hdr.msgHdr.sessionID
      else .processLogic hdr.msgHdr.cmdID msgBody hdr.msgHdr.bodyLen hdr.msgHdr.sessionID

theorem processMsg_block {h : MsgHdrType} {msgBody : List UInt8} (hf : h.Fits msgBody) :
    (h.block msgBody).processMsg = some (h.call msgBody) := by
  have hlen := hf.bodyLen
  have htype := hf.layout
  cases h with
  | client hdr =>
    simp only [MsgHdrType.msgHdr] at hlen htype
    simp [MsgHdrType.block, MsgBlock.processMsg, MsgHdrType.call, MsgHdrType.ids,
      MsgHdrType.msgHdr, htype, hlen, clientIds]
  | proxy hdr =>
    simp only [MsgHdrType.msgHdr] at hlen htype
    rcases htype with htype | htype
    · simp [MsgHdrType.block, MsgBlock.processMsg, MsgHdrType.call, MsgHdrType.ids,
        MsgHdrType.msgHdr, htype, hlen, proxyIds, SERVER_MSGTYPE, CLIENT_MSGTYPE, PROXY_MSGTYPE]
    · simp [MsgHdrType.block, MsgBlock.processMsg, MsgHdrType.call, MsgHdrType.ids,
        MsgHdrType.msgHdr, htype, hlen, proxyIds, SERVER_MSGTYPE, CLIENT_MSGTYPE, PROXY_MSGTYPE]

theorem call_len {h : MsgHdrType} {msgBody body : List UInt8} {cmd_id len : UInt32}
    {target_type target_id source_type source_id : UInt8} {sessionID : Int} (hf : h.Fits msgBody)
    (hc : h.call msgBody = .processProxyLogic cmd_id body len target_type target_id source_type
      source_id sessionID) : len.toNat = body.length := by
  have hlen := hf.bodyLen
  cases h with
  | client hdr => exact nomatch hc
  | proxy hdr =>
    simp only [MsgHdrType.call] at hc
    split_ifs at hc
    obtain ⟨_, rfl, rfl, _⟩ := LogicCall.processProxyLogic.inj hc
    exact hlen

theorem call_processLogic {h : MsgHdrType} {msgBody body : List UInt8} {cmd_id len : UInt32}
    {sessionID : Int} (hf : h.Fits msgBody)
    (hc : h.call msgBody = .processLogic cmd_id body len sessionID) :
    body = msgBody ∧ len.toNat = msgBody.length := by
  have hlen := hf.bodyLen
  cases h with
  | client hdr =>
    obtain ⟨_, rfl, rfl, _⟩ := LogicCall.processLogic.inj hc
    exact ⟨rfl, hlen⟩
  | proxy hdr =>
    simp only [MsgHdrType.call] at hc
    split_ifs at hc
    obtain ⟨_, rfl, rfl, _⟩ := LogicCall.processLogic.inj hc
    exact ⟨rfl, hlen⟩

theorem onRecv_fits (kind : ConduitKind) {r : Recv} (id : Int) (hlen : r.len = r.buf.length)
    (hr : r.len < 2 ^ 32) : (onRecv kind r id).Fits r.buf := by
  have hb : (UInt32.ofNat r.len).toNat = r.buf.length := by
    rw [UInt32.toNat_ofNat', Nat.mod_eq_of_lt hr, hlen]
  cases kind with
  | gameClient =>
    rw [onRecv, GameClient.onRecv]
    split_ifs
    · exact ⟨hb, .inr rfl⟩
    · exact ⟨hb, rfl⟩
  | clientConn ss => exact ⟨hb, .inl rfl⟩

theorem onRecv_sessionID (kind : ConduitKind) (r : Recv) (id : Int) :
    (onRecv kind r id).msgHdr.sessionID = id := by
  cases kind with
  | gameClient =>
    rw [onRecv, GameClient.onRecv]
    split_ifs <;> rfl
  | clientConn ss => rfl

end RgcFifa
