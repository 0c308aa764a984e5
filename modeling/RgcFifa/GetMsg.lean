import RgcFifa.Logic
import RgcFifa.MsgLayout

/-! The two receivers of a frame body: `GetMsg` of the client library and
`Logic::ProcessLogic` of the server, with the bytes they touch. -/

namespace RgcFifa

open ByteWords

/-- What the caller of `GetMsg` sees in its callback. -/
structure Callback where
  session_id : UInt32
  size : UInt16
  buffer : List UInt8
  deriving DecidableEq, Repr

/-- The bytes read behind the header, as addresses and sizes, those copied, and the callback. -/
structure GetMsgRun where
  touched : List (ℕ × ℕ)
  copied : List UInt8
  callback : Option Callback
  deriving DecidableEq, Repr

/-- `memcpy` to the beginning of the caller's buffer. -/
def memcpyTo (buffer bytes : List UInt8) : List UInt8 := bytes ++ buffer.drop bytes.length

/-- The `switch` in the loop of `GetMsg` on the block that `hdr` points to. -/
def getMsg (m : Memory) (hdr : ℕ) (buffer : List UInt8) : GetMsgRun :=
  let h := MsgHdr.ofBytes (m.read hdr sizeofMsgHdr)
  if h.msgType = SERVER_MSGTYPE then
    let length := m.read (hdr + sizeofProxyMsgHdr) 2
    let packet_len := UInt16.ofNat (leNat length)
    let msgBody := hdr + sizeofProxyMsgHdr + 2
    let copied := m.read msgBody packet_len.toNat
    ⟨[(hdr + sizeofProxyMsgHdr, 2), (msgBody, packet_len.toNat)], copied,
      some ⟨UInt32.ofInt h.sessionID, packet_len, memcpyTo buffer copied⟩⟩
  else ⟨[], [], none⟩

/-- `GetMsg` on the body `b` at `base` keeps to the bytes of that body. -/
structure GetMsgBounded (base : ℕ) (b : List UInt8) (r : GetMsgRun) : Prop where
  touched : ∀ p ∈ r.touched, base ≤ p.1 ∧ p.1 + p.2 ≤ base + b.length
  length : (base, 2) ∈ r.touched → 2 ≤ b.length
  copied : r.copied.length ≤ b.length - 2
  reported : ∀ c ∈ r.callback, c.size.toNat ≤ b.length - 2

structure ProcessLogicBounded (b : List UInt8) (r : LogicRun) : Prop where
  touched : ∀ p ∈ r.touched, p.1 + p.2 ≤ b.length
  length : (0, 2) ∈ r.touched → 2 ≤ b.length
  packet_len : ∀ sessionID cmd_id array packet_len,
    .processMsg sessionID cmd_id array packet_len ∈ r.invoked → packet_len.toNat ≤ array.length

/-- The length at the beginning of a body that `sendMsg` has framed. -/
def innerLength (b : List UInt8) : ℕ := leNat (b.take 2)

theorem innerLength_lt (b : List UInt8) : innerLength b < 65536 := by
  have hlt := leNat_lt (b.take 2)
  have hlen : (b.take 2).length ≤ 2 := List.length_take_le _ _
  have hpow : 256 ^ (b.take 2).length ≤ 256 ^ 2 := Nat.pow_le_pow_right (by omega) hlen
  exact lt_of_lt_of_le hlt hpow

section

variable {m : Memory} {a n off : ℕ} {h : MsgHdrType} {b : List UInt8}

theorem getMsg_block (hlo : -2 ^ 31 ≤ h.msgHdr.sessionID)
    (hhi : h.msgHdr.sessionID < 2 ^ 31) (hold : m.Holds a n off (h.toBytes ++ b))
    (htype : h.msgHdr.msgType = SERVER_MSGTYPE) (buffer : List UInt8) :
    let base := a + off + sizeofProxyMsgHdr
    let packet_len := UInt16.ofNat (leNat (m.read base 2))
    getMsg m (a + off) buffer = ⟨[(base, 2), (base + 2, packet_len.toNat)],
      m.read (base + 2) packet_len.toNat, some ⟨UInt32.ofInt h.msgHdr.sessionID, packet_len,
        memcpyTo buffer (m.read (base + 2) packet_len.toNat)⟩⟩ := by
  obtain ⟨hhdr, -⟩ := block_read hlo hhi hold
  simp only [getMsg, hhdr, htype, if_true]

theorem getMsgBounded_iff {base : ℕ} (hb : m.read base b.length = b) {sessionID : UInt32}
    {buffer : List UInt8} :
    let packet_len := UInt16.ofNat (leNat (m.read base 2))
    GetMsgBounded base b ⟨[(base, 2), (base + 2, packet_len.toNat)],
      m.read (base + 2) packet_len.toNat, some ⟨sessionID, packet_len, buffer⟩⟩ ↔
      2 ≤ b.length ∧ innerLength b ≤ b.length - 2 := by
  have hlen (h2 : 2 ≤ b.length) : (UInt16.ofNat (leNat (m.read base 2))).toNat = innerLength b := by
    rw [UInt16.toNat_ofNat', Memory.read_take hb h2]
    exact Nat.mod_eq_of_lt (innerLength_lt b)
  intro packet_len
  constructor
  · intro hg
    have h2 := hg.length List.mem_cons_self
    have hr := hg.reported _ rfl
    exact ⟨h2, (hlen h2).ge.trans hr⟩
  · rintro ⟨h2, hinner⟩
    have hp : packet_len.toNat = innerLength b := hlen h2
    refine ⟨?_, fun _ => h2, ?_, ?_⟩
    · intro p hp'
      simp only [List.mem_cons, List.not_mem_nil, or_false] at hp'
      rcases hp' with rfl | rfl
      · exact ⟨le_rfl, by omega⟩
      · exact ⟨by omega, by dsimp only; omega⟩
    · rw [Memory.length_read, hp]
      exact hinner
    · rintro c ⟨⟩
      exact hp.le.trans hinner

theorem processLogicBounded_iff {len : UInt32} (hb : len.toNat = b.length) (cfg : ServerCommonConfig)
    (found : Bool) (cmd_id : UInt32) (sessionID : Int) :
    ProcessLogicBounded b (Logic.processLogic cfg found cmd_id b len sessionID) ↔
      (found → cmd_id ≠ 2 → 2 < b.length → innerLength b ≤ b.length - 2) := by
  have hnone {invoked : List ManagedCall} {fault : Bool}
      (hcalls : ∀ sessionID cmd_id array packet_len,
        .processMsg sessionID cmd_id array packet_len ∉ invoked) :
      ProcessLogicBounded b ⟨[], invoked, fault⟩ :=
    ⟨by simp, by simp, fun _ _ _ _ hm => absurd hm (hcalls _ _ _ _)⟩
  by_cases hcmd : cmd_id = 2
  · subst hcmd
    refine iff_of_true ?_ (fun _ h => absurd rfl h)
    rw [Logic.processLogic, if_pos rfl, Logic.processRegisteredProtocol_eq]
    exact hnone (by simp)
  cases found with
  | false =>
    refine iff_of_true ?_ (by simp)
    rw [Logic.processLogic, if_neg hcmd, if_pos (by simp)]
    exact hnone (by simp)
  | true =>
    by_cases hlong : 2 < b.length
    · have hlt : (2 : UInt32) < len := UInt32.lt_iff_toNat_lt.mpr (by rw [hb]; exact hlong)
      have hinner : (UInt32.ofNat (leNat (b.take 2))).toNat = innerLength b := by
        have hl := innerLength_lt b
        rw [UInt32.toNat_ofNat', ← innerLength, Nat.mod_eq_of_lt (by omega)]
      rw [processLogic_long hcmd hlt hb]
      constructor
      · intro hp _ _ _
        have hle := hp.packet_len _ _ _ _ (List.mem_singleton_self _)
        rwa [hinner, List.length_drop] at hle
      · intro hle
        refine ⟨?_, fun _ => by omega, ?_⟩
        · intro p hp
          simp only [List.mem_cons, List.not_mem_nil, or_false] at hp
          rcases hp with rfl | rfl
          · exact hlong.le
          · dsimp only; omega
        · intro _ _ _ _ hm
          simp only [List.mem_singleton, ManagedCall.processMsg.injEq] at hm
          obtain ⟨-, -, rfl, rfl⟩ := hm
          rw [hinner, List.length_drop]
          exact hle rfl hcmd hlong
    · have hle : len ≤ 2 := UInt32.le_iff_toNat_le.mpr (by rw [hb]; exact Nat.not_lt.mp hlong)
      rw [processLogic_short hcmd hle]
      exact iff_of_true (hnone (by simp)) (fun _ _ h => absurd h hlong)

end

/-- A body reaches `GetMsg` through a `ClientConn`, and `ProcessLogic` through a conduit of
either kind. `GetMsg` keeps to the body if it has the inner length in front and as many
bytes behind; `ProcessLogic` passes a good `packet_len` if the same holds of a long body. -/
theorem frame_boundary_iff {m : Memory} {a n off : ℕ} {r : Recv} {id : ℤ} {kind : ConduitKind}
    (hlen : r.len = r.buf.length) (hmax : r.buf.length ≤ 65535) (hid : -2 ^ 31 ≤ id ∧ id < 2 ^ 31)
    (hold : m.Holds a n off ((onRecv kind r id).toBytes ++ r.buf)) :
    (∀ ss, kind = .clientConn ss → ∀ buffer,
      (GetMsgBounded (a + off + sizeofProxyMsgHdr) r.buf (getMsg m (a + off) buffer) ↔
        2 ≤ r.buf.length ∧ innerLength r.buf ≤ r.buf.length - 2)) ∧
    ∀ cfg found cmd_id msgBody len sessionID,
      MsgPopHandler.processMsg m (a + off) = some (.processLogic cmd_id msgBody len sessionID) →
      (ProcessLogicBounded r.buf (Logic.processLogic cfg found cmd_id msgBody len sessionID) ↔
        (found → cmd_id ≠ 2 → 2 < r.buf.length → innerLength r.buf ≤ r.buf.length - 2)) := by
  have hf : (onRecv kind r id).Fits r.buf := onRecv_fits kind id hlen (by omega)
  have hsess := onRecv_sessionID kind r id
  constructor
  · rintro ss rfl buffer
    obtain ⟨-, hbody⟩ := block_read (by rw [hsess]; exact hid.1) (by rw [hsess]; exact hid.2) hold
    rw [getMsg_block (by rw [hsess]; exact hid.1) (by rw [hsess]; exact hid.2) hold rfl buffer]
    exact getMsgBounded_iff hbody
  · intro cfg found cmd_id msgBody len sessionID hcall
    rw [processMsg_holds hf (by rw [hsess]; exact hid.1) (by rw [hsess]; exact hid.2) hold,
      processMsg_block hf] at hcall
    obtain ⟨rfl, hl⟩ := call_processLogic hf (Option.some.inj hcall)
    exact processLogicBounded_iff hl cfg found cmd_id sessionID

/-- A memory with one block, which holds a frame body behind the header of its conduit. -/
def blockOf (kind : ConduitKind) (r : Recv) (id : ℤ) : Memory :=
  (Memory.mk (fun _ => 0) [(16, 128)]).write (16 + 0) ((onRecv kind r id).toBytes ++ r.buf)

theorem frame_boundary_three_bytes :
    let r : Recv := ⟨7, 5, [3, 0, 1, 2, 3], 0x0101, 0x0501⟩
    GetMsgBounded 36 r.buf (getMsg (blockOf (.clientConn 257) r 4) 16 []) ∧
      MsgPopHandler.processMsg (blockOf (.clientConn 257) r 4) 16 =
        some (.processLogic 7 r.buf 5 4) ∧
      ProcessLogicBounded r.buf (Logic.processLogic (.ofType 5 1 8000) true 7 r.buf 5 4) := by
  intro r
  obtain ⟨hget, hlogic⟩ := frame_boundary_iff (m := blockOf (.clientConn 257) r 4) (a := 16) (n := 128)
     (r := r) rfl (by decide) (by decide)
    (Memory.holds_write (List.mem_singleton_self _) (by decide))
  exact ⟨(hget 257 rfl []).mpr (by decide), by decide,
    (hlogic _ true 7 _ _ _ (by decide)).mpr (fun _ _ _ => by decide)⟩

/-- A body of two bytes that announces five: `GetMsg` copies and reports five bytes. A body
of three bytes that announces nine: the managed code gets one byte and the length nine. -/
theorem frame_boundary_passed :
    let short : Recv := ⟨7, 2, [5, 0], 0x0101, 0x0501⟩
    let long : Recv := ⟨7, 3, [9, 0, 1], 0x0101, 0x0501⟩
    (getMsg (blockOf (.clientConn 257) short 4) 16 []).touched = [(36, 2), (38, 5)] ∧
      ¬ GetMsgBounded 36 short.buf (getMsg (blockOf (.clientConn 257) short 4) 16 []) ∧
      MsgPopHandler.processMsg (blockOf (.clientConn 257) long 4) 16 =
        some (.processLogic 7 long.buf 3 4) ∧
      (Logic.processLogic (.ofType 5 1 8000) true 7 long.buf 3 4).invoked = [.processMsg 4 7 [1] 9] ∧
      ¬ ProcessLogicBounded long.buf (Logic.processLogic (.ofType 5 1 8000) true 7 long.buf 3 4) := by
  intro short long
  have htouched : (getMsg (blockOf (.clientConn 257) short 4) 16 []).touched = [(36, 2), (38, 5)] := by
    decide
  have hinvoked : (Logic.processLogic (.ofType 5 1 8000) true 7 long.buf 3 4).invoked =
      [.processMsg 4 7 [1] 9] := by decide
  refine ⟨htouched, fun hg => ?_, by decide, hinvoked, fun hl => ?_⟩
  · have hin := hg.touched (38, 5) (by rw [htouched]; decide)
    exact absurd hin.2 (by decide)
  · exact absurd (hl.packet_len 4 7 [1] 9 (by rw [hinvoked]; decide)) (by decide)

end RgcFifa
