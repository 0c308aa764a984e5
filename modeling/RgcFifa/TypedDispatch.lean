import RgcFifa.BusRun
import RgcFifa.RelayTransparency
import RgcFifa.TypedMessage

/-! `MsgHandler::ProcessMsg`, which takes a queue of message blocks to the functions registered
for their commands. The command comes from the wire, and the place of the body from the header
type the function was registered with. -/

namespace RgcFifa

open ByteWords

def MAX_MSG_NUM : ℕ := 0x500

/-- The template argument `HdrType`. -/
inductive HdrType where
  | client | proxy
  deriving DecidableEq, Repr

def HdrType.sizeof : HdrType → ℕ
  | client => sizeofClientMsgHdr
  | proxy => sizeofProxyMsgHdr

def MsgHdrType.hdrType : MsgHdrType → HdrType
  | .client _ => .client
  | .proxy _ => .proxy

/-- What the two overloads of `RegisterMsgHandler` make of a function. A `const void` is a struct
without bytes. -/
inductive Handler where
  | typed (hdrType : HdrType) (msg : Message)
  | struct (hdrType : HdrType) (sizeofStruct : ℕ)

structure MsgHandler where
  m_HandlerList : Fin MAX_MSG_NUM → Option Handler

/-- A call of a registered function, with the bytes of the header it is given. A pointer to a
struct shows as many bytes as the struct or the body has. -/
inductive HandlerCall where
  | typed (hdr : List UInt8) (msg : Message) (msg1 : msg.Val)
  | struct (hdr : List UInt8) (msgBody : List UInt8)

/-- `HandlerWrapper` and `HandlerWrapper2`. -/
def Handler.m_Wrapper (handler : Handler) (m : Memory) (hdr : ℕ) : Option HandlerCall :=
  let bodyLen := (MsgHdr.ofBytes (m.read hdr sizeofMsgHdr)).bodyLen
  match handler with
  | typed hdrType msg =>
      (msg.handlerWrapper m (hdr + hdrType.sizeof) bodyLen).map
        (.typed (m.read hdr hdrType.sizeof) msg)
  | struct hdrType sizeofStruct =>
      some (.struct (m.read hdr hdrType.sizeof)
        (m.read (hdr + hdrType.sizeof) (max sizeofStruct bodyLen.toNat)))

namespace MsgHandler

def new : MsgHandler := ⟨fun _ => none⟩

/-- `none` where an assertion fails. -/
def RegisterMsgHandler (h : MsgHandler) (msgId : ℕ) (handler : Handler) : Option MsgHandler :=
  if hid : msgId < MAX_MSG_NUM then
    if (h.m_HandlerList ⟨msgId, hid⟩).isNone then
      some ⟨Function.update h.m_HandlerList ⟨msgId, hid⟩ (some handler)⟩
    else none
  else none

/-- The loop over the queue. `none` where the assertion on the command fails, or memory is freed
that is not allocated. -/
def loop (h : MsgHandler) : List ℕ → MessageBus → Option (List (Option HandlerCall) × MessageBus)
  | [], s => some ([], s)
  | hdr :: msgQueue, s =>
      let cmdID := (MsgHdr.ofBytes (s.mem.read hdr sizeofMsgHdr)).cmdID.toNat
      if hc : cmdID < MAX_MSG_NUM then
        let call := (h.m_HandlerList ⟨cmdID, hc⟩).bind fun handler => handler.m_Wrapper s.mem hdr
        (s.freeMsgBlock hdr).bind fun t =>
          (h.loop msgQueue t).map fun r => (call :: r.1, r.2)
      else none

def ProcessMsg (h : MsgHandler) (s : MessageBus) :
    Option (List (Option HandlerCall) × MessageBus) :=
  h.loop s.global.m_MsgQueue { s with global := { s.global with m_MsgQueue := [] } }

end MsgHandler

/-- The call is one with the decoding of `msgBody`, wherever these bytes may lie. -/
def HandlerCall.Exact (msgBody : List UInt8) : HandlerCall → Prop
  | .typed _ msg msg1 => ∀ m a, m.read a msgBody.length = msgBody →
      msg.handlerWrapper m a (UInt32.ofNat msgBody.length) = some msg1
  | .struct _ bytes => bytes = msgBody

/-- The queue holds the blocks of these messages, and no other block is on the bus. -/
def MessageBus.Queued (msgs : List PushMsg) (s : MessageBus) : Prop :=
  ∃ own free bus, Owned own free bus s ∧ bus.map Block.msg = msgs ∧
    s.global.m_MsgQueue = bus.map Block.buffer

/-- No assertion fails, and each function that is called gets the body that was pushed. -/
def MsgHandler.Dispatches (h : MsgHandler) (msgs : List PushMsg) (s : MessageBus) : Prop :=
  ∃ calls t, h.ProcessMsg s = some (calls, t) ∧
    List.Forall₂ (fun msg call => ∀ c ∈ call, c.Exact msg.msgBody) msgs calls

/-- A frame that a conduit has received, pushed to the queue. -/
structure WireMsg where
  kind : ConduitKind
  frame : Frame
  id : ℤ
  int : -2 ^ 31 ≤ id ∧ id < 2 ^ 31

def WireMsg.pushMsg (w : WireMsg) : PushMsg :=
  .ofRecv w.kind w.frame.recv w.id rfl
    (by have h : w.frame.recv.len ≤ 65535 := w.frame.body_le
        omega) w.int

/-- What the dispatch goes by. -/
structure MsgShape where
  hdrType : HdrType
  cmdID : UInt32
  len : ℕ
  cmd_lt : cmdID.toNat < 2 ^ 31
  len_le : len ≤ 65535

def WireMsg.shape (w : WireMsg) : MsgShape where
  hdrType := w.pushMsg.hdr.hdrType
  cmdID := w.frame.cmd
  len := w.frame.body.length
  cmd_lt := w.frame.cmd_lt
  len_le := w.frame.body_le

/-- The decoding of `len` bytes depends on no more than the first `n` bytes. -/
def Message.DependsOn (msg : Message) (len n : ℕ) : Prop :=
  ∀ m a m' a', m.read a n = m'.read a' n →
    msg.handlerWrapper m a (UInt32.ofNat len) = msg.handlerWrapper m' a' (UInt32.ofNat len)

/-- A function with another header type looks for the body in the wrong place, which does no harm
only where it is not looked at. -/
def Handler.Suits (shape : MsgShape) : Handler → Prop
  | typed hdrType msg =>
      msg.DependsOn shape.len (if hdrType = shape.hdrType then shape.len else 0)
  | struct hdrType sizeofStruct =>
      sizeofStruct ≤ shape.len ∧ (hdrType = shape.hdrType ∨ shape.len = 0)

def MsgHandler.Suits (h : MsgHandler) (shape : MsgShape) : Prop :=
  ∃ hc : shape.cmdID.toNat < MAX_MSG_NUM,
    ∀ handler ∈ h.m_HandlerList ⟨shape.cmdID.toNat, hc⟩, handler.Suits shape

/-! Where bytes are put makes no difference to their decoding. -/

section

/-- The bytes from `a` on in `m` are those from `a'` on in `m'`. -/
def SameFrom (m : Memory) (a : ℕ) (m' : Memory) (a' : ℕ) : Prop :=
  ∀ i, m.bytes (a + i) = m'.bytes (a' + i)

structure SameDecoding {α : Type} (r r' : Unserialized α) : Prop where
  ret : r.ret = r'.ret
  value : r.value = r'.value

variable {m m' : Memory} {a a' : ℕ}

theorem SameFrom.read (h : SameFrom m a m' a') (n : ℕ) : m.read a n = m'.read a' n := by
  rw [Memory.read_eq_bytes, Memory.read_eq_bytes]
  exact List.map_congr_left fun i _ => h i

theorem SameFrom.add (h : SameFrom m a m' a') (k : ℕ) : SameFrom m (a + k) m' (a' + k) := by
  intro i
  rw [Nat.add_assoc, Nat.add_assoc]
  exact h (k + i)

theorem SameDecoding.elems {α : Type} {f f' : ℕ → UInt32 → Unserialized α}
    (hf : ∀ k size, SameDecoding (f (a + k) size) (f' (a' + k) size)) (size : UInt32) :
    ∀ (count : ℕ) (len : UInt32), SameDecoding (unserializeElems f a size count len)
      (unserializeElems f' a' size count len)
  | 0, _ => ⟨rfl, rfl⟩
  | count + 1, len => by
    obtain ⟨hret, hvalue⟩ := hf len.toNat (size - len)
    have hrest := SameDecoding.elems hf size count
    simp only [unserializeElems, hret, hvalue]
    split_ifs
    · exact ⟨rfl, rfl⟩
    · obtain ⟨hret', hvalue'⟩ := hrest (len + (f' (a' + len.toNat) (size - len)).ret)
      exact ⟨hret', by simp only [hvalue']⟩

mutual

theorem Ty.sameDecoding : (t : Ty) → {m m' : Memory} → {a a' : ℕ} → SameFrom m a m' a' →
    (size : UInt32) → SameDecoding (t.Unserialize m a size) (t.Unserialize m' a' size)
  | .scalar k, _, _, _, _, h, size => by
    simp only [Ty.Unserialize, h.read]
    split_ifs <;> exact ⟨rfl, rfl⟩
  | .array e n, _, _, _, _, h, size => by
    simp only [Ty.Unserialize, h.read]
    split_ifs <;> exact ⟨rfl, rfl⟩
  | .string, _, _, _, _, h, size => by
    simp only [Ty.Unserialize, h.read, (h.add 2).read]
    split_ifs <;> exact ⟨rfl, rfl⟩
  | .vector t, m, m', a, a', h, size => by
    have helems := @SameDecoding.elems a a' t.Val (fun b s => t.Unserialize m b s)
      (fun b s => t.Unserialize m' b s) (fun k s => t.sameDecoding (h.add k) s) size
    simp only [Ty.Unserialize, h.read]
    split_ifs
    · exact ⟨rfl, rfl⟩
    · exact ⟨rfl, rfl⟩
    · exact ⟨(helems _ _).ret, (helems _ _).value⟩
  | .struct ms, _, _, _, _, h, size => by
    simp only [Ty.Unserialize]
    exact ms.sameDecoding h size 0

theorem Members.sameDecoding : (ms : Members) → {m m' : Memory} → {a a' : ℕ} →
    SameFrom m a m' a' → (size len : UInt32) →
    SameDecoding (ms.Unserialize m a size len) (ms.Unserialize m' a' size len)
  | .nil, _, _, _, _, _, _, _ => ⟨rfl, rfl⟩
  | .cons t ms, m, m', a, a', h, size, len => by
    obtain ⟨hret, hvalue⟩ := t.sameDecoding (h.add len.toNat) (size - len)
    have hrest := ms.sameDecoding h size
    simp only [Members.Unserialize, hret, hvalue]
    split_ifs
    · exact ⟨rfl, rfl⟩
    · obtain ⟨hret', hvalue'⟩ := hrest (len + (t.Unserialize m' (a' + len.toNat) (size - len)).ret)
      exact ⟨hret', by simp only [hvalue']⟩

end

theorem SameFrom.handlerWrapper (h : SameFrom m a m' a') (msg : Message) (bodyLen : UInt32) :
    msg.handlerWrapper m a bodyLen = msg.handlerWrapper m' a' bodyLen := by
  obtain ⟨hret, hvalue⟩ := msg.members.sameDecoding h bodyLen 0
  unfold Message.handlerWrapper Message.Unserialize
  simp only [hret, hvalue]

end

/-! A decoding that gives the same when it starts one header later depends on nothing. -/

section

variable {α β : Type} {D : (ℕ → β) → Option α} {len : ℕ}

theorem decode_of_later
    (h : ∀ f g : ℕ → β, (∀ i < len, g i = f i) → ∀ v, D (fun i => f (i + 4)) = some v → D g = some v)
    (f g : ℕ → β) {v : α} (hv : D f = some v) : D g = some v := by
  have hback : ∀ k f, D (fun i => f (i + 4 * k)) = some v → D f = some v := by
    intro k
    induction k with
    | zero => exact fun f hf => hf
    | succ k ih =>
      intro f hf
      refine h f f (fun _ _ => rfl) v (ih (fun i => f (i + 4)) ?_)
      rw [← hf]
      rfl
  let w : ℕ → β := fun i => if i < 4 * (len + 1) then g i else f (i - 4 * (len + 1))
  have hw : (fun i => w (i + 4 * (len + 1))) = f := by
    funext i
    have hi : ¬ i + 4 * (len + 1) < 4 * (len + 1) := by omega
    simp only [w, if_neg hi, Nat.add_sub_cancel]
  refine h w g ?_ v (hback len (fun i => w (i + 4)) (hv ▸ congrArg D hw))
  intro i hi
  have hlt : i < 4 * (len + 1) := by omega
  simp only [w, if_pos hlt]

theorem decode_of_earlier
    (h : ∀ f g : ℕ → β, (∀ i < len, g i = f (i + 4)) → ∀ v, D f = some v → D g = some v)
    (f g : ℕ → β) {v : α} (hv : D f = some v) : D g = some v := by
  have hon : ∀ k f, D f = some v → D (fun i => f (i + 4 * k)) = some v := by
    intro k
    induction k with
    | zero => exact fun f hf => hf
    | succ k ih =>
      intro f hf
      exact ih (fun i => f (i + 4)) (h f _ (fun _ _ => rfl) v hf)
  let w : ℕ → β := fun i => if i < 4 * len then f (i + 4) else g (i - 4 * len)
  have hw : (fun i => w (i + 4 * len)) = g := by
    funext i
    have hi : ¬ i + 4 * len < 4 * len := by omega
    simp only [w, if_neg hi, Nat.add_sub_cancel]
  have hfirst : D w = some v := by
    refine h f w ?_ v hv
    intro i hi
    have hlt : i < 4 * len := by omega
    simp only [w, if_pos hlt]
  exact hw ▸ hon len w hfirst

end

/-- The bytes at the address `0`, and on. -/
def streamOf (f : ℕ → UInt8) : Memory := ⟨f, []⟩

theorem sameFrom_streamOf (m : Memory) (a : ℕ) :
    SameFrom m a (streamOf fun i => m.bytes (a + i)) 0 := by
  intro i
  simp [streamOf]

theorem read_eq_read {m m' : Memory} {a a' n : ℕ} (h : ∀ i < n, m.bytes (a + i) = m'.bytes (a' + i)) :
    m.read a n = m'.read a' n := by
  rw [Memory.read_eq_bytes, Memory.read_eq_bytes]
  exact List.map_congr_left fun i hi => h i (List.mem_range.mp hi)

theorem bytes_of_read {m m' : Memory} {a a' n i : ℕ} (h : m.read a n = m'.read a' n) (hi : i < n) :
    m.bytes (a + i) = m'.bytes (a' + i) := by
  rw [Memory.read_eq_bytes, Memory.read_eq_bytes] at h
  exact List.map_inj_left.mp h i (List.mem_range.mpr hi)

/-- How far behind the `MsgHdr` the body is put, and looked for. -/
def HdrType.ids : HdrType → ℕ
  | client => clientIds
  | proxy => proxyIds

theorem HdrType.sizeof_eq (hdrType : HdrType) : hdrType.sizeof = sizeofMsgHdr + hdrType.ids := by
  cases hdrType <;> rfl

/-- What is found `ids` bytes on is right, whatever else is in the memory. -/
theorem dependsOn_of_found {msg : Message} {len : ℕ} {put found : HdrType}
    (h : ∀ f g : ℕ → UInt8, (∀ i < len, g i = f (i + put.ids)) → ∀ v,
      msg.handlerWrapper (streamOf fun i => f (i + found.ids)) 0 (UInt32.ofNat len) = some v →
      msg.handlerWrapper (streamOf g) 0 (UInt32.ofNat len) = some v) :
    msg.DependsOn len (if found = put then len else 0) := by
  let D : (ℕ → UInt8) → Option msg.Val := fun f =>
    msg.handlerWrapper (streamOf f) 0 (UInt32.ofNat len)
  have hD : ∀ f g : ℕ → UInt8, (∀ i < if found = put then len else 0, f i = g i) →
      ∀ v, D f = some v → D g = some v := by
    intro f g hfg v hv
    cases found with
    | client =>
      cases put with
      | client => exact h f g (fun i hi => (hfg i (by simpa using hi)).symm) v hv
      | proxy => exact decode_of_earlier h f g hv
    | proxy =>
      cases put with
      | client => exact decode_of_later h f g hv
      | proxy =>
        have hpad : ∀ f : ℕ → UInt8, (fun i => (fun j => f (j - proxyIds)) (i + proxyIds)) = f :=
          fun f => funext fun i => by simp
        refine h (fun j => f (j - proxyIds)) g ?_ v (by rw [show HdrType.proxy.ids = proxyIds from rfl, hpad]; exact hv)
        intro i hi
        simp [HdrType.ids, hfg i (by simpa using hi)]
  intro m a m' a' hread
  rw [(sameFrom_streamOf m a).handlerWrapper, (sameFrom_streamOf m' a').handlerWrapper]
  apply Option.ext
  intro v
  exact ⟨hD _ _ (fun i hi => bytes_of_read hread hi) v,
    hD _ _ (fun i hi => (bytes_of_read hread hi).symm) v⟩

section

variable {own : ℕ → Option Holder} {free : Fin MEMPOOL_NUM → List ℕ} {bus : List Block}
  {m : Memory} {s : MessageBus} {b : Block} {h : MsgHandler} {shape : MsgShape}

theorem Block.Full.hdr (hb : b.Full m) :
    MsgHdr.ofBytes (m.read b.buffer sizeofMsgHdr) = b.msg.hdr.msgHdr ∧
      m.read (b.buffer + b.msg.hdr.sizeof) b.msg.msgBody.length = b.msg.msgBody := by
  have hmsg := (Memory.holds_append.mp hb).2
  rw [PushMsg.sizeWord, length_le] at hmsg
  have hread := block_read b.msg.int_le b.msg.int_lt hmsg
  rwa [← Nat.add_assoc] at hread

theorem wrapper_typed (hb : b.Full m) (hdrType : HdrType) (msg : Message) :
    (Handler.typed hdrType msg).m_Wrapper m b.buffer =
      (msg.handlerWrapper m (b.buffer + hdrType.sizeof) b.msg.hdr.msgHdr.bodyLen).map
        (.typed (m.read b.buffer hdrType.sizeof) msg) := by
  simp only [Handler.m_Wrapper, hb.hdr.1]

theorem MsgHdrType.sizeof_hdrType (hdr : MsgHdrType) : hdr.hdrType.sizeof = hdr.sizeof := by
  cases hdr <;> rfl

/-- The function registered for the command of the block is not misled in this memory. -/
def Block.Heard (b : Block) (h : MsgHandler) (m : Memory) : Prop :=
  ∃ hc : b.msg.hdr.msgHdr.cmdID.toNat < MAX_MSG_NUM,
    ∀ handler ∈ h.m_HandlerList ⟨b.msg.hdr.msgHdr.cmdID.toNat, hc⟩,
      ∀ c ∈ handler.m_Wrapper m b.buffer, c.Exact b.msg.msgBody

theorem exact_of_suits {handler : Handler} (hb : b.Full m)
    (htype : b.msg.hdr.hdrType = shape.hdrType) (hlen : b.msg.msgBody.length = shape.len)
    (hs : handler.Suits shape) : ∀ c ∈ handler.m_Wrapper m b.buffer, c.Exact b.msg.msgBody := by
  obtain ⟨hhdr, hbody⟩ := hb.hdr
  have hbodyLen := b.msg.fits.bodyLen
  have hofNat : UInt32.ofNat b.msg.msgBody.length = b.msg.hdr.msgHdr.bodyLen := by
    rw [← hbodyLen, UInt32.ofNat_toNat]
  rw [← b.msg.hdr.sizeof_hdrType] at hbody
  intro c hc
  cases handler with
  | typed hdrType msg =>
    rw [wrapper_typed hb, ← hofNat, Option.mem_def, Option.map_eq_some_iff] at hc
    obtain ⟨v, hv, rfl⟩ := hc
    intro m' a' hread
    rw [← hv, hlen]
    refine (hs _ _ _ _ ?_).symm
    split_ifs with ht
    · rw [ht, ← htype, ← hlen, hbody, hread]
    · rfl
  | struct hdrType sizeofStruct =>
    obtain ⟨hle, ht⟩ := hs
    simp only [Handler.m_Wrapper, hhdr, Option.mem_def, Option.some.injEq] at hc
    subst hc
    simp only [HandlerCall.Exact]
    rw [hbodyLen, max_eq_right (hlen ▸ hle)]
    rcases ht with rfl | hzero
    · rw [← htype, hbody]
    · rw [hlen, hzero, List.eq_nil_of_length_eq_zero (hlen.trans hzero)]
      rfl

/-- One round of the loop. -/
theorem loop_cons (h : MsgHandler) (ho : Owned own free (b :: bus) s) (msgQueue : List ℕ) :
    ∃ own' free' t, Owned own' free' bus t ∧ h.loop (b.buffer :: msgQueue) s =
      if hc : b.msg.hdr.msgHdr.cmdID.toNat < MAX_MSG_NUM then
        (h.loop msgQueue t).map fun r =>
          ((h.m_HandlerList ⟨_, hc⟩).bind (fun handler => handler.m_Wrapper s.mem b.buffer) :: r.1,
            r.2)
      else none := by
  obtain ⟨hhdr, -⟩ := (ho.bus.full b List.mem_cons_self).hdr
  obtain ⟨m', g, hfree, -, own', free', ho'⟩ := ho.release
  refine ⟨own', free', _, ho', ?_⟩
  simp only [MsgHandler.loop, hhdr, hfree, Option.bind_some]

theorem loop_heard (ho : Owned own free bus s) (hb : ∀ b ∈ bus, ∀ m, b.Full m → b.Heard h m) :
    ∃ calls t, h.loop (bus.map Block.buffer) s = some (calls, t) ∧
      List.Forall₂ (fun msg call => ∀ c ∈ call, c.Exact msg.msgBody) (bus.map Block.msg) calls := by
  induction bus generalizing own free s with
  | nil => exact ⟨[], s, rfl, .nil⟩
  | cons b bus ih =>
    obtain ⟨own', free', t, ho', hloop⟩ := loop_cons h ho (bus.map Block.buffer)
    obtain ⟨hc, hcalls⟩ := hb b List.mem_cons_self s.mem (ho.bus.full b List.mem_cons_self)
    obtain ⟨calls, u, hu, hall⟩ := ih ho' fun b' hb' => hb b' (List.mem_cons_of_mem _ hb')
    rw [dif_pos hc, hu] at hloop
    refine ⟨_, u, hloop, .cons ?_ hall⟩
    intro c hmem
    obtain ⟨handler, hhandler, hcall⟩ := Option.bind_eq_some_iff.mp hmem
    exact hcalls handler hhandler c hcall

theorem heard_of_dispatches (ho : Owned own free [b] s)
    (hq : s.global.m_MsgQueue = [b.buffer]) (hd : h.Dispatches [b.msg] s) : b.Heard h s.mem := by
  obtain ⟨calls, t, hrun, hall⟩ := hd
  have ho' : Owned own free [b]
      { s with global := { s.global with m_MsgQueue := [] } } :=
    ⟨ho.wf, ho.live, ho.pool, ho.thread, ho.bus⟩
  obtain ⟨-, -, u, -, hloop⟩ := loop_cons h ho' []
  rw [MsgHandler.ProcessMsg, hq, hloop] at hrun
  split_ifs at hrun with hc
  obtain ⟨rfl, -⟩ := Prod.mk.inj (Option.some.inj hrun)
  obtain ⟨hcall, -⟩ := List.forall₂_cons.mp hall
  refine ⟨hc, fun handler hhandler c hmem => hcall c ?_⟩
  exact Option.bind_eq_some_iff.mpr ⟨handler, hhandler, hmem⟩

end

/-! One block in a memory that is anything behind its header. -/

theorem chunkSize_lt (msg : PushMsg) : chunkSize msg.size < 2 ^ 40 := by
  have hbody : msg.hdr.msgHdr.bodyLen.toNat < 2 ^ 32 := UInt32.toNat_lt _
  have hsizeof : msg.hdr.sizeof ≤ 20 := by
    cases msg.hdr with
    | client hdr => exact (by decide : sizeofClientMsgHdr ≤ 20)
    | proxy hdr => exact (by decide : sizeofProxyMsgHdr ≤ 20)
  by_cases hle : msg.size ≤ maxPoolSize
  · have hpow : 2 ^ (poolIndex msg.size hle : ℕ) ≤ 2 ^ MEMPOOL_NUM :=
      Nat.pow_le_pow_right (by decide) (poolIndex msg.size hle).isLt.le
    have hlast : 2 ^ MEMPOOL_NUM = 1024 := rfl
    rw [chunkSize_of_le hle, sizeofMemBlock, MIN_MEMBLOCK_SIZE]
    omega
  · rw [chunkSize_of_lt hle, PushMsg.size, sizeofSizeT]
    omega

/-- The bus with one block, in the first chunk that was ever taken. -/
def MessageBus.single (msg : PushMsg) (m : Memory) : MessageBus :=
  { MessageBus.Init with
    mem := m
    global := { GlobalObject.Init with m_MsgQueue := [(Block.mk msg 8).buffer] } }

theorem owned_single {msg : PushMsg} {m : Memory} (hm : m.chunks = [(8, chunkSize msg.size)])
    (hfull : (Block.mk msg 8).Full m) :
    Owned (fun a => if a = 8 then some .bus else none) (fun _ => []) [⟨msg, 8⟩]
      (MessageBus.single msg m) where
  wf := by
    have hpos := chunkSize_pos msg
    have hlt := chunkSize_lt msg
    refine ⟨by simp [MessageBus.single, hm], ?_⟩
    simp only [MessageBus.single, hm, List.forall_mem_singleton]
    omega
  live a x ha := by
    split_ifs at ha with h8
    exact ⟨_, by simp [MessageBus.single, hm, h8]; rfl⟩
  pool i := ⟨rfl, List.nodup_nil, fun a ha => absurd ha List.not_mem_nil⟩
  thread i := threadOk_of_none rfl fun _ _ _ he => nomatch he
  bus := ⟨by simp, fun b hb => List.mem_singleton.mp hb ▸ hfull, by simp⟩

theorem queued_single {msg : PushMsg} {m : Memory} (hm : m.chunks = [(8, chunkSize msg.size)])
    (hfull : (Block.mk msg 8).Full m) : (MessageBus.single msg m).Queued [msg] :=
  ⟨_, _, [⟨msg, 8⟩], owned_single hm hfull, rfl, rfl⟩

/-- The memory of one block, with the bytes `f` behind its `MsgHdr`. -/
def blockMemory (msg : PushMsg) (f : ℕ → UInt8) : Memory :=
  Memory.write ⟨fun x => f (x - ((Block.mk msg 8).buffer + sizeofMsgHdr)),
    [(8, chunkSize msg.size)]⟩ (8 + chunkOffset msg.size) (msg.sizeWord ++ msg.hdr.msgHdr.toBytes)

theorem chunks_blockMemory (msg : PushMsg) (f : ℕ → UInt8) :
    (blockMemory msg f).chunks = [(8, chunkSize msg.size)] := rfl

theorem blockMemory_bytes (msg : PushMsg) (f : ℕ → UInt8) (i : ℕ) :
    (blockMemory msg f).bytes ((Block.mk msg 8).buffer + sizeofMsgHdr + i) = f i := by
  have hlen : (msg.sizeWord ++ msg.hdr.msgHdr.toBytes).length = sizeofSizeT + sizeofMsgHdr := by
    simp [PushMsg.sizeWord]
  have hbuffer : (Block.mk msg 8).buffer = 8 + chunkOffset msg.size + sizeofSizeT := rfl
  have hout : ¬ (Block.mk msg 8).buffer + sizeofMsgHdr + i <
      8 + chunkOffset msg.size + (sizeofSizeT + sizeofMsgHdr) := by omega
  simp [blockMemory, Memory.write, hlen, hout]

theorem blockMemory_full {msg : PushMsg} {f : ℕ → UInt8}
    (hf : (streamOf f).read 0 (msg.hdr.ids ++ msg.msgBody).length = msg.hdr.ids ++ msg.msgBody) :
    (Block.mk msg 8).Full (blockMemory msg f) := by
  have hbytes : msg.bytes = (msg.sizeWord ++ msg.hdr.msgHdr.toBytes) ++ (msg.hdr.ids ++ msg.msgBody) := by
    simp [PushMsg.bytes, MsgHdrType.toBytes]
  have hfits := block_fits msg.size
  have hlen := congrArg List.length hbytes
  rw [msg.length_bytes, List.length_append] at hlen
  change Memory.Holds _ 8 (chunkSize msg.size) (chunkOffset msg.size) msg.bytes
  rw [hbytes]
  refine Memory.holds_append.mpr ⟨Memory.holds_write (List.mem_singleton_self _) (by omega), ?_⟩
  refine ⟨List.mem_singleton_self _, by omega, ?_⟩
  rw [← hf, Memory.length_read]
  apply read_eq_read
  intro i _
  have hat : 8 + (chunkOffset msg.size + (msg.sizeWord ++ msg.hdr.msgHdr.toBytes).length) =
      (Block.mk msg 8).buffer + sizeofMsgHdr := by
    simp only [Block.buffer, Block.ptr, PushMsg.sizeWord, List.length_append, length_le,
      MsgHdr.length_toBytes]
    omega
  rw [hat, blockMemory_bytes]
  simp [streamOf]

theorem splitId_bytes (a b : UInt8) : UInt8.ofNat ((SPLIT_ID a b).toNat >>> 8) = a ∧
    UInt8.ofNat (SPLIT_ID a b).toNat = b := by
  have ha := a.toNat_lt
  have hb := b.toNat_lt
  have hid : (SPLIT_ID a b).toNat = 256 * a.toNat + b.toNat := by
    simp only [SPLIT_ID, UInt16.toNat_add, UInt16.toNat_shiftLeft, UInt8.toNat_toUInt16,
      UInt16.toNat_ofNat, Nat.shiftLeft_eq, Nat.reducePow, Nat.reduceMod]
    omega
  rw [hid, Nat.shiftRight_eq_div_pow]
  constructor
  · apply UInt8.toNat_inj.mp
    rw [UInt8.toNat_ofNat']
    omega
  · apply UInt8.toNat_inj.mp
    rw [UInt8.toNat_ofNat']
    omega

/-- A message of the shape, with the bytes `f` behind the `MsgHdr`. -/
def MsgShape.wireMsg (shape : MsgShape) (f : ℕ → UInt8) : WireMsg where
  kind := match shape.hdrType with
    | .client => .gameClient
    | .proxy => .clientConn 0
  frame :=
    { cmd := shape.cmdID
      target := match shape.hdrType with
        | .client => 0
        | .proxy => SPLIT_ID (f 0) (f 1)
      source := match shape.hdrType with
        | .client => 0
        | .proxy => SPLIT_ID (f 2) (f 3)
      body := (streamOf f).read shape.hdrType.ids shape.len
      cmd_lt := shape.cmd_lt
      body_le := by
        rw [Memory.length_read]
        exact shape.len_le }
  id := 0
  int := by decide

theorem shape_wireMsg (shape : MsgShape) (f : ℕ → UInt8) : (shape.wireMsg f).shape = shape := by
  obtain ⟨hdrType, cmdID, len, hcmd, hlen⟩ := shape
  cases hdrType with
  | client => simp [WireMsg.shape, MsgShape.wireMsg, WireMsg.pushMsg, PushMsg.ofRecv, onRecv,
      GameClient.onRecv, Frame.recv, MsgHdrType.hdrType]
  | proxy => simp [WireMsg.shape, MsgShape.wireMsg, WireMsg.pushMsg, PushMsg.ofRecv, onRecv,
      ClientConn.onRecv, MsgHdrType.hdrType]

theorem bytes_wireMsg (shape : MsgShape) (f : ℕ → UInt8) :
    (shape.wireMsg f).pushMsg.hdr.ids ++ (shape.wireMsg f).pushMsg.msgBody =
      (streamOf f).read 0 (shape.hdrType.ids + shape.len) := by
  obtain ⟨hdrType, cmdID, len, hcmd, hlen⟩ := shape
  rw [Memory.read_add, Nat.zero_add]
  cases hdrType with
  | client => simp [MsgShape.wireMsg, WireMsg.pushMsg, PushMsg.ofRecv, onRecv,
      GameClient.onRecv, Frame.recv, MsgHdrType.ids, HdrType.ids, clientIds, Memory.read]
  | proxy =>
    simp [MsgShape.wireMsg, WireMsg.pushMsg, PushMsg.ofRecv, onRecv, ClientConn.onRecv,
      Frame.recv, MsgHdrType.ids, ProxyMsgHdr.ofIds, HdrType.ids, proxyIds, Memory.read,
      streamOf, (splitId_bytes _ _).1]
    exact ⟨(splitId_bytes _ _).2, (splitId_bytes _ _).2⟩

theorem cmdID_pushMsg (w : WireMsg) : w.pushMsg.hdr.msgHdr.cmdID = w.frame.cmd := by
  have hcmd : UInt32.ofInt w.frame.recv.cmd = w.frame.cmd := ofInt_toNat w.frame.cmd
  obtain ⟨kind, frame, id, hid⟩ := w
  cases kind with
  | gameClient =>
    simp only [WireMsg.pushMsg, PushMsg.ofRecv, onRecv, GameClient.onRecv]
    split_ifs <;> exact hcmd
  | clientConn ss => exact hcmd

/-- A block of this shape is in the memory, and the bytes `f` behind its `MsgHdr`. -/
structure Placed (shape : MsgShape) (f : ℕ → UInt8) (b : Block) (m : Memory) : Prop where
  hdrType : b.msg.hdr.hdrType = shape.hdrType
  cmdID : b.msg.hdr.msgHdr.cmdID = shape.cmdID
  len : b.msg.msgBody.length = shape.len
  full : b.Full m
  bytes : ∀ i, m.bytes (b.buffer + sizeofMsgHdr + i) = f i

theorem placed_wireMsg (shape : MsgShape) (f : ℕ → UInt8) :
    Placed shape f ⟨(shape.wireMsg f).pushMsg, 8⟩ (blockMemory (shape.wireMsg f).pushMsg f) where
  hdrType := congrArg MsgShape.hdrType (shape_wireMsg shape f)
  cmdID := cmdID_pushMsg (shape.wireMsg f)
  len := Memory.length_read _ _ _
  full := by
    apply blockMemory_full
    rw [bytes_wireMsg, Memory.length_read]
  bytes := blockMemory_bytes _ f

/-- The body of such a block. -/
theorem Placed.body {shape : MsgShape} {f : ℕ → UInt8} {b : Block} {m : Memory}
    (h : Placed shape f b m) : b.msg.msgBody = (streamOf f).read shape.hdrType.ids shape.len := by
  obtain ⟨-, hbody⟩ := h.full.hdr
  rw [← b.msg.hdr.sizeof_hdrType, h.hdrType, HdrType.sizeof_eq, h.len] at hbody
  rw [← hbody]
  apply read_eq_read
  intro i _
  rw [← Nat.add_assoc, Nat.add_assoc _ _ i, h.bytes]
  rfl

/-- A function that is right whatever the bytes are suits the shape. -/
theorem suits_of_exact {handler : Handler} {shape : MsgShape}
    (h : ∀ f, ∃ b m, Placed shape f b m ∧
      ∀ c ∈ handler.m_Wrapper m b.buffer, c.Exact b.msg.msgBody) : handler.Suits shape := by
  have hsize (b : Block) (hb : b.msg.msgBody.length = shape.len) :
      b.msg.hdr.msgHdr.bodyLen = UInt32.ofNat shape.len := by
    rw [← hb, ← b.msg.fits.bodyLen, UInt32.ofNat_toNat]
  cases handler with
  | typed hdrType msg =>
    apply dependsOn_of_found
    intro f g hfg v hv
    obtain ⟨b, m, hp, hc⟩ := h f
    have hsame : SameFrom (streamOf fun i => f (i + hdrType.ids)) 0 m
        (b.buffer + hdrType.sizeof) := by
      intro i
      rw [HdrType.sizeof_eq, ← Nat.add_assoc, Nat.add_assoc _ _ i, hp.bytes, Nat.add_comm _ i]
      exact congrArg f (Nat.add_comm i _)
    rw [hsame.handlerWrapper] at hv
    have hcall := wrapper_typed hp.full hdrType msg
    rw [hsize b hp.len, hv] at hcall
    have hexact := hc _ hcall
    rw [← hp.len]
    apply hexact
    rw [hp.body, Memory.length_read]
    apply read_eq_read
    intro i hi
    simp [streamOf, hfg i hi, Nat.add_comm]
  | struct hdrType sizeofStruct =>
    let f : ℕ → UInt8 := fun i => if i = hdrType.ids then 1 else 0
    obtain ⟨b, m, hp, hc⟩ := h f
    have hexact := hc (.struct _ _) (by
      simp only [Handler.m_Wrapper, hp.full.hdr.1]
      rfl)
    simp only [HandlerCall.Exact, b.msg.fits.bodyLen, hp.len] at hexact
    have hlen := congrArg List.length hexact
    rw [Memory.length_read, hp.len] at hlen
    refine ⟨by omega, ?_⟩
    by_contra hnot
    obtain ⟨hne, hpos⟩ := not_or.mp hnot
    have hids : shape.hdrType.ids ≠ hdrType.ids := by
      cases hs : shape.hdrType <;> cases hdrType <;> simp_all [HdrType.ids, clientIds, proxyIds]
    have hread : m.read (b.buffer + hdrType.sizeof) shape.len =
        (streamOf f).read shape.hdrType.ids shape.len := by
      rw [← hp.body, ← hexact, max_eq_right (by omega)]
    have hfirst := bytes_of_read (i := 0) hread (Nat.pos_of_ne_zero hpos)
    rw [HdrType.sizeof_eq, ← Nat.add_assoc, Nat.add_assoc _ _ 0, hp.bytes] at hfirst
    simp [streamOf, f, hids] at hfirst

theorem suits_of_heard {h : MsgHandler} {shape : MsgShape}
    (hh : ∀ f, ∃ b m, Placed shape f b m ∧ b.Heard h m) : h.Suits shape := by
  obtain ⟨b, m, hp, hc, -⟩ := hh fun _ => 0
  rw [hp.cmdID] at hc
  refine ⟨hc, fun handler hhandler => suits_of_exact fun f => ?_⟩
  obtain ⟨b', m', hp', hc', hcalls⟩ := hh f
  refine ⟨b', m', hp', hcalls handler ?_⟩
  simpa only [hp'.cmdID] using hhandler

theorem heard_of_suits {h : MsgHandler} {w : WireMsg} {b : Block} {m : Memory}
    (hs : h.Suits w.shape) (hb : b.msg = w.pushMsg) (hfull : b.Full m) : b.Heard h m := by
  have hcmd : b.msg.hdr.msgHdr.cmdID = w.shape.cmdID := by rw [hb, cmdID_pushMsg]; rfl
  obtain ⟨hc, hhandlers⟩ := hs
  refine ⟨by rwa [hcmd], fun handler hhandler => ?_⟩
  refine exact_of_suits hfull (by rw [hb]; rfl) (by rw [hb]; rfl) (hhandlers handler ?_)
  simpa only [hcmd] using hhandler

/-- Every queue of messages with these shapes is dispatched as it should be, and only then if
each shape suits the functions registered. -/
theorem typed_dispatch_iff (h : MsgHandler) (shapes : MsgShape → Prop) :
    (∀ (ws : List WireMsg) (s : MessageBus), (∀ w ∈ ws, shapes w.shape) →
        MessageBus.Queued (ws.map WireMsg.pushMsg) s → h.Dispatches (ws.map WireMsg.pushMsg) s) ↔
      ∀ shape, shapes shape → h.Suits shape := by
  constructor
  · intro hall shape hshape
    apply suits_of_heard
    intro f
    have hp := placed_wireMsg shape f
    have hchunks := chunks_blockMemory (shape.wireMsg f).pushMsg f
    have hd := hall [shape.wireMsg f] _ (by simpa [shape_wireMsg] using hshape)
      (queued_single hchunks hp.full)
    have hheard := heard_of_dispatches (owned_single hchunks hp.full) rfl hd
    exact ⟨_, _, hp, hheard⟩
  · rintro hsuits ws s hws ⟨own, free, bus, ho, hmsgs, hq⟩
    have ho' : Owned own free bus { s with global := { s.global with m_MsgQueue := [] } } :=
      ⟨ho.wf, ho.live, ho.pool, ho.thread, ho.bus⟩
    rw [MsgHandler.Dispatches, MsgHandler.ProcessMsg, hq, ← hmsgs]
    apply loop_heard ho'
    intro b hb m hfull
    have hmem : b.msg ∈ ws.map WireMsg.pushMsg := hmsgs ▸ List.mem_map_of_mem hb
    obtain ⟨w, hw, hmsg⟩ := List.mem_map.mp hmem
    exact heard_of_suits (hsuits _ (hws w hw)) hmsg.symm hfull

/-- The queue of a logic thread that asks for it, in any run of the bus. -/
theorem queued_of_run {es : List BusEvent} {s : MessageBus}
    (h : Transition.run MessageBus.step es .Init = some s) (hl : s.logic = .getMsgQueue) :
    s.Queued ((s.inserted.drop s.freed.length).map Inserted.msg) := by
  obtain ⟨own, free, done, bus, ho, hlogs⟩ := (busInv_run h).inv
  have hmsgs := congrArg (List.map Prod.fst) hlogs.inserted
  have hwaiting := hlogs.waiting
  rw [hl, hlogs.idle hl] at hwaiting
  refine ⟨own, free, bus, ho, ?_, by simpa [Popper.hdr] using hwaiting⟩
  simp only [List.map_map, Function.comp_def, List.map_append] at hmsgs
  rw [List.map_drop, hmsgs, hlogs.freed, List.length_map]
  exact (List.drop_left' (List.length_map _)).symm

/-- A message with one byte. -/
def byteMessage : Message := ⟨.cons (.scalar .UInt8) .nil, by decide⟩

theorem decode_zero : byteMessage.handlerWrapper (streamOf fun _ => 0) 0 1 =
    some ((0 : BitVec 8), ()) := rfl

theorem decode_seven : byteMessage.handlerWrapper (streamOf fun _ => 7) 0 1 =
    some ((7 : BitVec 8), ()) := rfl

/-- A command past the table, and the byte 7 for a function that wants a proxy header. -/
theorem typed_dispatch_unsafe :
    let past : WireMsg := ⟨.gameClient, ⟨0x500, 0, 0, [], by decide, by decide⟩, 0, by decide⟩
    let seven : WireMsg := ⟨.gameClient, ⟨5, 0, 0, [7], by decide, by decide⟩, 0, by decide⟩
    (∃ s : MessageBus, s.Queued [past.pushMsg] ∧ ∀ h : MsgHandler, h.ProcessMsg s = none) ∧
      ∃ (h : MsgHandler) (s : MessageBus),
        MsgHandler.new.RegisterMsgHandler 5 (.typed .proxy byteMessage) = some h ∧
        s.Queued [seven.pushMsg] ∧ ¬ h.Dispatches [seven.pushMsg] s := by
  intro past seven
  constructor
  · have hfull : (Block.mk past.pushMsg 8).Full (blockMemory past.pushMsg fun _ => 0) :=
      blockMemory_full rfl
    have ho := owned_single (chunks_blockMemory past.pushMsg fun _ => 0) hfull
    refine ⟨_, queued_single (chunks_blockMemory _ _) hfull, fun h => ?_⟩
    have ho' : Owned _ _ [⟨past.pushMsg, 8⟩] { MessageBus.single past.pushMsg
        (blockMemory past.pushMsg fun _ => 0) with global := { GlobalObject.Init with m_MsgQueue := [] } } :=
      ⟨ho.wf, ho.live, ho.pool, ho.thread, ho.bus⟩
    obtain ⟨-, -, t, -, hloop⟩ := loop_cons h ho' []
    have hpast : ¬ (Block.mk past.pushMsg 8).msg.hdr.msgHdr.cmdID.toNat < MAX_MSG_NUM := by decide
    rw [dif_neg hpast] at hloop
    exact hloop
  · let f : ℕ → UInt8 := fun i => if i = 0 then 7 else 0
    have hfull : (Block.mk seven.pushMsg 8).Full (blockMemory seven.pushMsg f) :=
      blockMemory_full rfl
    refine ⟨_, _, rfl, queued_single (chunks_blockMemory _ _) hfull, fun hd => ?_⟩
    obtain ⟨hc, hcalls⟩ := heard_of_dispatches (owned_single (chunks_blockMemory _ f) hfull) rfl hd
    have hzero : SameFrom (streamOf fun _ => 0) 0 (blockMemory seven.pushMsg f)
        ((Block.mk seven.pushMsg 8).buffer + HdrType.proxy.sizeof) := by
      intro i
      rw [HdrType.sizeof_eq, ← Nat.add_assoc, Nat.add_assoc _ _ i, blockMemory_bytes]
      exact (if_neg (by rw [HdrType.ids, proxyIds]; omega)).symm
    have hlen : (Block.mk seven.pushMsg 8).msg.hdr.msgHdr.bodyLen = 1 := rfl
    have hcall := wrapper_typed hfull .proxy byteMessage
    rw [← hzero.handlerWrapper, hlen, decode_zero] at hcall
    have hexact := hcalls _ rfl _ hcall (streamOf fun _ => 7) 0 rfl
    have hbyte : (0 : BitVec 8) = 7 :=
      congrArg Prod.fst (Option.some.inj (hexact.symm.trans decode_seven))
    exact absurd hbyte (by decide)

end RgcFifa
