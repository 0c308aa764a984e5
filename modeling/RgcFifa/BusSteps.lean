import RgcFifa.MessageBus

/-! What a step of the bus can do, said once for a thread that is pushing and once for
the logic thread, and where a message stands in the memory its block is taken from. -/

namespace RgcFifa

open ByteWords

/-- What `AllocMsgBlock` takes for a block of `size` bytes, and where it puts the block. -/
def chunkSize (size : ℕ) : ℕ :=
  if h : size ≤ maxPoolSize then
    sizeofMemBlock + MIN_MEMBLOCK_SIZE * 2 ^ (poolIndex size h : ℕ)
  else size

def chunkOffset (size : ℕ) : ℕ := if size ≤ maxPoolSize then DATA_OFFSET else 0

theorem block_fits (size : ℕ) : chunkOffset size + size ≤ chunkSize size := by
  by_cases h : size ≤ maxPoolSize
  · have hle : size ≤ MIN_MEMBLOCK_SIZE * 2 ^ (poolIndex size h : ℕ) := (poolLoop_le h).2
    rw [chunkOffset, chunkSize, if_pos h, dif_pos h, DATA_OFFSET, sizeofMemBlock]
    omega
  · rw [chunkOffset, chunkSize, if_neg h, dif_neg h]
    omega

theorem PushMsg.size_pos (msg : PushMsg) : 0 < msg.size := by
  rw [PushMsg.size, sizeofSizeT]
  omega

theorem chunkSize_pos (msg : PushMsg) : 0 < chunkSize msg.size := by
  have h := block_fits msg.size
  have hp := msg.size_pos
  omega

def PushMsg.sizeWord (msg : PushMsg) : List UInt8 := le sizeofSizeT msg.size

def PushMsg.bytes (msg : PushMsg) : List UInt8 :=
  msg.sizeWord ++ (msg.hdr.toBytes ++ msg.msgBody)

theorem PushMsg.length_bytes (msg : PushMsg) : msg.bytes.length = msg.size := by
  have h := msg.fits.bodyLen
  simp only [PushMsg.bytes, PushMsg.sizeWord, PushMsg.size, List.length_append, length_le,
    MsgHdrType.length_toBytes]
  omega

theorem PushMsg.size_lt (msg : PushMsg) : msg.size < 2 ^ 64 := by
  have hlen : msg.hdr.msgHdr.bodyLen.toNat < 2 ^ 32 := UInt32.toNat_lt _
  have hsizeof : msg.hdr.sizeof ≤ 20 := by
    cases msg.hdr with
    | client hdr => exact (by decide : sizeofClientMsgHdr ≤ 20)
    | proxy hdr => exact (by decide : sizeofProxyMsgHdr ≤ 20)
  rw [PushMsg.size, sizeofSizeT]
  omega

theorem chunkSize_of_le {size : ℕ} (h : size ≤ maxPoolSize) :
    chunkSize size = sizeofMemBlock + MIN_MEMBLOCK_SIZE * 2 ^ (poolIndex size h : ℕ) := dif_pos h

theorem chunkSize_of_lt {size : ℕ} (h : ¬ size ≤ maxPoolSize) : chunkSize size = size := dif_neg h

theorem chunkOffset_of_lt {size : ℕ} (h : ¬ size ≤ maxPoolSize) : chunkOffset size = 0 := if_neg h

theorem chunkOffset_of_le {size : ℕ} (h : size ≤ maxPoolSize) :
    chunkOffset size = DATA_OFFSET := if_pos h

/-- The block that a thread has got, and what it has written there so far. -/
def Pusher.block : Pusher → Option (PushMsg × ℕ × List UInt8)
  | .idle => none
  | .alloc _ => none
  | .malloc _ _ _ => none
  | .setSize msg ptr => some (msg, ptr + sizeofSizeT, [])
  | .copyHdr msg buffer => some (msg, buffer, msg.sizeWord)
  | .copyBody msg buffer => some (msg, buffer, msg.sizeWord ++ msg.hdr.toBytes)
  | .insert msg buffer => some (msg, buffer, msg.bytes)

def Pusher.msg : Pusher → Option PushMsg
  | .idle => none
  | .alloc msg => some msg
  | .malloc msg _ _ => some msg
  | .setSize msg _ => some msg
  | .copyHdr msg _ => some msg
  | .copyBody msg _ => some msg
  | .insert msg _ => some msg

/-- A step of thread `i` in `PushMsg`. The three copies into the block are one case. -/
inductive Pushed (i : ℕ) (s : MessageBus) : MessageBus → Prop where
  | request {msg : PushMsg} (hth : s.threads i = .alloc msg) :
      Pushed i s (s.setThread i (.malloc msg (chunkSize msg.size) (chunkOffset msg.size)))
  | alloc {msg : PushMsg} {ptr : ℕ} {pool : MemBlockPool} (hth : s.threads i = .alloc msg)
      (hle : msg.size ≤ maxPoolSize)
      (hp : (s.global.m_Pools (poolIndex msg.size hle)).Alloc s.mem = some (ptr, pool)) :
      Pushed i s ({ s with
        global := s.global.setBlockList (poolIndex msg.size hle) pool.m_pBlockList }.setThread i
          (.setSize msg ptr))
  | malloc {msg : PushMsg} {n off a : ℕ} {m : Memory} (hth : s.threads i = .malloc msg n off)
      (hm : s.mem.malloc a n = some m) :
      Pushed i s ({ s with mem := m }.setThread i (.setSize msg (a + off)))
  | write {p : Pusher} {msg : PushMsg} {buffer x : ℕ} {bs vs : List UInt8}
      (hb : (s.threads i).block = some (msg, buffer, bs))
      (hp : p.block = some (msg, buffer, bs ++ vs)) (hx : x + sizeofSizeT = buffer + bs.length)
      (hfit : (bs ++ vs).length ≤ msg.size) (hmsg : p.msg = (s.threads i).msg) :
      Pushed i s ({ s with mem := s.mem.write x vs }.setThread i p)
  | insert {msg : PushMsg} {buffer : ℕ} (hth : s.threads i = .insert msg buffer) :
      Pushed i s ({ s with
        global := { s.global with m_MsgQueue := s.global.m_MsgQueue ++ [buffer] }
        inserted := s.inserted ++ [Inserted.mk i msg buffer] }.setThread i .idle)

/-- A step of the logic thread in `ProcessMsg`. -/
inductive Popped (s : MessageBus) : MessageBus → Prop where
  | wait (hl : s.logic = .getMsgQueue) (hq : s.global.m_MsgQueue = []) : Popped s s
  | get (hl : s.logic = .getMsgQueue) (hq : s.global.m_MsgQueue ≠ []) :
      Popped s { s with
        msgQueue := s.global.m_MsgQueue
        global := { s.global with m_MsgQueue := [] }
        logic := .pop }
  | pop {hdr : ℕ} {rest : List ℕ} (hl : s.logic = .pop) (hq : s.msgQueue = hdr :: rest) :
      Popped s { s with msgQueue := rest, logic := .dispatch hdr }
  | dispatch {hdr : ℕ} (hl : s.logic = .dispatch hdr) :
      Popped s { s with
        dispatched := s.dispatched ++ [(hdr, MsgPopHandler.processMsg s.mem hdr)]
        logic := .free hdr }
  | free {hdr : ℕ} {m : Memory} {g : GlobalObject} (hl : s.logic = .free hdr)
      (hf : s.freeMsgBlock hdr = some { s with mem := m, global := g })
      (hg : g.m_MsgQueue = s.global.m_MsgQueue) :
      Popped s { s with
        mem := m
        global := g
        freed := s.freed ++ [hdr]
        logic := if s.msgQueue = [] then .getMsgQueue else .pop }
  | abort (h : (s.logic = .pop ∧ s.msgQueue = []) ∨
      ∃ hdr, s.logic = .free hdr ∧ s.freeMsgBlock hdr = none) :
      Popped s { s with logic := .abort }

section

variable {s t : MessageBus} {i a : ℕ}

theorem alloc_cases {msg : PushMsg} (hth : s.threads i = .alloc msg)
    (hs : s.pushMsg i a = some t) : Pushed i s t := by
  have hreq := Pushed.request hth
  unfold MessageBus.pushMsg at hs
  rw [hth] at hs
  dsimp only at hs
  split_ifs at hs with hmax
  · obtain rfl := Option.some.inj hs
    have hbig : ¬ msg.size ≤ maxPoolSize := by
      rw [← s.global.maxPoolSize_eq]
      omega
    rwa [chunkSize_of_lt hbig, chunkOffset_of_lt hbig] at hreq
  · have hle := s.global.le_maxPoolSize hmax
    cases hp : (s.global.m_Pools (poolIndex msg.size hle)).Alloc s.mem with
    | some r =>
      rw [hp] at hs
      obtain rfl := Option.some.inj hs
      exact .alloc hth hle hp
    | none =>
      rw [hp] at hs
      obtain rfl := Option.some.inj hs
      rw [s.global.poolSize_eq]
      rwa [chunkSize_of_le hle, chunkOffset_of_le hle] at hreq

/-- The copy of the body is made only where there is one. -/
theorem copyBody_eq (msg : PushMsg) (m : Memory) (x : ℕ) :
    (if msg.hdr.msgHdr.bodyLen.toNat > 0 then
        m.write x (msg.msgBody.take msg.hdr.msgHdr.bodyLen.toNat)
      else m) = m.write x msg.msgBody := by
  have hlen := msg.fits.bodyLen
  split_ifs with hpos
  · rw [hlen, List.take_length]
  · rw [List.eq_nil_of_length_eq_zero (by omega : msg.msgBody.length = 0), Memory.write_nil]

theorem pushMsg_cases (hs : s.pushMsg i a = some t) : Pushed i s t := by
  cases hth : s.threads i with
  | idle =>
    unfold MessageBus.pushMsg at hs
    rw [hth] at hs
    exact absurd hs (by simp)
  | alloc msg => exact alloc_cases hth hs
  | malloc msg n off =>
    unfold MessageBus.pushMsg at hs
    rw [hth] at hs
    obtain ⟨m, hm, rfl⟩ := Option.map_eq_some_iff.mp hs
    exact .malloc hth hm
  | setSize msg ptr =>
    unfold MessageBus.pushMsg at hs
    rw [hth] at hs
    obtain rfl := Option.some.inj hs
    have hb : (s.threads i).block = some (msg, ptr + sizeofSizeT, []) := by rw [hth]; rfl
    refine .write hb rfl rfl ?_ (by rw [hth]; rfl)
    rw [← msg.length_bytes, PushMsg.bytes, List.length_append]
    simp [PushMsg.sizeWord]
  | copyHdr msg buffer =>
    unfold MessageBus.pushMsg at hs
    rw [hth] at hs
    obtain rfl := Option.some.inj hs
    have hb : (s.threads i).block = some (msg, buffer, msg.sizeWord) := by rw [hth]; rfl
    refine .write hb rfl (by simp [PushMsg.sizeWord]) ?_ (by rw [hth]; rfl)
    rw [← msg.length_bytes, PushMsg.bytes, List.length_append]
    simp
  | copyBody msg buffer =>
    unfold MessageBus.pushMsg at hs
    rw [hth] at hs
    obtain rfl := Option.some.inj hs
    have hb : (s.threads i).block = some (msg, buffer, msg.sizeWord ++ msg.hdr.toBytes) := by
      rw [hth]
      rfl
    have hbytes : msg.bytes = msg.sizeWord ++ msg.hdr.toBytes ++ msg.msgBody :=
      (List.append_assoc ..).symm
    have hlen := congrArg List.length hbytes
    rw [msg.length_bytes] at hlen
    rw [copyBody_eq]
    refine .write hb (by rw [← hbytes]; rfl) ?_ hlen.ge (by rw [hth]; rfl)
    simp only [List.length_append, MsgHdrType.length_toBytes, PushMsg.sizeWord, length_le]
    omega
  | insert msg buffer =>
    unfold MessageBus.pushMsg at hs
    rw [hth] at hs
    obtain rfl := Option.some.inj hs
    exact .insert hth

theorem freeMsgBlock_rest {ptr : ℕ} {u : MessageBus} (h : s.freeMsgBlock ptr = some u) :
    ∃ m g, u = { s with mem := m, global := g } ∧ g.m_MsgQueue = s.global.m_MsgQueue := by
  unfold MessageBus.freeMsgBlock at h
  dsimp only at h
  split at h
  · obtain ⟨m, -, rfl⟩ := Option.map_eq_some_iff.mp h
    exact ⟨m, s.global, rfl, rfl⟩
  · obtain rfl := Option.some.inj h
    exact ⟨_, _, rfl, rfl⟩

theorem processMsg_cases (hs : s.processMsg = some t) : Popped s t := by
  unfold MessageBus.processMsg at hs
  cases hl : s.logic with
  | getMsgQueue =>
    rw [hl] at hs
    dsimp only at hs
    split_ifs at hs with hq
    · obtain rfl := Option.some.inj hs
      exact .wait hl hq
    · obtain rfl := Option.some.inj hs
      exact .get hl hq
  | pop =>
    rw [hl] at hs
    dsimp only at hs
    cases hq : s.msgQueue with
    | nil =>
      rw [hq] at hs
      obtain rfl := Option.some.inj hs
      have habort := Popped.abort (.inl ⟨hl, hq⟩)
      rwa [hq] at habort
    | cons hdr rest =>
      rw [hq] at hs
      obtain rfl := Option.some.inj hs
      exact .pop hl hq
  | dispatch hdr =>
    rw [hl] at hs
    obtain rfl := Option.some.inj hs
    exact .dispatch hl
  | free hdr =>
    rw [hl] at hs
    dsimp only at hs
    cases hf : s.freeMsgBlock hdr with
    | none =>
      rw [hf] at hs
      obtain rfl := Option.some.inj hs
      exact .abort (.inr ⟨hdr, hl, hf⟩)
    | some u =>
      rw [hf] at hs
      obtain rfl := Option.some.inj hs
      obtain ⟨m, g, rfl, hg⟩ := freeMsgBlock_rest hf
      exact .free hl hf hg
  | abort =>
    rw [hl] at hs
    exact absurd hs (by simp)

end

end RgcFifa
