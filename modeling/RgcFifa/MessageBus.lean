import RgcFifa.Lib.FreeList
import RgcFifa.Lib.Transition
import RgcFifa.MsgLayout

/-! The queue between the network threads and the logic thread, with the block pools
its messages come from. A step is what one thread does between two points where
another may come in: a section under a lock, or a copy into a block of its own. -/

namespace RgcFifa

open ByteWords

/-- The offset of `data` in a `MemBlock`, behind `next`, and `sizeof(MemBlock)`. -/
def DATA_OFFSET : ℕ := 8
def sizeofMemBlock : ℕ := 16
def sizeofSizeT : ℕ := 8

def MIN_MEMBLOCK_SIZE : ℕ := 128
def MEMPOOL_NUM : ℕ := 10

structure MemBlockPool where
  m_Size : ℕ
  m_pBlockList : ℕ

/-- The part of `Alloc` under the lock; `none` when the list is empty. -/
def MemBlockPool.Alloc (m : Memory) (pool : MemBlockPool) : Option (ℕ × MemBlockPool) :=
  if pool.m_pBlockList = 0 then none
  else some (pool.m_pBlockList + DATA_OFFSET,
    { pool with m_pBlockList := FreeList.next m pool.m_pBlockList })

def MemBlockPool.Free (m : Memory) (pool : MemBlockPool) (ptr : ℕ) : Memory × MemBlockPool :=
  let block := ptr - DATA_OFFSET
  (FreeList.push m block pool.m_pBlockList, { pool with m_pBlockList := block })

/-- The loop `while(size > poolSize)` that `AllocMsgBlock` and `FreeMsgBlock` share. -/
def poolLoop (size : ℕ) : ℕ → ℕ → ℕ → ℕ
  | 0, index, _ => index
  | fuel + 1, index, poolSize =>
      if size > poolSize then poolLoop size fuel (index + 1) (poolSize * 2) else index

def maxPoolSize : ℕ := MIN_MEMBLOCK_SIZE * 2 ^ (MEMPOOL_NUM - 1)

theorem poolLoop_spec (index : ℕ) {size fuel poolSize : ℕ} (h : size ≤ poolSize * 2 ^ fuel) :
    ∃ k ≤ fuel, poolLoop size fuel index poolSize = index + k ∧ size ≤ poolSize * 2 ^ k ∧
      ∀ j < k, poolSize * 2 ^ j < size := by
  induction fuel generalizing index poolSize with
  | zero => exact ⟨0, le_rfl, rfl, h, by simp⟩
  | succ fuel ih =>
    by_cases hs : size > poolSize
    · have hnext : size ≤ poolSize * 2 * 2 ^ fuel := by rwa [mul_assoc, ← pow_succ']
      obtain ⟨k, hk, he, hle, hlt⟩ := ih (index + 1) hnext
      refine ⟨k + 1, by omega, by rw [poolLoop, if_pos hs, he]; omega, ?_, ?_⟩
      · rwa [pow_succ', ← mul_assoc]
      · intro j hj
        cases j with
        | zero => simpa using hs
        | succ j =>
          rw [pow_succ', ← mul_assoc]
          exact hlt j (by omega)
    · exact ⟨0, by omega, by rw [poolLoop, if_neg hs]; rfl, by simpa using hs, by simp⟩

theorem poolLoop_le {size : ℕ} (h : size ≤ maxPoolSize) :
    poolLoop size MEMPOOL_NUM 0 MIN_MEMBLOCK_SIZE < MEMPOOL_NUM ∧
      size ≤ MIN_MEMBLOCK_SIZE * 2 ^ poolLoop size MEMPOOL_NUM 0 MIN_MEMBLOCK_SIZE := by
  have hmax : size ≤ MIN_MEMBLOCK_SIZE * 2 ^ MEMPOOL_NUM := h.trans (by decide)
  obtain ⟨k, hk, he, hle, hlt⟩ := poolLoop_spec 0 hmax
  rw [he, Nat.zero_add]
  refine ⟨?_, hle⟩
  by_contra hnot
  obtain rfl : k = MEMPOOL_NUM := by omega
  exact absurd (hlt (MEMPOOL_NUM - 1) (by decide)) (by rw [maxPoolSize] at h; omega)

def poolIndex (size : ℕ) (h : size ≤ maxPoolSize) : Fin MEMPOOL_NUM :=
  ⟨poolLoop size MEMPOOL_NUM 0 MIN_MEMBLOCK_SIZE, (poolLoop_le h).1⟩

/-- The sizes are those that `Init` sets, and nothing changes them afterwards. -/
structure GlobalObject where
  m_MsgQueue : List ℕ
  m_Pools : Fin MEMPOOL_NUM → MemBlockPool
  m_MaxPoolSize : ℕ
  poolSize_eq : ∀ i, (m_Pools i).m_Size = MIN_MEMBLOCK_SIZE * 2 ^ (i : ℕ)
  maxPoolSize_eq : m_MaxPoolSize = maxPoolSize

theorem GlobalObject.le_maxPoolSize (g : GlobalObject) {size : ℕ} (h : ¬ size > g.m_MaxPoolSize) :
    size ≤ maxPoolSize := by
  rw [← g.maxPoolSize_eq]
  omega

/-- Round `i` of the loop of `Init` runs with `size` doubled `i` times. -/
def GlobalObject.Init : GlobalObject where
  m_MsgQueue := []
  m_Pools i := ⟨(· * 2)^[i] MIN_MEMBLOCK_SIZE, 0⟩
  m_MaxPoolSize := (· * 2)^[MEMPOOL_NUM - 1] MIN_MEMBLOCK_SIZE
  poolSize_eq := by decide
  maxPoolSize_eq := by decide

def GlobalObject.setBlockList (g : GlobalObject) (i : Fin MEMPOOL_NUM) (p : ℕ) : GlobalObject where
  m_MsgQueue := g.m_MsgQueue
  m_Pools := Function.update g.m_Pools i ⟨(g.m_Pools i).m_Size, p⟩
  m_MaxPoolSize := g.m_MaxPoolSize
  poolSize_eq j := by
    rw [Function.update_apply]
    split_ifs with hj
    · rw [hj]
      exact g.poolSize_eq i
    · exact g.poolSize_eq j
  maxPoolSize_eq := g.maxPoolSize_eq

/-- A call of `PushMsg`: the body has the length in the header, the header has the
layout of its type, and `sessionID` is an `int`. -/
structure PushMsg where
  hdr : MsgHdrType
  msgBody : List UInt8
  fits : hdr.Fits msgBody
  int_le : -2 ^ 31 ≤ hdr.msgHdr.sessionID
  int_lt : hdr.msgHdr.sessionID < 2 ^ 31

def PushMsg.ofRecv (kind : ConduitKind) (r : Recv) (id : ℤ) (hbuf : r.len = r.buf.length)
    (hlen : r.len < 2 ^ 32) (hid : -2 ^ 31 ≤ id ∧ id < 2 ^ 31) : PushMsg where
  hdr := onRecv kind r id
  msgBody := r.buf
  fits := onRecv_fits kind id hbuf hlen
  int_le := by
    rw [onRecv_sessionID]
    exact hid.1
  int_lt := by
    rw [onRecv_sessionID]
    exact hid.2

/-- `size` in `AllocMsgBlock`, after `sizeof(size_t)` is added. -/
def PushMsg.size (msg : PushMsg) : ℕ :=
  msg.hdr.sizeof + msg.hdr.msgHdr.bodyLen.toNat + sizeofSizeT

inductive Pusher where
  | idle
  | alloc (msg : PushMsg)
  | malloc (msg : PushMsg) (n off : ℕ)
  | setSize (msg : PushMsg) (ptr : ℕ)
  | copyHdr (msg : PushMsg) (buffer : ℕ)
  | copyBody (msg : PushMsg) (buffer : ℕ)
  | insert (msg : PushMsg) (buffer : ℕ)

inductive Popper where
  | getMsgQueue
  | pop
  | dispatch (hdr : ℕ)
  | free (hdr : ℕ)
  /-- an assertion failed, or memory was freed that is not allocated -/
  | abort
  deriving DecidableEq

structure Inserted where
  thread : ℕ
  msg : PushMsg
  buffer : ℕ

/-- `msgQueue` is the local queue of `ProcessMsg`. The last four fields are history:
the calls of `PushMsg`, the insertions, the calls of the logic and the blocks freed. -/
structure MessageBus where
  mem : Memory
  global : GlobalObject
  threads : ℕ → Pusher
  logic : Popper
  msgQueue : List ℕ
  called : List (ℕ × PushMsg)
  inserted : List Inserted
  dispatched : List (ℕ × Option LogicCall)
  freed : List ℕ

namespace MessageBus

def Init : MessageBus where
  mem := ⟨fun _ => 0, []⟩
  global := GlobalObject.Init
  threads _ := .idle
  logic := .getMsgQueue
  msgQueue := []
  called := []
  inserted := []
  dispatched := []
  freed := []

def setThread (s : MessageBus) (i : ℕ) (p : Pusher) : MessageBus :=
  { s with threads := Function.update s.threads i p }

@[simp] theorem setThread_threads (s : MessageBus) (i : ℕ) (p : Pusher) :
    (s.setThread i p).threads = Function.update s.threads i p := rfl

@[simp] theorem setThread_mem (s : MessageBus) (i : ℕ) (p : Pusher) :
    (s.setThread i p).mem = s.mem := rfl

@[simp] theorem setThread_global (s : MessageBus) (i : ℕ) (p : Pusher) :
    (s.setThread i p).global = s.global := rfl

/-- The next step of thread `i` in `PushMsg`; `a` is what `malloc` returns. -/
def pushMsg (i a : ℕ) (s : MessageBus) : Option MessageBus :=
  match s.threads i with
  | .idle => none
  | .alloc msg =>
      if h : msg.size > s.global.m_MaxPoolSize then
        some (s.setThread i (.malloc msg msg.size 0))
      else
        let index := poolIndex msg.size (s.global.le_maxPoolSize h)
        match (s.global.m_Pools index).Alloc s.mem with
        | some (ptr, pool) =>
            some ({ s with global := s.global.setBlockList index pool.m_pBlockList }.setThread i
              (.setSize msg ptr))
        | none =>
            some (s.setThread i
              (.malloc msg (sizeofMemBlock + (s.global.m_Pools index).m_Size) DATA_OFFSET))
  | .malloc msg n off =>
      (s.mem.malloc a n).map fun mem => { s with mem }.setThread i (.setSize msg (a + off))
  | .setSize msg ptr =>
      some ({ s with mem := s.mem.write ptr (le sizeofSizeT msg.size) }.setThread i
        (.copyHdr msg (ptr + sizeofSizeT)))
  | .copyHdr msg buffer =>
      some ({ s with mem := s.mem.write buffer msg.hdr.toBytes }.setThread i
        (.copyBody msg buffer))
  | .copyBody msg buffer =>
      let bodyLen := msg.hdr.msgHdr.bodyLen.toNat
      some ({ s with
        mem := if bodyLen > 0 then
            s.mem.write (buffer + msg.hdr.sizeof) (msg.msgBody.take bodyLen)
          else s.mem }.setThread i (.insert msg buffer))
  | .insert msg buffer =>
      some ({ s with
        global := { s.global with m_MsgQueue := s.global.m_MsgQueue ++ [buffer] }
        inserted := s.inserted ++ [Inserted.mk i msg buffer] }.setThread i .idle)

def freeMsgBlock (ptr : ℕ) (s : MessageBus) : Option MessageBus :=
  let mem := ptr - sizeofSizeT
  let size := leNat (s.mem.read mem sizeofSizeT)
  if h : size > s.global.m_MaxPoolSize then
    (s.mem.free mem).map fun m => { s with mem := m }
  else
    let index := poolIndex size (s.global.le_maxPoolSize h)
    let (m, pool) := (s.global.m_Pools index).Free s.mem mem
    some { s with mem := m, global := s.global.setBlockList index pool.m_pBlockList }

/-- The next step of the logic thread in its calls of `ProcessMsg`. -/
def processMsg (s : MessageBus) : Option MessageBus :=
  match s.logic with
  | .getMsgQueue =>
      if s.global.m_MsgQueue = [] then some s
      else some { s with
        msgQueue := s.global.m_MsgQueue
        global := { s.global with m_MsgQueue := [] }
        logic := .pop }
  | .pop =>
      match s.msgQueue with
      | [] => some { s with logic := .abort }
      | hdr :: rest => some { s with msgQueue := rest, logic := .dispatch hdr }
  | .dispatch hdr =>
      some { s with
        dispatched := s.dispatched ++ [(hdr, MsgPopHandler.processMsg s.mem hdr)]
        logic := .free hdr }
  | .free hdr =>
      match s.freeMsgBlock hdr with
      | none => some { s with logic := .abort }
      | some t => some { t with
          freed := t.freed ++ [hdr]
          logic := if t.msgQueue = [] then .getMsgQueue else .pop }
  | .abort => none

end MessageBus

inductive BusEvent where
  | call (i : ℕ) (msg : PushMsg)
  | push (i a : ℕ)
  | logic

namespace MessageBus

def step (e : BusEvent) (s : MessageBus) : Option MessageBus :=
  match e with
  | .call i msg =>
      match s.threads i with
      | .idle => some ({ s with called := s.called ++ [(i, msg)] }.setThread i (.alloc msg))
      | _ => none
  | .push i a => s.pushMsg i a
  | .logic => s.processMsg

end MessageBus

end RgcFifa
