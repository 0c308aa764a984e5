import RgcFifa.BusSteps

/-! Who owns which chunk of memory while the bus runs: a pool, a thread that is
pushing, or the bus from the insertion of a message until its block is freed. -/

namespace RgcFifa

open ByteWords

/-- A message in the chunk of memory that begins at `base`. -/
structure Block where
  msg : PushMsg
  base : ℕ

def Block.ptr (b : Block) : ℕ := b.base + chunkOffset b.msg.size

def Block.buffer (b : Block) : ℕ := b.ptr + sizeofSizeT

def Block.Full (b : Block) (m : Memory) : Prop :=
  m.Holds b.base (chunkSize b.msg.size) (chunkOffset b.msg.size) b.msg.bytes

inductive Holder where
  | pool (i : Fin MEMPOOL_NUM)
  | thread (i : ℕ)
  | bus
  deriving DecidableEq

structure PoolOk (own : ℕ → Option Holder) (m : Memory) (i : Fin MEMPOOL_NUM) (head : ℕ)
    (free : List ℕ) : Prop where
  chain : FreeList.Chain m (sizeofMemBlock + MIN_MEMBLOCK_SIZE * 2 ^ (i : ℕ)) head free
  nodup : free.Nodup
  owned : ∀ a ∈ free, own a = some (.pool i)

structure ThreadOk (own : ℕ → Option Holder) (m : Memory) (i : ℕ) (p : Pusher) : Prop where
  request : ∀ msg n off, p = .malloc msg n off →
    n = chunkSize msg.size ∧ off = chunkOffset msg.size
  block : ∀ msg buffer bs, p.block = some (msg, buffer, bs) → ∃ base,
    own base = some (.thread i) ∧ buffer = (Block.mk msg base).buffer ∧
    m.Holds base (chunkSize msg.size) (chunkOffset msg.size) bs

structure BusOk (own : ℕ → Option Holder) (m : Memory) (bus : List Block) : Prop where
  owned : ∀ b ∈ bus, own b.base = some .bus
  full : ∀ b ∈ bus, b.Full m
  nodup : (bus.map Block.base).Nodup

/-- `own` gives the owner of each chunk in use, `free` what each pool's list runs
through and `bus` the messages inserted and not yet freed. -/
structure Owned (own : ℕ → Option Holder) (free : Fin MEMPOOL_NUM → List ℕ) (bus : List Block)
    (s : MessageBus) : Prop where
  wf : s.mem.WellFormed
  live : ∀ a h, own a = some h → ∃ n, (a, n) ∈ s.mem.chunks
  pool : ∀ i, PoolOk own s.mem i (s.global.m_Pools i).m_pBlockList (free i)
  thread : ∀ i, ThreadOk own s.mem i (s.threads i)
  bus : BusOk own s.mem bus

def Keeps (h : Holder) (own own' : ℕ → Option Holder) (m m' : Memory) : Prop :=
  ∀ a, own a = some h → own' a = some h ∧ ∀ n off bs, m.Holds a n off bs → m'.Holds a n off bs

section

variable {own own' : ℕ → Option Holder} {free free' : Fin MEMPOOL_NUM → List ℕ}
  {bus bus' : List Block} {m m' : Memory} {s t : MessageBus} {i : ℕ} {a : ℕ}

theorem PoolOk.keeps {i : Fin MEMPOOL_NUM} {head : ℕ} {free : List ℕ}
    (h : PoolOk own m i head free) (hk : Keeps (.pool i) own own' m m') :
    PoolOk own' m' i head free where
  chain := h.chain.mono fun a ha => (hk a (h.owned a ha)).2
  nodup := h.nodup
  owned a ha := (hk a (h.owned a ha)).1

theorem ThreadOk.keeps {p : Pusher} (h : ThreadOk own m i p)
    (hk : Keeps (.thread i) own own' m m') : ThreadOk own' m' i p where
  request := h.request
  block msg buffer bs hb := by
    obtain ⟨base, ho, hp, hold⟩ := h.block msg buffer bs hb
    obtain ⟨ho', hm⟩ := hk base ho
    exact ⟨base, ho', hp, hm _ _ _ hold⟩

theorem BusOk.keeps (h : BusOk own m bus) (hk : Keeps .bus own own' m m') :
    BusOk own' m' bus where
  owned b hb := (hk b.base (h.owned b hb)).1
  full b hb := (hk b.base (h.owned b hb)).2 _ _ _ (h.full b hb)
  nodup := h.nodup

theorem keeps_of_frame {h : Holder} {x : Option Holder} (hf : Memory.Frame a m m')
    (hne : own a ≠ some h) : Keeps h own (Function.update own a x) m m' := by
  intro b hb
  have hba : b ≠ a := fun he => hne (he ▸ hb)
  exact ⟨by rwa [Function.update_of_ne hba], fun n off bs => hf b n off bs hba⟩

theorem threadOk_of_block {p : Pusher} {msg : PushMsg} {buffer base : ℕ} {bs : List UInt8}
    (hb : p.block = some (msg, buffer, bs)) (ho : own base = some (.thread i))
    (hp : buffer = (Block.mk msg base).buffer)
    (hold : m.Holds base (chunkSize msg.size) (chunkOffset msg.size) bs) :
    ThreadOk own m i p where
  request _ _ _ he := by
    rw [he] at hb
    exact nomatch hb
  block msg' buffer' bs' hb' := by
    rw [hb] at hb'
    obtain ⟨rfl, rfl, rfl⟩ := by simpa using hb'
    exact ⟨base, ho, hp, hold⟩

theorem threadOk_of_none {p : Pusher} (hb : p.block = none)
    (hr : ∀ msg n off, p = .malloc msg n off →
      n = chunkSize msg.size ∧ off = chunkOffset msg.size) : ThreadOk own m i p where
  request := hr
  block _ _ _ he := by
    rw [hb] at he
    exact nomatch he

/-- One chunk changes its owner, or its bytes. The old and the new owner have to be
looked at, and everyone else is left alone. -/
theorem Owned.transfer {x : Option Holder} (h : Owned own free bus s)
    (hf : Memory.Frame a s.mem t.mem) (hw : t.mem.WellFormed)
    (hlive : x ≠ none → ∃ n, (a, n) ∈ t.mem.chunks)
    (hpool : ∀ i, (own a ≠ some (.pool i) ∧ free' i = free i ∧
        (t.global.m_Pools i).m_pBlockList = (s.global.m_Pools i).m_pBlockList) ∨
      PoolOk (Function.update own a x) t.mem i (t.global.m_Pools i).m_pBlockList (free' i))
    (hthread : ∀ i, (own a ≠ some (.thread i) ∧ t.threads i = s.threads i) ∨
      ThreadOk (Function.update own a x) t.mem i (t.threads i))
    (hbus : (own a ≠ some .bus ∧ bus' = bus) ∨ BusOk (Function.update own a x) t.mem bus') :
    Owned (Function.update own a x) free' bus' t where
  wf := hw
  live b y hb := by
    by_cases hba : b = a
    · subst hba
      rw [Function.update_self] at hb
      exact hlive (by simp [hb])
    · rw [Function.update_of_ne hba] at hb
      obtain ⟨n, hn⟩ := h.live b y hb
      exact ⟨n, (hf b n 0 [] hba (Memory.holds_nil hn)).live⟩
  pool i := by
    rcases hpool i with ⟨hne, hfree, hhead⟩ | hok
    · rw [hfree, hhead]
      exact (h.pool i).keeps (keeps_of_frame hf hne)
    · exact hok
  thread i := by
    rcases hthread i with ⟨hne, hsame⟩ | hok
    · rw [hsame]
      exact (h.thread i).keeps (keeps_of_frame hf hne)
    · exact hok
  bus := by
    rcases hbus with ⟨hne, rfl⟩ | hok
    · exact h.bus.keeps (keeps_of_frame hf hne)
    · exact hok

theorem Owned.setThread {p : Pusher} (h : Owned own free bus s) (hp : ThreadOk own s.mem i p) :
    Owned own free bus (s.setThread i p) where
  wf := h.wf
  live := h.live
  pool := h.pool
  thread j := by
    by_cases hj : j = i
    · subst hj
      simpa using hp
    · simpa [Function.update_of_ne hj] using h.thread j
  bus := h.bus

theorem holds_empty {msg : PushMsg} (h : (a, chunkSize msg.size) ∈ m.chunks) :
    m.Holds a (chunkSize msg.size) (chunkOffset msg.size) [] where
  live := h
  fits := by
    have hf := block_fits msg.size
    simp only [List.length_nil]
    omega
  read_eq := rfl

theorem Owned.allocHit {msg : PushMsg} (h : Owned own free bus s) (hle : msg.size ≤ maxPoolSize)
    {ptr : ℕ} {pool : MemBlockPool}
    (hp : (s.global.m_Pools (poolIndex msg.size hle)).Alloc s.mem = some (ptr, pool)) :
    ∃ own' free', Owned own' free' bus
      ({ s with global := s.global.setBlockList (poolIndex msg.size hle) pool.m_pBlockList }.setThread
        i (.setSize msg ptr)) := by
  generalize hk : poolIndex msg.size hle = k at hp ⊢
  have hpool := h.pool k
  cases hfree : free k with
  | nil =>
    have hzero := hpool.chain.nil_iff.mp hfree
    rw [MemBlockPool.Alloc, if_pos hzero] at hp
    exact nomatch hp
  | cons p rest =>
    rw [hfree] at hpool
    obtain ⟨hhead, hpos, -⟩ := hpool.chain
    rw [MemBlockPool.Alloc, hhead, if_neg hpos.ne'] at hp
    obtain ⟨rfl, rfl⟩ := by simpa using hp
    have hown : own p = some (.pool k) := hpool.owned p List.mem_cons_self
    have hlive := hpool.chain.live List.mem_cons_self
    obtain ⟨hnot, hrest⟩ := List.nodup_cons.mp hpool.nodup
    have hsize : chunkSize msg.size = sizeofMemBlock + MIN_MEMBLOCK_SIZE * 2 ^ (k : ℕ) := by
      rw [chunkSize_of_le hle, hk]
    refine ⟨Function.update own p (some (.thread i)), Function.update free k rest,
      h.transfer (a := p) (fun _ _ _ _ _ hb => hb) h.wf (fun _ => ⟨_, hlive⟩) ?_ ?_ ?_⟩
    · intro j
      by_cases hj : j = k
      · subst hj
        right
        refine ⟨?_, ?_, ?_⟩
        · have hnext := hpool.chain.next
          rw [hhead] at hnext
          simpa [GlobalObject.setBlockList] using hnext
        · simpa using hrest
        · intro b hb
          rw [Function.update_self] at hb
          rw [Function.update_of_ne (fun he : b = p => hnot (he ▸ hb))]
          exact hpool.owned b (List.mem_cons_of_mem _ hb)
      · left
        simp [hown, hj, Ne.symm hj, GlobalObject.setBlockList]
    · intro j
      by_cases hj : j = i
      · subst hj
        right
        rw [MessageBus.setThread_threads, Function.update_self]
        refine threadOk_of_block rfl (Function.update_self p _ _) ?_ ?_
        · rw [Block.buffer, Block.ptr, chunkOffset_of_le hle]
        · exact holds_empty (by rwa [hsize])
      · left
        simp [hown, hj]
    · left
      simp [hown]

theorem Owned.malloc {msg : PushMsg} {off n : ℕ} (h : Owned own free bus s)
    (hth : s.threads i = .malloc msg n off) (hm : s.mem.malloc a n = some m) :
    ∃ own', Owned own' free bus ({ s with mem := m }.setThread i (.setSize msg (a + off))) := by
  obtain ⟨rfl, rfl⟩ := (h.thread i).request msg n off hth
  have hfresh : ∀ x : Holder, own a ≠ some x := by
    intro x hx
    obtain ⟨k, hk⟩ := h.live a x hx
    exact h.wf.fresh (chunkSize_pos msg) hm hk
  have hlive : (a, chunkSize msg.size) ∈ m.chunks := by
    obtain ⟨-, -, -, rfl⟩ := Memory.malloc_eq hm
    exact List.mem_cons_self
  refine ⟨Function.update own a (some (.thread i)),
    h.transfer (Memory.frame_malloc hm a) (h.wf.malloc (chunkSize_pos msg) hm)
      (fun _ => ⟨_, hlive⟩) (fun j => .inl ⟨hfresh _, rfl, rfl⟩) ?_ (.inl ⟨hfresh _, rfl⟩)⟩
  intro j
  by_cases hj : j = i
  · subst hj
    right
    rw [MessageBus.setThread_threads, Function.update_self]
    exact threadOk_of_block rfl (Function.update_self ..) rfl (holds_empty hlive)
  · left
    exact ⟨hfresh _, by simp [hj]⟩

theorem Owned.write {p : Pusher} {msg : PushMsg} {buffer x : ℕ} {bs vs : List UInt8}
    (h : Owned own free bus s) (hb : (s.threads i).block = some (msg, buffer, bs))
    (hp : p.block = some (msg, buffer, bs ++ vs)) (hx : x + sizeofSizeT = buffer + bs.length)
    (hfit : (bs ++ vs).length ≤ msg.size) :
    Owned own free bus ({ s with mem := s.mem.write x vs }.setThread i p) := by
  obtain ⟨base, hown, rfl, hold⟩ := (h.thread i).block msg buffer bs hb
  have hchunk := block_fits msg.size
  have hlen : chunkOffset msg.size + bs.length + vs.length ≤ chunkSize msg.size := by
    rw [List.length_append] at hfit
    omega
  obtain rfl : x = base + (chunkOffset msg.size + bs.length) := by
    simp only [Block.buffer, Block.ptr] at hx
    omega
  have hnew := hold.extend hlen
  have hsame : Function.update own base (some (.thread i)) = own := by
    rw [← hown, Function.update_eq_self]
  rw [← hsame]
  refine h.transfer (Memory.frame_write h.wf hold.live hlen) (h.wf.write _ _)
    (fun _ => ⟨_, hold.live⟩) (fun j => .inl ⟨by simp [hown], rfl, rfl⟩) ?_
    (.inl ⟨by simp [hown], rfl⟩)
  intro j
  by_cases hj : j = i
  · subst hj
    right
    rw [MessageBus.setThread_threads, Function.update_self]
    exact threadOk_of_block hp (Function.update_self ..) rfl hnew
  · left
    simp [hown, hj, Ne.symm hj]

theorem Owned.insert {msg : PushMsg} {buffer : ℕ} (h : Owned own free bus s)
    (hth : s.threads i = .insert msg buffer) (queue : List ℕ) (log : List Inserted) :
    ∃ own' b, b.msg = msg ∧ b.buffer = buffer ∧
      Owned own' free (bus ++ [b]) ({ s with
        global := { s.global with m_MsgQueue := queue }
        inserted := log }.setThread i .idle) := by
  have hblock : (s.threads i).block = some (msg, buffer, msg.bytes) := by rw [hth]; rfl
  obtain ⟨base, hown, hptr, hold⟩ := (h.thread i).block _ _ _ hblock
  refine ⟨Function.update own base (some .bus), ⟨msg, base⟩, rfl, hptr.symm,
    h.transfer (fun _ _ _ _ _ hb => hb) h.wf (fun _ => ⟨_, hold.live⟩)
      (fun j => .inl ⟨by simp [hown], rfl, rfl⟩) ?_ (.inr ?_)⟩
  · intro j
    by_cases hj : j = i
    · subst hj
      right
      rw [MessageBus.setThread_threads, Function.update_self]
      exact threadOk_of_none rfl (fun _ _ _ he => by cases he)
    · left
      simp [hown, hj, Ne.symm hj]
  · have hne : ∀ b ∈ bus, b.base ≠ base := by
      intro b hb he
      have hbus := h.bus.owned b hb
      rw [he, hown] at hbus
      cases hbus
    refine ⟨?_, ?_, ?_⟩
    · intro b hb
      rcases List.mem_append.mp hb with hb | hb
      · rw [Function.update_of_ne (hne b hb)]
        exact h.bus.owned b hb
      · obtain rfl := List.mem_singleton.mp hb
        exact Function.update_self ..
    · intro b hb
      rcases List.mem_append.mp hb with hb | hb
      · exact h.bus.full b hb
      · obtain rfl := List.mem_singleton.mp hb
        exact hold
    · rw [List.map_append, List.nodup_append]
      refine ⟨h.bus.nodup, List.nodup_singleton _, ?_⟩
      intro x hx y hy
      obtain ⟨b, hb, rfl⟩ := List.mem_map.mp hx
      obtain rfl := List.mem_singleton.mp hy
      exact hne b hb

theorem Block.Full.size_eq {b : Block} (h : b.Full m) :
    leNat (m.read (b.buffer - sizeofSizeT) sizeofSizeT) = b.msg.size := by
  have hword := (Memory.holds_append.mp h).1.read_eq
  rw [PushMsg.sizeWord, length_le] at hword
  rw [Block.buffer, Nat.add_sub_cancel, Block.ptr, hword, leNat_le_of_lt]
  exact b.msg.size_lt.trans_le (by decide)

theorem freeMsgBlock_direct {ptr mem size : ℕ} (hmem : ptr - sizeofSizeT = mem)
    (hsize : leNat (s.mem.read mem sizeofSizeT) = size) (h : size > s.global.m_MaxPoolSize) :
    s.freeMsgBlock ptr = (s.mem.free mem).map fun m => { s with mem := m } := by
  subst hmem hsize
  unfold MessageBus.freeMsgBlock
  rw [dif_pos h]

theorem freeMsgBlock_pooled {ptr mem size : ℕ} (hmem : ptr - sizeofSizeT = mem)
    (hsize : leNat (s.mem.read mem sizeofSizeT) = size) (hle : size ≤ maxPoolSize) :
    s.freeMsgBlock ptr = some { s with
      mem := FreeList.push s.mem (mem - DATA_OFFSET)
        (s.global.m_Pools (poolIndex size hle)).m_pBlockList
      global := s.global.setBlockList (poolIndex size hle) (mem - DATA_OFFSET) } := by
  have hmax : ¬ size > s.global.m_MaxPoolSize := by
    rw [s.global.maxPoolSize_eq]
    omega
  subst hmem hsize
  unfold MessageBus.freeMsgBlock
  rw [dif_neg hmax]
  rfl

theorem BusOk.tail {b : Block} (h : BusOk own m (b :: bus)) (x : Option Holder)
    (hf : Memory.Frame b.base m m') : BusOk (Function.update own b.base x) m' bus := by
  obtain ⟨hnot, hnodup⟩ := List.nodup_cons.mp h.nodup
  have hne : ∀ c ∈ bus, c.base ≠ b.base := fun c hc he => hnot (he ▸ List.mem_map_of_mem hc)
  refine ⟨?_, ?_, hnodup⟩
  · intro c hc
    rw [Function.update_of_ne (hne c hc)]
    exact h.owned c (List.mem_cons_of_mem _ hc)
  · exact fun c hc => hf _ _ _ _ (hne c hc) (h.full c (List.mem_cons_of_mem _ hc))

theorem PoolOk.push {k : Fin MEMPOOL_NUM} {p : ℕ} {as : List ℕ} (h : PoolOk own m k p as)
    (hw : m.WellFormed)
    (ha : (a, sizeofMemBlock + MIN_MEMBLOCK_SIZE * 2 ^ (k : ℕ)) ∈ m.chunks)
    (hown : own a ≠ some (.pool k)) :
    PoolOk (Function.update own a (some (.pool k))) (FreeList.push m a p) k a (a :: as) := by
  have hnot : a ∉ as := fun hin => hown (h.owned a hin)
  refine ⟨h.chain.push hw ha (by rw [sizeofMemBlock]; omega) hnot,
    List.nodup_cons.mpr ⟨hnot, h.nodup⟩, ?_⟩
  intro c hc
  rcases List.mem_cons.mp hc with rfl | hc
  · exact Function.update_self ..
  · rw [Function.update_of_ne (fun he : c = a => hnot (he ▸ hc))]
    exact h.owned c hc

/-- A block that is freed goes back where the size in front of it says it came from. -/
theorem Owned.release {b : Block} (h : Owned own free (b :: bus) s) :
    ∃ m g, s.freeMsgBlock b.buffer = some { s with mem := m, global := g } ∧
      g.m_MsgQueue = s.global.m_MsgQueue ∧
      ∃ own' free', Owned own' free' bus { s with mem := m, global := g } := by
  have hfull := h.bus.full b List.mem_cons_self
  have hown := h.bus.owned b List.mem_cons_self
  have hlive : (b.base, chunkSize b.msg.size) ∈ s.mem.chunks := hfull.live
  have hptr : b.buffer - sizeofSizeT = b.base + chunkOffset b.msg.size := Nat.add_sub_cancel ..
  have hsize := hfull.size_eq
  rw [hptr] at hsize
  by_cases hle : b.msg.size ≤ maxPoolSize
  · have hbase : b.base + chunkOffset b.msg.size - DATA_OFFSET = b.base := by
      rw [chunkOffset_of_le hle, Nat.add_sub_cancel]
    refine ⟨_, _, freeMsgBlock_pooled hptr hsize hle, rfl, ?_⟩
    rw [hbase]
    rw [chunkSize_of_le hle] at hlive
    generalize poolIndex b.msg.size hle = k at hlive ⊢
    have hpush := (h.pool k).push h.wf hlive (by simp [hown])
    have hframe : Memory.Frame b.base s.mem
        (FreeList.push s.mem b.base (s.global.m_Pools k).m_pBlockList) :=
      FreeList.frame_push h.wf hlive (by rw [sizeofMemBlock]; omega)
    refine ⟨Function.update own b.base (some (.pool k)), Function.update free k (b.base :: free k),
      h.transfer hframe (h.wf.write _ _) (fun _ => ⟨_, hlive⟩) ?_
        (fun j => .inl ⟨by simp [hown], rfl⟩) (.inr (h.bus.tail _ hframe))⟩
    intro j
    by_cases hj : j = k
    · subst hj
      right
      simpa [GlobalObject.setBlockList] using hpush
    · left
      simp [hown, hj, GlobalObject.setBlockList]
  · have hmax : b.msg.size > s.global.m_MaxPoolSize := by
      rw [s.global.maxPoolSize_eq]
      omega
    have hbase : b.base + chunkOffset b.msg.size = b.base := by
      rw [chunkOffset_of_lt hle, Nat.add_zero]
    rw [hbase] at hptr hsize
    obtain ⟨m', hm'⟩ := Memory.free_of_live hlive
    have hframe := Memory.frame_free hm'
    have heq := freeMsgBlock_direct hptr hsize hmax
    rw [hm', Option.map_some] at heq
    exact ⟨m', s.global, heq, rfl, Function.update own b.base none, free,
      h.transfer hframe (h.wf.free hm') (fun hx => absurd rfl hx)
        (fun j => .inl ⟨by simp [hown], rfl, rfl⟩) (fun j => .inl ⟨by simp [hown], rfl⟩)
        (.inr (h.bus.tail _ hframe))⟩

end

end RgcFifa
