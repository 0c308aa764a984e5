import RgcFifa.BlockPool

/-! `AllocMsgBlock` and `FreeMsgBlock` after `Init`. The first looks for a size class and leaves
the size in front of the block, and the second looks for the class of the size it finds there. -/

namespace RgcFifa

open ByteWords

/-- The loop `while(size > poolSize)`, for at most `fuel` rounds. -/
def searchPool (size : UInt64) : ℕ → ℕ → UInt64 → Option ℕ
  | 0, _, _ => none
  | fuel + 1, index, poolSize =>
      if size > poolSize then searchPool size fuel (index + 1) (poolSize * 2) else some index

inductive SizeClass where
  | malloc (bytes : ℕ)
  | pool (index : ℕ)
  deriving DecidableEq

namespace SizeClass

/-- The offset in its chunk of the pointer that `malloc` or `Alloc` returns. -/
def offset : SizeClass → ℕ
  | malloc _ => 0
  | pool _ => DATA_OFFSET

def chunkSize : SizeClass → ℕ
  | malloc bytes => bytes
  | pool index => sizeofMemBlock + MIN_MEMBLOCK_SIZE * 2 ^ index

/-- The class for `size` bytes: the least pool whose blocks hold them, or a chunk of its own
for more than any pool holds. -/
def Suits (size : ℕ) : SizeClass → Prop
  | malloc bytes => bytes = size ∧ maxPoolSize < size
  | pool index => index < MEMPOOL_NUM ∧ size ≤ MIN_MEMBLOCK_SIZE * 2 ^ index ∧
      ∀ j < index, MIN_MEMBLOCK_SIZE * 2 ^ j < size

end SizeClass

namespace GlobalObject

/-- After 57 rounds `poolSize` has become zero, and a loop with 64 rounds goes on for ever. -/
def sizeClass (g : GlobalObject) (size : UInt64) : Option SizeClass :=
  if size.toNat > g.m_MaxPoolSize then some (.malloc size.toNat)
  else (searchPool size 64 0 (UInt64.ofNat MIN_MEMBLOCK_SIZE)).map .pool

end GlobalObject

/-- The whole of `Alloc`; `a` is what `malloc` returns. -/
def MemBlockPool.allocate (a : Option ℕ) (m : Memory) (pool : MemBlockPool) :
    Option (Option ℕ × Memory × MemBlockPool) :=
  match pool.Alloc m with
  | some (ptr, pool) => some (some ptr, m, pool)
  | none =>
      match a with
      | none => some (none, m, pool)
      | some a => (m.malloc a pool.blockSize).map fun m => (some (a + DATA_OFFSET), m, pool)

/-- A request that `size += sizeof(size_t)` does not wrap. -/
structure MsgRequest where
  size : UInt64
  fits : size.toNat + sizeofSizeT < 2 ^ 64
  deriving DecidableEq

def MsgRequest.stored (r : MsgRequest) : UInt64 := r.size + UInt64.ofNat sizeofSizeT

/-- A block that a caller holds, with the class that it was allocated from. -/
structure HeldBlock where
  base : ℕ
  request : MsgRequest
  sizeClass : SizeClass
  deriving DecidableEq

namespace HeldBlock

def mem (b : HeldBlock) : ℕ := b.base + b.sizeClass.offset
def buffer (b : HeldBlock) : ℕ := b.mem + sizeofSizeT
def chunk (b : HeldBlock) : ℕ × ℕ := (b.base, b.sizeClass.chunkSize)

end HeldBlock

/-- The memory and the pools. `held` is history. -/
structure MsgHeap where
  mem : Memory
  global : GlobalObject
  held : List HeldBlock

inductive MsgHeapEvent where
  | alloc (r : MsgRequest) (a : Option ℕ)
  | free (ptr : ℕ)
  | write (ptr off : ℕ) (bs : List UInt8)

namespace MsgHeap

def start (m : Memory) : MsgHeap := ⟨m, GlobalObject.Init, []⟩

/-- The branches of `AllocMsgBlock`. -/
def take (c : SizeClass) (a : Option ℕ) (s : MsgHeap) : Option (Option ℕ × MsgHeap) :=
  match c with
  | .malloc bytes =>
      match a with
      | none => some (none, s)
      | some a => (s.mem.malloc a bytes).map fun mem => (some a, { s with mem })
  | .pool index =>
      if h : index < MEMPOOL_NUM then
        ((s.global.m_Pools ⟨index, h⟩).allocate a s.mem).map fun (ptr, mem, pool) =>
          (ptr, { s with mem, global := s.global.setBlockList ⟨index, h⟩ pool.m_pBlockList })
      else none

def AllocMsgBlock (r : MsgRequest) (a : Option ℕ) (s : MsgHeap) : Option MsgHeap :=
  (s.global.sizeClass r.stored).bind fun c =>
    (s.take c a).map fun (ptr, t) =>
      match ptr with
      | none => t
      | some ptr => { t with
          mem := t.mem.write ptr (le sizeofSizeT r.stored.toNat)
          held := ⟨ptr - c.offset, r, c⟩ :: t.held }

/-- The class that `FreeMsgBlock` finds. -/
def recomputed (ptr : ℕ) (s : MsgHeap) : Option SizeClass :=
  s.global.sizeClass (UInt64.ofNat (leNat (s.mem.read (ptr - sizeofSizeT) sizeofSizeT)))

/-- The branches of `FreeMsgBlock`. -/
def giveBack (c : SizeClass) (mem : ℕ) (s : MsgHeap) : Option MsgHeap :=
  match c with
  | .malloc _ => (s.mem.free mem).map fun m => { s with mem := m }
  | .pool index =>
      if h : index < MEMPOOL_NUM then
        let (m, pool) := (s.global.m_Pools ⟨index, h⟩).Free s.mem mem
        some { s with mem := m, global := s.global.setBlockList ⟨index, h⟩ pool.m_pBlockList }
      else none

def FreeMsgBlock (ptr : ℕ) (s : MsgHeap) : Option MsgHeap :=
  (s.recomputed ptr).bind fun c => s.giveBack c (ptr - sizeofSizeT)

/-- Callers free the blocks that they hold, and write into the bytes that they have asked for. -/
def step : MsgHeapEvent → MsgHeap → Option MsgHeap
  | .alloc r a, s => s.AllocMsgBlock r a
  | .free ptr, s =>
      if ptr = 0 then some s
      else (s.held.find? (·.buffer = ptr)).bind fun b =>
        { s with held := s.held.erase b }.FreeMsgBlock b.buffer
  | .write ptr off bs, s =>
      if ∃ b ∈ s.held, b.buffer = ptr ∧ off + bs.length ≤ b.request.size.toNat then
        some { s with mem := s.mem.write (ptr + off) bs }
      else none

end MsgHeap

section

variable {size : UInt64} {fuel index i : ℕ} {poolSize : UInt64}

theorem searchPool_mono (h : searchPool size fuel index poolSize = some i) (k : ℕ) :
    searchPool size (fuel + k) index poolSize = some i := by
  induction fuel generalizing index poolSize with
  | zero => simp [searchPool] at h
  | succ fuel ih =>
    rw [Nat.add_right_comm, searchPool]
    rw [searchPool] at h
    split_ifs at h ⊢ with hs
    · exact ih h
    · exact h

/-- As long as `poolSize` does not wrap, the loop is the one on numbers. -/
theorem searchPool_eq (hsize : size.toNat ≤ poolSize.toNat * 2 ^ fuel)
    (hmax : poolSize.toNat * 2 ^ fuel < 2 ^ 64) : searchPool size (fuel + 1) index poolSize =
      some (poolLoop size.toNat fuel index poolSize.toNat) := by
  induction fuel generalizing index poolSize with
  | zero =>
    have hle : ¬ size > poolSize := by
      rw [gt_iff_lt, UInt64.lt_iff_toNat_lt]
      omega
    rw [searchPool, if_neg hle, poolLoop]
  | succ fuel ih =>
    rw [searchPool, poolLoop]
    simp only [gt_iff_lt, UInt64.lt_iff_toNat_lt]
    split_ifs with hs
    · have hpow : 1 ≤ 2 ^ fuel := Nat.one_le_two_pow
      have hdouble : poolSize.toNat * 2 * 2 ^ fuel = poolSize.toNat * 2 ^ (fuel + 1) := by
        rw [mul_assoc, ← pow_succ']
      have hnowrap : poolSize.toNat * 2 < 2 ^ 64 :=
        (Nat.le_mul_of_pos_right _ hpow).trans_lt (hdouble ▸ hmax)
      have hnext : (poolSize * 2).toNat = poolSize.toNat * 2 := by
        rw [UInt64.toNat_mul]
        exact Nat.mod_eq_of_lt hnowrap
      rw [ih (by rw [hnext]; omega) (by rw [hnext]; omega), hnext]
    · rfl

theorem GlobalObject.sizeClass_of_le (g : GlobalObject) (h : size.toNat ≤ maxPoolSize) :
    g.sizeClass size = some (.pool (poolIndex size.toNat h)) := by
  have hsearch : searchPool size (MEMPOOL_NUM + 1) 0 (UInt64.ofNat MIN_MEMBLOCK_SIZE) =
      some (poolLoop size.toNat MEMPOOL_NUM 0 MIN_MEMBLOCK_SIZE) :=
    searchPool_eq (h.trans (by decide)) (by decide)
  have hlong := searchPool_mono hsearch 53
  rw [sizeClass, if_neg (by rw [g.maxPoolSize_eq]; omega)]
  exact congrArg (Option.map SizeClass.pool) hlong

theorem GlobalObject.sizeClass_of_lt (g : GlobalObject) (h : maxPoolSize < size.toNat) :
    g.sizeClass size = some (.malloc size.toNat) := by
  rw [sizeClass, if_pos (by rw [g.maxPoolSize_eq]; exact h)]

/-- The loop ends in every case, and with the class for the size. -/
theorem GlobalObject.sizeClass_suits (g : GlobalObject) (size : UInt64) :
    ∃ c, g.sizeClass size = some c ∧ c.Suits size.toNat := by
  by_cases h : size.toNat ≤ maxPoolSize
  · refine ⟨_, g.sizeClass_of_le h, (poolLoop_le h).1, (poolLoop_le h).2, ?_⟩
    have hmax : size.toNat ≤ MIN_MEMBLOCK_SIZE * 2 ^ MEMPOOL_NUM := h.trans (by decide)
    obtain ⟨k, -, hk, -, hleast⟩ := poolLoop_spec 0 hmax
    rw [Nat.zero_add] at hk
    intro j hj
    exact hleast j (by rwa [← hk])
  · exact ⟨_, g.sizeClass_of_lt (not_le.mp h), rfl, not_le.mp h⟩

theorem GlobalObject.sizeClass_congr (g h : GlobalObject) : g.sizeClass = h.sizeClass := by
  funext size
  rw [sizeClass, sizeClass, g.maxPoolSize_eq, h.maxPoolSize_eq]

theorem GlobalObject.blockSize_eq (g : GlobalObject) (i : Fin MEMPOOL_NUM) :
    (g.m_Pools i).blockSize = sizeofMemBlock + MIN_MEMBLOCK_SIZE * 2 ^ (i : ℕ) := by
  rw [MemBlockPool.blockSize, g.poolSize_eq]
  revert i
  decide

theorem MsgRequest.toNat_stored (r : MsgRequest) :
    r.stored.toNat = r.size.toNat + sizeofSizeT := by
  have hword : (UInt64.ofNat sizeofSizeT).toNat = sizeofSizeT := rfl
  rw [stored, UInt64.toNat_add, hword, Nat.mod_eq_of_lt r.fits]

/-- The header and the bytes asked for lie in the chunk. -/
theorem SizeClass.Suits.room {c : SizeClass} {n : ℕ} (h : c.Suits (n + sizeofSizeT)) :
    c.offset + sizeofSizeT + n ≤ c.chunkSize := by
  have hword : sizeofSizeT = 8 := rfl
  have hblock : sizeofMemBlock = 16 := rfl
  have hdata : DATA_OFFSET = 8 := rfl
  cases c with
  | malloc bytes =>
    have hbytes := h.1
    simp only [offset, chunkSize]
    omega
  | pool index =>
    have hle := h.2.1
    simp only [offset, chunkSize]
    omega

end

/-- The class that the size in front of the block leads to is the one it comes from. -/
structure HeldBlock.Ok (m : Memory) (b : HeldBlock) : Prop where
  sizeClass : GlobalObject.Init.sizeClass b.request.stored = some b.sizeClass
  suits : b.sizeClass.Suits (b.request.size.toNat + sizeofSizeT)
  header : m.Holds b.base b.sizeClass.chunkSize b.sizeClass.offset
    (le sizeofSizeT b.request.stored.toNat)

namespace MsgHeap

def Stocked (s : MsgHeap) (used : List (ℕ × ℕ)) : Prop :=
  ∃ lists, FreeList.Stock (fun i : Fin MEMPOOL_NUM => (s.global.m_Pools i).blockSize) s.mem
    (fun i => (s.global.m_Pools i).m_pBlockList) lists used

structure Inv (s : MsgHeap) : Prop where
  stocked : s.Stocked (s.held.map HeldBlock.chunk)
  ok : ∀ b ∈ s.held, b.Ok s.mem

structure Sound (s : MsgHeap) : Prop where
  poolSize : ∀ i, (s.global.m_Pools i).m_Size = MIN_MEMBLOCK_SIZE * 2 ^ (i : ℕ)
  chosen : ∀ r : MsgRequest, ∃ c, s.global.sizeClass r.stored = some c ∧
    c.Suits (r.size.toNat + sizeofSizeT)
  allocated : ∀ b ∈ s.held, s.global.sizeClass b.request.stored = some b.sizeClass
  room : ∀ b ∈ s.held, b.chunk ∈ s.mem.chunks ∧ b.base ≤ b.mem ∧
    b.buffer + b.request.size.toNat ≤ b.base + b.sizeClass.chunkSize
  recomputed : ∀ b ∈ s.held, s.recomputed b.buffer = some b.sizeClass
  freed : ∀ b ∈ s.held, ∃ t, step (.free b.buffer) s = some t

variable {s t : MsgHeap} {b : HeldBlock} {c : SizeClass} {a : Option ℕ}
  {used : List (ℕ × ℕ)} {r : MsgRequest}

theorem inv_start {m : Memory} (hm : m.WellFormed) : (start m).Inv where
  stocked := by
    refine ⟨fun _ => [], hm, fun _ => rfl, fun _ => List.nodup_nil, fun _ _ _ h => ?_,
      fun _ h => ?_, List.nodup_nil, fun _ h => ?_⟩
    · cases h
    · cases h
    · cases h
  ok := fun _ h => nomatch h

theorem setBlockList_stock {m : Memory} {lists : Fin MEMPOOL_NUM → List ℕ} {i : Fin MEMPOOL_NUM}
    {p : ℕ} (g : GlobalObject)
    (h : FreeList.Stock (fun i => (g.m_Pools i).blockSize) m
      (Function.update (fun i => (g.m_Pools i).m_pBlockList) i p) lists used) :
    FreeList.Stock (fun j => ((g.setBlockList i p).m_Pools j).blockSize) m
      (fun j => ((g.setBlockList i p).m_Pools j).m_pBlockList) lists used := by
  have hsize : (fun j => ((g.setBlockList i p).m_Pools j).blockSize) =
      fun j => (g.m_Pools j).blockSize := by
    funext j
    rw [GlobalObject.blockSize_eq, GlobalObject.blockSize_eq]
  have hhead : (fun j => ((g.setBlockList i p).m_Pools j).m_pBlockList) =
      Function.update (fun i => (g.m_Pools i).m_pBlockList) i p := by
    funext j
    by_cases hj : j = i
    · simp [GlobalObject.setBlockList, hj]
    · simp [GlobalObject.setBlockList, hj]
  rw [hsize, hhead]
  exact h

/-- A block of the pool goes into use, from its list or from `malloc`. -/
theorem allocate_stock {g : GlobalObject} {i : Fin MEMPOOL_NUM} {m m' : Memory}
    {lists : Fin MEMPOOL_NUM → List ℕ} {ptr : Option ℕ} {pool : MemBlockPool}
    (hs : FreeList.Stock (fun i => (g.m_Pools i).blockSize) m
      (fun i => (g.m_Pools i).m_pBlockList) lists used)
    (hp : (g.m_Pools i).allocate a m = some (ptr, m', pool)) :
    (ptr = none ∧ m' = m ∧ pool = g.m_Pools i) ∨
      ∃ base, ptr = some (base + DATA_OFFSET) ∧ Memory.Frame base m m' ∧ ∃ lists',
        FreeList.Stock (fun i => (g.m_Pools i).blockSize) m'
          (Function.update (fun i => (g.m_Pools i).m_pBlockList) i pool.m_pBlockList) lists'
          ((base, (g.m_Pools i).blockSize) :: used) := by
  have hpos : 0 < (g.m_Pools i).blockSize := by
    rw [g.blockSize_eq]
    exact Nat.add_pos_left (by decide) _
  unfold MemBlockPool.allocate at hp
  cases halloc : (g.m_Pools i).Alloc m with
  | some q =>
    obtain ⟨p, pool'⟩ := q
    rw [halloc] at hp
    obtain ⟨rfl, rfl, rfl⟩ := by simpa using hp
    rw [MemBlockPool.Alloc] at halloc
    split_ifs at halloc with hnil
    obtain ⟨rfl, rfl⟩ := Prod.mk.inj (Option.some.inj halloc)
    have hchain := hs.chain i
    cases hlist : lists i with
    | nil =>
      rw [hlist] at hchain
      exact absurd hchain hnil
    | cons base rest =>
      rw [hlist] at hchain
      have htake := hs.take hlist
      rw [hchain.1]
      exact Or.inr ⟨base, rfl, fun _ _ _ _ _ hold => hold, _, htake⟩
  | none =>
    rw [halloc] at hp
    cases a with
    | none =>
      obtain ⟨rfl, rfl, rfl⟩ := by simpa using hp
      exact Or.inl ⟨rfl, rfl, rfl⟩
    | some a =>
      obtain ⟨m'', hm, heq⟩ := Option.map_eq_some_iff.mp hp
      obtain ⟨rfl, rfl, rfl⟩ := by simpa using heq
      refine Or.inr ⟨a, rfl, Memory.frame_malloc hm a, lists, ?_⟩
      rw [Function.update_eq_self]
      exact hs.malloc hpos hm

/-- A chunk of the class goes into use, at the pointer returned, and no other chunk changes. -/
theorem Stocked.take (h : s.Stocked used) (hc : c.Suits (r.size.toNat + sizeofSizeT))
    {ptr : Option ℕ} (ht : s.take c a = some (ptr, t)) : t.held = s.held ∧
      ((ptr = none ∧ t.mem = s.mem ∧ t.Stocked used) ∨
        ∃ base, ptr = some (base + c.offset) ∧ Memory.Frame base s.mem t.mem ∧
          t.Stocked ((base, c.chunkSize) :: used)) := by
  obtain ⟨lists, hs⟩ := h
  cases c with
  | malloc bytes =>
    have hpos : 0 < bytes := by
      rw [hc.1, sizeofSizeT]
      omega
    cases a with
    | none =>
      obtain ⟨rfl, rfl⟩ := Prod.mk.inj (Option.some.inj ht)
      exact ⟨rfl, Or.inl ⟨rfl, rfl, lists, hs⟩⟩
    | some a =>
      obtain ⟨m, hm, heq⟩ := Option.map_eq_some_iff.mp ht
      obtain ⟨rfl, rfl⟩ := Prod.mk.inj heq
      exact ⟨rfl, Or.inr ⟨a, rfl, Memory.frame_malloc hm a, lists, hs.malloc hpos hm⟩⟩
  | pool index =>
    have hi : index < MEMPOOL_NUM := hc.1
    have hsize : (s.global.m_Pools ⟨index, hi⟩).blockSize = (SizeClass.pool index).chunkSize :=
      s.global.blockSize_eq ⟨index, hi⟩
    rw [MsgHeap.take, dif_pos hi] at ht
    obtain ⟨⟨p, m, pool⟩, hp, heq⟩ := Option.map_eq_some_iff.mp ht
    obtain ⟨rfl, rfl⟩ := Prod.mk.inj heq
    refine ⟨rfl, ?_⟩
    rcases allocate_stock hs hp with ⟨rfl, rfl, rfl⟩ | ⟨base, rfl, hframe, lists', hstock⟩
    · refine Or.inl ⟨rfl, rfl, lists, setBlockList_stock _ ?_⟩
      rw [Function.update_eq_self]
      exact hs
    · rw [hsize] at hstock
      exact Or.inr ⟨base, rfl, hframe, lists', setBlockList_stock _ hstock⟩

/-- A chunk in use goes back to where its class says. -/
theorem Stocked.giveBack {base : ℕ} (h : s.Stocked ((base, c.chunkSize) :: used))
    (hc : c.Suits (r.size.toNat + sizeofSizeT)) :
    ∃ t, s.giveBack c (base + c.offset) = some t ∧ t.held = s.held ∧
      Memory.Frame base s.mem t.mem ∧ t.Stocked used := by
  obtain ⟨lists, hs⟩ := h
  cases c with
  | malloc bytes =>
    obtain ⟨m, hm, hstock⟩ := hs.release
    refine ⟨{ s with mem := m }, ?_, rfl, Memory.frame_free hm, lists, hstock⟩
    rw [MsgHeap.giveBack, SizeClass.offset, Nat.add_zero, hm]
    rfl
  | pool index =>
    have hi : index < MEMPOOL_NUM := hc.1
    have hsize : (s.global.m_Pools ⟨index, hi⟩).blockSize = (SizeClass.pool index).chunkSize :=
      s.global.blockSize_eq ⟨index, hi⟩
    have hword : 8 ≤ (SizeClass.pool index).chunkSize := (by decide : 8 ≤ sizeofMemBlock).trans
      (Nat.le_add_right _ _)
    have hlive : (base, (SizeClass.pool index).chunkSize) ∈ s.mem.chunks :=
      hs.live _ List.mem_cons_self
    have hframe := FreeList.frame_push (p := (s.global.m_Pools ⟨index, hi⟩).m_pBlockList)
      hs.wf hlive hword
    rw [← hsize] at hs hword
    have hput := hs.put (i := (⟨index, hi⟩ : Fin MEMPOOL_NUM)) hword
    have hbase : base + SizeClass.offset (.pool index) - DATA_OFFSET = base := Nat.add_sub_cancel _ _
    let t : MsgHeap := { s with
      mem := FreeList.push s.mem base (s.global.m_Pools ⟨index, hi⟩).m_pBlockList
      global := s.global.setBlockList ⟨index, hi⟩ base }
    have hstock : t.Stocked used := by
      refine ⟨_, setBlockList_stock s.global hput⟩
    refine ⟨t, ?_, rfl, hframe, hstock⟩
    rw [MsgHeap.giveBack, dif_pos hi]
    simp only [MemBlockPool.Free, hbase, t]

theorem Inv.recomputed (h : s.Inv) (hb : b ∈ s.held) : s.recomputed b.buffer = some b.sizeClass := by
  have hok := h.ok b hb
  have hread := hok.header.read_eq
  have hlt : b.request.stored.toNat < 256 ^ sizeofSizeT := b.request.stored.toNat_lt
  rw [length_le] at hread
  rw [MsgHeap.recomputed, HeldBlock.buffer, Nat.add_sub_cancel, HeldBlock.mem, hread,
    leNat_le_of_lt hlt, UInt64.ofNat_toNat, s.global.sizeClass_congr GlobalObject.Init,
    hok.sizeClass]

theorem Inv.release (h : s.Inv) (hb : b ∈ s.held) : ∃ t,
    { s with held := s.held.erase b }.FreeMsgBlock b.buffer = some t ∧ t.Inv := by
  have hok := h.ok b hb
  have hperm := (List.perm_cons_erase hb).map HeldBlock.chunk
  have hne : ∀ b' ∈ s.held.erase b, b'.base ≠ b.base := by
    obtain ⟨lists, hs⟩ := h.stocked
    intro b' hb'
    exact (hs.perm hperm).ne_of_mem (List.mem_map_of_mem hb')
  have hstock : { s with held := s.held.erase b }.Stocked
      (b.chunk :: (s.held.erase b).map HeldBlock.chunk) := by
    obtain ⟨lists, hs⟩ := h.stocked
    exact ⟨lists, hs.perm hperm⟩
  obtain ⟨t, ht, hheld, hframe, hstock⟩ := Stocked.giveBack hstock hok.suits
  have hfree : { s with held := s.held.erase b }.FreeMsgBlock b.buffer = some t := by
    have hclass : { s with held := s.held.erase b }.recomputed b.buffer = some b.sizeClass :=
      h.recomputed hb
    rw [FreeMsgBlock, hclass, Option.bind_some, HeldBlock.buffer, Nat.add_sub_cancel, HeldBlock.mem,
      ht]
  refine ⟨t, hfree, by rwa [hheld], fun b' hb' => ?_⟩
  rw [hheld] at hb'
  have hok' := h.ok b' (List.mem_of_mem_erase hb')
  exact ⟨hok'.sizeClass, hok'.suits, hframe _ _ _ _ (hne b' hb') hok'.header⟩

theorem Inv.alloc (h : s.Inv) (ht : s.AllocMsgBlock r a = some t) : t.Inv := by
  obtain ⟨c, hc, hsuits⟩ := s.global.sizeClass_suits r.stored
  rw [r.toNat_stored] at hsuits
  rw [AllocMsgBlock, hc, Option.bind_some] at ht
  obtain ⟨⟨ptr, u⟩, hu, rfl⟩ := Option.map_eq_some_iff.mp ht
  obtain ⟨hheld, ⟨rfl, hmem, hstock⟩ | ⟨base, rfl, hframe, hstock⟩⟩ :=
    Stocked.take h.stocked hsuits hu
  · refine ⟨by rwa [hheld], fun b hb => ?_⟩
    rw [hheld] at hb
    rw [hmem]
    exact h.ok b hb
  · obtain ⟨lists, hs⟩ := hstock
    have hroom := hsuits.room
    have hfit : c.offset + (le sizeofSizeT r.stored.toNat).length ≤ c.chunkSize := by
      rw [length_le]
      omega
    have hlive := hs.live _ List.mem_cons_self
    have hwrite := hs.write List.mem_cons_self hfit
    have hkept := Memory.frame_write hs.wf hlive hfit
    have hne : ∀ b ∈ s.held, b.base ≠ base := fun b hb =>
      hs.ne_of_mem (List.mem_map_of_mem (f := HeldBlock.chunk) hb)
    have hinit : GlobalObject.Init.sizeClass r.stored = some c := by
      rw [← hc, s.global.sizeClass_congr GlobalObject.Init]
    have hsub : base + c.offset - c.offset = base := Nat.add_sub_cancel _ _
    simp only [hsub, hheld]
    refine ⟨⟨lists, hwrite⟩, fun b hb => ?_⟩
    rcases List.mem_cons.mp hb with rfl | hb
    · exact ⟨hinit, hsuits, Memory.holds_write hlive hfit⟩
    · have hok := h.ok b hb
      exact ⟨hok.sizeClass, hok.suits, hkept _ _ _ _ (hne b hb)
        (hframe _ _ _ _ (hne b hb) hok.header)⟩

/-- What the caller writes leaves the header in front of it alone. -/
theorem Inv.write {off : ℕ} {bs : List UInt8} (h : s.Inv) (hb : b ∈ s.held)
    (hfit : off + bs.length ≤ b.request.size.toNat) :
    Inv { s with mem := s.mem.write (b.buffer + off) bs } := by
  have hok := h.ok b hb
  have hroom := hok.suits.room
  have haddr : b.buffer + off = b.base + (b.sizeClass.offset + sizeofSizeT + off) := by
    rw [HeldBlock.buffer, HeldBlock.mem]
    omega
  have hin : b.sizeClass.offset + sizeofSizeT + off + bs.length ≤ b.sizeClass.chunkSize := by omega
  obtain ⟨lists, hs⟩ := h.stocked
  have hused : (b.base, b.sizeClass.chunkSize) ∈ s.held.map HeldBlock.chunk :=
    List.mem_map_of_mem (f := HeldBlock.chunk) hb
  have hwrite := hs.write hused hin
  rw [haddr]
  refine ⟨⟨lists, hwrite⟩, fun b' hb' => ?_⟩
  have hok' := h.ok b' hb'
  by_cases he : b'.base = b.base
  · have hnodup := hs.used_nodup
    rw [List.map_map] at hnodup
    obtain rfl := List.inj_on_of_nodup_map hnodup hb' hb he
    refine ⟨hok.sizeClass, hok.suits, hok.header.write_after ?_⟩
    rw [length_le]
    omega
  · exact ⟨hok'.sizeClass, hok'.suits,
      Memory.frame_write hs.wf (hs.live _ hused) hin _ _ _ _ he hok'.header⟩

theorem Inv.step {e : MsgHeapEvent} (h : s.Inv) (ht : step e s = some t) : t.Inv := by
  cases e with
  | alloc r a => exact h.alloc ht
  | free ptr =>
    simp only [MsgHeap.step] at ht
    split_ifs at ht
    · obtain rfl := Option.some.inj ht
      exact h
    · obtain ⟨b, hb, hfree⟩ := Option.bind_eq_some_iff.mp ht
      obtain ⟨u, hu, hinv⟩ := h.release (List.mem_of_find?_eq_some hb)
      obtain rfl : u = t := Option.some.inj (hu.symm.trans hfree)
      exact hinv
  | write ptr off bs =>
    simp only [MsgHeap.step] at ht
    split_ifs at ht with hw
    obtain ⟨b, hb, rfl, hfit⟩ := hw
    obtain rfl := Option.some.inj ht
    exact h.write hb hfit

theorem Inv.sound (h : s.Inv) : s.Sound where
  poolSize := s.global.poolSize_eq
  chosen r := by
    have hsuits := s.global.sizeClass_suits r.stored
    rwa [r.toNat_stored] at hsuits
  allocated b hb := by
    rw [s.global.sizeClass_congr GlobalObject.Init]
    exact (h.ok b hb).sizeClass
  room b hb := by
    have hok := h.ok b hb
    have hroom := hok.suits.room
    refine ⟨hok.header.live, Nat.le_add_right _ _, ?_⟩
    rw [HeldBlock.buffer, HeldBlock.mem]
    omega
  recomputed b hb := h.recomputed hb
  freed b hb := by
    have hpos : b.buffer ≠ 0 := Nat.succ_ne_zero _
    have hfound : (s.held.find? (·.buffer = b.buffer)).isSome := by
      rw [List.find?_isSome]
      exact ⟨b, hb, by simp⟩
    obtain ⟨b', hb'⟩ := Option.isSome_iff_exists.mp hfound
    obtain ⟨t, ht, -⟩ := h.release (List.mem_of_find?_eq_some hb')
    exact ⟨t, by simp only [MsgHeap.step, if_neg hpos, hb', Option.bind_some, ht]⟩

end MsgHeap

/-- In every run the class of a size is one that suits it, and the class that a held block is
freed to is the one it was allocated from. -/
theorem size_class_agrees {m : Memory} {es : List MsgHeapEvent} {s : MsgHeap} (hm : m.WellFormed)
    (hs : Transition.run MsgHeap.step es (MsgHeap.start m) = some s) : s.Sound := by
  have hinv : s.Inv := Transition.run_preserves (I := MsgHeap.Inv)
    (fun _ _ _ hi ht => hi.step ht) (MsgHeap.inv_start hm) hs
  exact hinv.sound

/-- A block for 120 bytes fits the first pool, one for a byte more the second, and one for
65529 bytes none. -/
theorem size_class_boundaries : ∃ s, Transition.run MsgHeap.step
    [.alloc ⟨120, by decide⟩ (some 64), .alloc ⟨121, by decide⟩ (some 256),
      .write 80 0 [0xFF, 0xFF], .alloc ⟨65529, by decide⟩ (some 1024), .free 272,
      .alloc ⟨200, by decide⟩ none]
    (MsgHeap.start ⟨fun _ => 0, []⟩) = some s ∧ s.Sound ∧
      s.held.map HeldBlock.sizeClass = [.pool 1, .malloc 65537, .pool 0] := by
  obtain ⟨s, hs, hheld⟩ := Transition.exists_run MsgHeap.step
    [.alloc ⟨120, by decide⟩ (some 64), .alloc ⟨121, by decide⟩ (some 256),
      .write 80 0 [0xFF, 0xFF], .alloc ⟨65529, by decide⟩ (some 1024), .free 272,
      .alloc ⟨200, by decide⟩ none]
    (MsgHeap.start ⟨fun _ => 0, []⟩)
    (fun s => s.held.map HeldBlock.sizeClass = [.pool 1, .malloc 65537, .pool 0]) (by decide)
  exact ⟨s, hs, size_class_agrees ⟨List.Pairwise.nil, fun _ h => absurd h List.not_mem_nil⟩ hs,
    hheld⟩

end RgcFifa
