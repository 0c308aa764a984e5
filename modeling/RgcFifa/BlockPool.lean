import RgcFifa.MessageBus

/-! One `MemBlockPool` and the threads that use it. `Alloc` takes two steps, since it calls
`malloc` outside of its lock. -/

namespace RgcFifa

namespace MemBlockPool

/-- `sizeof(MemBlock) + m_Size`, in a `size_t`. -/
def blockSize (pool : MemBlockPool) : ℕ := (sizeofMemBlock + pool.m_Size) % 2 ^ 64

/-- The loop of `~MemBlockPool`, for at most `fuel` rounds, with the blocks that it frees. -/
def destroy : ℕ → Memory → ℕ → Option (Memory × List ℕ)
  | 0, _, _ => none
  | fuel + 1, m, ptr =>
      if ptr = 0 then some (m, [])
      else (m.free ptr).bind fun m' =>
        (destroy fuel m' (FreeList.next m ptr)).map fun r => (r.1, ptr :: r.2)

end MemBlockPool

/-- `waiting` are the threads whose `Alloc` has found the list empty. `live` is history: the
data pointers that have been handed out and not freed. -/
structure PoolHeap where
  mem : Memory
  pool : MemBlockPool
  waiting : Finset ℕ
  live : List ℕ

inductive PoolEvent where
  | alloc (i : ℕ)
  | malloc (i : ℕ) (a : Option ℕ)
  | free (ptr : ℕ)
  | write (ptr off : ℕ) (bs : List UInt8)

namespace PoolHeap

def start (m : Memory) (size : ℕ) : PoolHeap := ⟨m, ⟨size, 0⟩, ∅, []⟩

def allocated (ptr : ℕ) (s : PoolHeap) : PoolHeap := { s with live := ptr :: s.live }

/-- Users free what they hold, and write behind `next`, up to the end of the block. -/
def step : PoolEvent → PoolHeap → Option PoolHeap
  | .alloc i, s =>
      if i ∈ s.waiting then none
      else
        match s.pool.Alloc s.mem with
        | some (ptr, pool) => some ({ s with pool }.allocated ptr)
        | none => some { s with waiting := insert i s.waiting }
  | .malloc i a, s =>
      if i ∈ s.waiting then
        let s := { s with waiting := s.waiting.erase i }
        match a with
        | none => some s
        | some a => (s.mem.malloc a s.pool.blockSize).map fun mem =>
            { s with mem }.allocated (a + DATA_OFFSET)
      else none
  | .free ptr, s =>
      if ptr = 0 then some s
      else if ptr ∈ s.live then
        let (mem, pool) := s.pool.Free s.mem ptr
        some { s with mem, pool, live := s.live.erase ptr }
      else none
  | .write ptr off bs, s =>
      if ptr ∈ s.live ∧ DATA_OFFSET + off + bs.length ≤ s.pool.blockSize then
        some { s with mem := s.mem.write (ptr + off) bs }
      else none

/-- What the `Alloc` that a step ends returns. -/
def returned : PoolEvent → PoolHeap → Option ℕ
  | .alloc _, s => (s.pool.Alloc s.mem).map Prod.fst
  | .malloc _ a, _ => a.map (· + DATA_OFFSET)
  | .free _, _ => none
  | .write _ _ _, _ => none

/-- The list runs through `blocks` and ends. -/
def Listed (s : PoolHeap) (blocks : List ℕ) : Prop :=
  FreeList.Chain s.mem s.pool.blockSize s.pool.m_pBlockList blocks ∧ blocks.Nodup

/-- `~MemBlockPool` ends and frees the free blocks, each once, and no live block. -/
def Destroyed (s : PoolHeap) (blocks : List ℕ) : Prop :=
  ∃ fuel m, MemBlockPool.destroy fuel s.mem s.pool.m_pBlockList = some (m, blocks) ∧
    ∀ ptr ∈ s.live, (ptr - DATA_OFFSET, s.pool.blockSize) ∈ m.chunks

structure Safe (s : PoolHeap) : Prop where
  listed : ∃ blocks, s.Listed blocks ∧ (∀ ptr ∈ s.live, ptr - DATA_OFFSET ∉ blocks) ∧
    s.Destroyed blocks
  apart : s.live.Pairwise fun p q =>
    Memory.Apart (p - DATA_OFFSET, s.pool.blockSize) (q - DATA_OFFSET, s.pool.blockSize)
  fresh : ∀ e t ptr, step e s = some t → s.returned e = some ptr → ptr ∉ s.live
  unaltered : ∀ ptr off bs t, step (.write ptr off bs) s = some t →
    t.pool = s.pool ∧ ∀ blocks, s.Listed blocks → t.Listed blocks

/-- The list of free blocks beside the live ones, all of `n` bytes. -/
abbrev Stocked (s : PoolHeap) (n : ℕ) (blocks : List ℕ) : Prop :=
  FreeList.Stock (fun _ : Unit => n) s.mem (fun _ => s.pool.m_pBlockList) (fun _ => blocks)
    (s.live.map fun ptr => (ptr - DATA_OFFSET, n))

structure Inv (n : ℕ) (s : PoolHeap) : Prop where
  stocked : ∃ blocks, s.Stocked n blocks
  blockSize : s.pool.blockSize = n
  size : sizeofMemBlock ≤ n
  offset : ∀ ptr ∈ s.live, DATA_OFFSET < ptr

variable {s t : PoolHeap} {n : ℕ} {blocks : List ℕ}

theorem inv_start {m : Memory} {size : ℕ} (hm : m.WellFormed)
    (hsize : sizeofMemBlock + size < 2 ^ 64) : (start m size).Inv (sizeofMemBlock + size) where
  stocked := by
    refine ⟨[], hm, fun _ => rfl, fun _ => List.nodup_nil, fun _ _ _ h => ?_, fun _ h => ?_,
      List.nodup_nil, fun _ h => ?_⟩
    · cases h
    · cases h
    · cases h
  blockSize := Nat.mod_eq_of_lt hsize
  size := Nat.le_add_right _ _
  offset := fun _ h => nomatch h

/-- The list gives its first block to a user. -/
theorem Stocked.pop {ptr : ℕ} {pool : MemBlockPool} (h : s.Stocked n blocks)
    (hp : s.pool.Alloc s.mem = some (ptr, pool)) : ∃ a rest, blocks = a :: rest ∧ 0 < a ∧
      ptr = a + DATA_OFFSET ∧ pool.m_Size = s.pool.m_Size ∧
      ({ s with pool }.allocated ptr).Stocked n rest := by
  rw [MemBlockPool.Alloc] at hp
  split_ifs at hp with hnil
  obtain ⟨rfl, rfl⟩ := Prod.mk.inj (Option.some.inj hp)
  cases blocks with
  | nil => exact absurd (h.chain ()) hnil
  | cons a rest =>
    obtain ⟨hhead, hpos, -⟩ := h.chain ()
    have htake := h.take (i := ()) rfl
    rw [Function.update_eq_const_of_subsingleton, Function.update_eq_const_of_subsingleton,
      ← hhead] at htake
    refine ⟨a, rest, rfl, hpos, by rw [hhead], rfl, ?_⟩
    rw [Stocked, allocated, List.map_cons, Nat.add_sub_cancel]
    exact htake

theorem Inv.step {e : PoolEvent} (h : s.Inv n) (ht : step e s = some t) : t.Inv n := by
  obtain ⟨blocks, hs⟩ := h.stocked
  have hsixteen : sizeofMemBlock = 16 := rfl
  have hsize := h.size
  cases e with
  | alloc i =>
    simp only [PoolHeap.step] at ht
    split_ifs at ht
    cases hp : s.pool.Alloc s.mem with
    | none =>
      rw [hp] at ht
      obtain rfl := Option.some.inj ht
      exact ⟨⟨blocks, hs⟩, h.blockSize, h.size, h.offset⟩
    | some r =>
      obtain ⟨ptr, pool⟩ := r
      rw [hp] at ht
      obtain rfl := Option.some.inj ht
      obtain ⟨a, rest, -, hpos, rfl, hsame, hstock⟩ := hs.pop hp
      have hblock : pool.blockSize = n := by
        rw [← h.blockSize, MemBlockPool.blockSize, hsame, MemBlockPool.blockSize]
      exact ⟨⟨rest, hstock⟩, hblock, h.size, by simpa [allocated, hpos] using h.offset⟩
  | malloc i a =>
    simp only [PoolHeap.step] at ht
    split_ifs at ht
    cases a with
    | none =>
      obtain rfl := Option.some.inj ht
      exact ⟨⟨blocks, hs⟩, h.blockSize, h.size, h.offset⟩
    | some a =>
      obtain ⟨m, hm, rfl⟩ := Option.map_eq_some_iff.mp ht
      rw [h.blockSize] at hm
      have hpos := (Memory.malloc_eq hm).1
      exact ⟨⟨blocks, hs.malloc (by omega) hm⟩, h.blockSize, h.size,
        by simpa [allocated, hpos] using h.offset⟩
  | free ptr =>
    simp only [PoolHeap.step] at ht
    split_ifs at ht with hzero hlive
    · obtain rfl := Option.some.inj ht
      exact h
    · obtain rfl := Option.some.inj ht
      have hperm := (List.perm_cons_erase hlive).map fun ptr => (ptr - DATA_OFFSET, n)
      have hput := (hs.perm hperm).put (i := ()) (by omega)
      rw [Function.update_eq_const_of_subsingleton, Function.update_eq_const_of_subsingleton]
        at hput
      exact ⟨⟨_, hput⟩, h.blockSize, h.size, fun p hp => h.offset p (List.mem_of_mem_erase hp)⟩
  | write ptr off bs =>
    simp only [PoolHeap.step] at ht
    split_ifs at ht with hw
    obtain rfl := Option.some.inj ht
    obtain ⟨hlive, hfit⟩ := hw
    rw [h.blockSize] at hfit
    have hwrite := hs.write (List.mem_map_of_mem hlive) hfit
    have hoff := h.offset ptr hlive
    have haddr : ptr - DATA_OFFSET + (DATA_OFFSET + off) = ptr + off := by omega
    rw [haddr] at hwrite
    exact ⟨⟨blocks, hwrite⟩, h.blockSize, h.size, h.offset⟩

/-- The loop frees the first block and goes on with a list that the free has left alone. -/
theorem destroy_chain {m : Memory} {p : ℕ} (h : FreeList.Chain m n p blocks)
    (hnodup : blocks.Nodup) : ∃ m',
      MemBlockPool.destroy (blocks.length + 1) m p = some (m', blocks) ∧
      ∀ c ∈ m.chunks, c.1 ∉ blocks → c ∈ m'.chunks := by
  induction blocks generalizing m p with
  | nil =>
    obtain rfl : p = 0 := h
    exact ⟨m, rfl, fun c hc _ => hc⟩
  | cons a rest ih =>
    have hlive := h.live List.mem_cons_self
    have hnext := h.next
    obtain ⟨rfl, hpos, -⟩ := h
    obtain ⟨hnot, hrest⟩ := List.nodup_cons.mp hnodup
    obtain ⟨m', hm⟩ := Memory.free_of_live hlive
    have hframe := Memory.frame_free hm
    have htail : FreeList.Chain m' n (FreeList.next m p) rest :=
      hnext.mono fun b hb k off bs hold => hframe b k off bs (fun he => hnot (he ▸ hb)) hold
    obtain ⟨m'', hdestroy, hkept⟩ := ih htail hrest
    refine ⟨m'', ?_, fun c hc hnc => ?_⟩
    · rw [List.length_cons, MemBlockPool.destroy, if_neg hpos.ne', hm, Option.bind_some, hdestroy]
      rfl
    · rw [List.mem_cons, not_or] at hnc
      obtain ⟨hne, hnr⟩ := hnc
      exact hkept c (hframe _ _ _ _ hne (Memory.holds_nil hc)).live hnr

theorem Stocked.mem_used (h : s.Stocked n blocks) {ptr : ℕ} (hp : ptr ∈ s.live) :
    (ptr - DATA_OFFSET, n) ∈ s.mem.chunks ∧ ptr - DATA_OFFSET ∉ blocks := by
  have hused : (ptr - DATA_OFFSET, n) ∈ s.live.map fun ptr => (ptr - DATA_OFFSET, n) :=
    List.mem_map_of_mem hp
  exact ⟨h.live _ hused, h.disjoint _ hused ()⟩

theorem Inv.fresh {e : PoolEvent} {ptr : ℕ} (h : s.Inv n) (ht : PoolHeap.step e s = some t)
    (hr : s.returned e = some ptr) : ptr ∉ s.live := by
  obtain ⟨blocks, hs⟩ := h.stocked
  intro hlive
  obtain ⟨hchunk, hnot⟩ := hs.mem_used hlive
  cases e with
  | alloc i =>
    obtain ⟨⟨p, pool⟩, hp, rfl⟩ := Option.map_eq_some_iff.mp hr
    obtain ⟨a, rest, rfl, -, rfl, -⟩ := hs.pop hp
    exact hnot (by simp)
  | malloc i a =>
    obtain ⟨a, rfl, rfl⟩ := Option.map_eq_some_iff.mp hr
    simp only [PoolHeap.step] at ht
    split_ifs at ht
    obtain ⟨m, hm, -⟩ := Option.map_eq_some_iff.mp ht
    have hsize := h.size
    have hsixteen : sizeofMemBlock = 16 := rfl
    rw [h.blockSize] at hm
    rw [Nat.add_sub_cancel] at hchunk
    exact hs.wf.fresh (by omega) hm hchunk
  | free ptr => cases hr
  | write ptr off bs => cases hr

theorem Inv.safe (h : s.Inv n) : s.Safe := by
  obtain ⟨blocks, hs⟩ := h.stocked
  have hn := h.blockSize
  refine ⟨⟨blocks, ⟨?_, hs.nodup ()⟩, fun ptr hp => (hs.mem_used hp).2, ?_⟩, ?_,
    fun e t ptr => h.fresh, fun ptr off bs t ht => ⟨?_, fun list hlist => ?_⟩⟩
  · rw [hn]
    exact hs.chain ()
  · obtain ⟨m, hm, hkept⟩ := destroy_chain (hs.chain ()) (hs.nodup ())
    refine ⟨blocks.length + 1, m, hm, fun ptr hp => ?_⟩
    obtain ⟨hchunk, hnot⟩ := hs.mem_used hp
    rw [hn]
    exact hkept _ hchunk hnot
  · have hnodup : (s.live.map (· - DATA_OFFSET)).Nodup := by
      simpa [List.map_map, Function.comp_def] using hs.used_nodup
    rw [hn]
    apply (List.pairwise_map.mp hnodup).imp_of_mem
    intro p q hp hq hne
    exact hs.wf.apart_of_ne (hs.mem_used hp).1 (hs.mem_used hq).1 hne
  · simp only [PoolHeap.step] at ht
    split_ifs at ht
    obtain rfl := Option.some.inj ht
    rfl
  · have htinv := h.step ht
    simp only [PoolHeap.step] at ht
    split_ifs at ht with hw
    obtain rfl := Option.some.inj ht
    obtain ⟨hlive, hfit⟩ := hw
    rw [hn] at hfit
    have hwrite := hs.write (List.mem_map_of_mem hlive) hfit
    have hoff := h.offset ptr hlive
    have haddr : ptr - DATA_OFFSET + (DATA_OFFSET + off) = ptr + off := by omega
    rw [haddr] at hwrite
    obtain ⟨hchain, hnodup⟩ := hlist
    rw [hn] at hchain
    obtain rfl := hchain.unique (hs.chain ())
    exact ⟨by rw [htinv.blockSize]; exact hwrite.chain (), hnodup⟩

end PoolHeap

theorem pool_never_hands_out_live {m : Memory} {size : ℕ} {es : List PoolEvent} {s : PoolHeap}
    (hm : m.WellFormed) (hsize : sizeofMemBlock + size < 2 ^ 64)
    (hs : Transition.run PoolHeap.step es (PoolHeap.start m size) = some s) : s.Safe := by
  have hinv : s.Inv (sizeofMemBlock + size) := Transition.run_preserves
    (I := PoolHeap.Inv (sizeofMemBlock + size)) (fun _ _ _ hi ht => hi.step ht)
    (PoolHeap.inv_start hm hsize) hs
  exact hinv.safe

/-- Two threads find the list empty; of their blocks the second is freed and handed out again. -/
theorem pool_reuses_freed : ∃ s, Transition.run PoolHeap.step
    [.alloc 0, .alloc 1, .malloc 1 (some 64), .malloc 0 (some 256), .write 72 0 [1, 2, 3],
      .free 264, .write 72 5 [4], .alloc 1]
    (PoolHeap.start ⟨fun _ => 0, []⟩ 128) = some s ∧ s.Safe ∧ s.live = [264, 72] := by
  obtain ⟨s, hs, hlive⟩ := Transition.exists_run PoolHeap.step
    [.alloc 0, .alloc 1, .malloc 1 (some 64), .malloc 0 (some 256), .write 72 0 [1, 2, 3],
      .free 264, .write 72 5 [4], .alloc 1]
    (PoolHeap.start ⟨fun _ => 0, []⟩ 128) (fun s => s.live = [264, 72]) (by decide)
  have hm : (⟨fun _ => 0, []⟩ : Memory).WellFormed :=
    ⟨List.Pairwise.nil, fun _ h => absurd h List.not_mem_nil⟩
  have hsize : sizeofMemBlock + 128 < 2 ^ 64 := by decide
  have hsafe : s.Safe := pool_never_hands_out_live hm hsize hs
  exact ⟨s, hs, hsafe, hlive⟩

end RgcFifa
