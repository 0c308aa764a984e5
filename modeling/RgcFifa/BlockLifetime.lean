import RgcFifa.MessageBus

/-! The calls of the block allocator in any order, across `Init` and `UnInit`. What hands
a block out is kept beside it, and `FreeMsgBlock` finds its way back from the size alone. -/

namespace RgcFifa

/-- A pool is known by the call of `Init` that made it and its place in `m_Pools`. -/
inductive Allocator where
  | malloc
  | pool (era : ℕ) (index : Fin MEMPOOL_NUM)
  deriving DecidableEq

def Allocator.index : Allocator → Option (Fin MEMPOOL_NUM)
  | malloc => none
  | pool _ i => some i

/-- `size` is the word before the data. The other fields are history: the call of `malloc`
that made the chunk, what handed it out, and how often `Init` had been called by then. -/
structure LiveBlock where
  chunk : ℕ
  size : UInt64
  origin : Allocator
  born : ℕ
  deriving DecidableEq

structure EraPool where
  era : ℕ
  m_Size : ℕ
  m_pBlockList : List ℕ
  deriving DecidableEq

/-- `held` are the blocks in the hands of callers. The last three fields are history:
the calls of `malloc` and of `Init`, and whether an `Init` has been called since the last
`UnInit`. -/
structure BlockStore where
  m_MsgQueue : List LiveBlock
  m_Pools : Fin MEMPOOL_NUM → Option EraPool
  m_MaxPoolSize : ℕ
  held : List LiveBlock
  mallocs : ℕ
  inits : ℕ
  up : Bool

namespace BlockStore

def fresh : BlockStore := ⟨[], fun _ => none, 0, [], 0, 0, false⟩

def Init (s : BlockStore) : BlockStore :=
  { s with
    m_Pools i := some ⟨s.inits + 1, (· * 2)^[i] MIN_MEMBLOCK_SIZE, []⟩
    m_MaxPoolSize := (· * 2)^[MEMPOOL_NUM - 1] MIN_MEMBLOCK_SIZE
    inits := s.inits + 1
    up := true }

/-- The way that `AllocMsgBlock` and `FreeMsgBlock` share: `none` when it comes to a null
entry of `m_Pools`, or past its end. -/
def reach (s : BlockStore) (size : UInt64) : Option Allocator :=
  if size.toNat > s.m_MaxPoolSize then some .malloc
  else
    let index := poolLoop size.toNat MEMPOOL_NUM 0 MIN_MEMBLOCK_SIZE
    if h : index < MEMPOOL_NUM then
      (s.m_Pools ⟨index, h⟩).map fun pool => .pool pool.era ⟨index, h⟩
    else none

def malloc (s : BlockStore) (fails : Bool) : Option ℕ × BlockStore :=
  if fails then (none, s) else (some s.mallocs, { s with mallocs := s.mallocs + 1 })

def setBlockList (s : BlockStore) (i : Fin MEMPOOL_NUM) (blocks : List ℕ) : BlockStore :=
  let pool := (s.m_Pools i).map fun pool => { pool with m_pBlockList := blocks }
  { s with m_Pools := Function.update s.m_Pools i pool }

def blockList (s : BlockStore) (i : Fin MEMPOOL_NUM) : List ℕ :=
  match s.m_Pools i with
  | some pool => pool.m_pBlockList
  | none => []

/-- `MemBlockPool::Alloc` on a pool, else `malloc` itself. -/
def take (s : BlockStore) (fails : Bool) : Allocator → Option ℕ × BlockStore
  | .malloc => s.malloc fails
  | .pool _ i =>
      match s.blockList i with
      | chunk :: rest => (some chunk, s.setBlockList i rest)
      | [] => s.malloc fails

/-- `MemBlockPool::Free` on a pool, else `free` itself. -/
def giveBack (s : BlockStore) (chunk : ℕ) : Allocator → BlockStore
  | .malloc => s
  | .pool _ i => s.setBlockList i (chunk :: s.blockList i)

/-- `size += sizeof(size_t)`, which wraps. -/
def stored (size : UInt64) : UInt64 := size + UInt64.ofNat sizeofSizeT

def AllocMsgBlock (size : UInt64) (fails : Bool) (s : BlockStore) :
    Option (Option LiveBlock × BlockStore) :=
  (s.reach (stored size)).map fun a =>
    let (ptr, t) := s.take fails a
    (ptr.map fun chunk => ⟨chunk, stored size, a, s.inits⟩, t)

def FreeMsgBlock (b : LiveBlock) (s : BlockStore) : Option BlockStore :=
  (s.reach b.size).map (s.giveBack b.chunk)

def msgSize (hdr : MsgHdrType) : UInt64 := UInt64.ofNat (hdr.sizeof + hdr.msgHdr.bodyLen.toNat)

def PushMsg (hdr : MsgHdrType) (fails : Bool) (s : BlockStore) : Option BlockStore :=
  (s.AllocMsgBlock (msgSize hdr) fails).map fun (buffer, t) =>
    { t with m_MsgQueue := t.m_MsgQueue ++ buffer.toList }

def GetMsgQueue (s : BlockStore) : BlockStore :=
  { s with m_MsgQueue := [], held := s.held ++ s.m_MsgQueue }

/-- The loop over `m_MsgQueue` frees one block after the other. -/
def UnInit (s : BlockStore) : Option BlockStore :=
  (Transition.run FreeMsgBlock s.m_MsgQueue s).map fun t =>
    { t with m_MsgQueue := [], m_Pools := fun _ => none, up := false }

end BlockStore

/-- `fails` is the answer of `malloc`, should it be asked; `free` has the pointer as its
argument, by its chunk. -/
inductive BlockEvent where
  | init
  | unInit
  | alloc (size : UInt64) (fails : Bool)
  | push (hdr : MsgHdrType) (fails : Bool)
  | getMsgQueue
  | free (ptr : Option ℕ)

namespace BlockStore

def find (s : BlockStore) (chunk : ℕ) : Option LiveBlock := s.held.find? (·.chunk = chunk)

def step : BlockEvent → BlockStore → Option BlockStore
  | .init, s => some s.Init
  | .unInit, s => s.UnInit
  | .alloc size fails, s => (s.AllocMsgBlock size fails).map fun (ptr, t) =>
      { t with held := t.held ++ ptr.toList }
  | .push hdr fails, s => s.PushMsg hdr fails
  | .getMsgQueue, s => some s.GetMsgQueue
  | .free none, s => some s
  | .free (some chunk), s => (s.find chunk).bind fun b =>
      { s with held := s.held.erase b }.FreeMsgBlock b

variable {α : Type*}

/-- `f` says how closely two allocators are told apart. -/
def Returned (f : Allocator → α) (b : LiveBlock) (s : BlockStore) : Prop :=
  (s.reach b.size).map f = some (f b.origin)

/-- No null entry is dereferenced, and every block goes back to what it came from. -/
def Sound (f : Allocator → α) : BlockEvent → BlockStore → Prop
  | .init, _ => True
  | .unInit, s => Transition.Always FreeMsgBlock (Returned f) s.m_MsgQueue s
  | .alloc size _, s => s.reach (stored size) ≠ none
  | .push hdr _, s => s.reach (stored (msgSize hdr)) ≠ none
  | .getMsgQueue, _ => True
  | .free none, _ => True
  | .free (some chunk), s => ∀ b ∈ s.find chunk, Returned f b s

instance (f : Allocator → α) [DecidableEq α] (b : LiveBlock) (s : BlockStore) :
    Decidable (Returned f b s) := inferInstanceAs (Decidable (_ = _))

instance decidableSound (f : Allocator → α) [DecidableEq α] :
    ∀ e s, Decidable (Sound f e s)
  | .init, _ => .isTrue trivial
  | .unInit, s => Transition.decidableAlways FreeMsgBlock (Returned f) s.m_MsgQueue s
  | .alloc size _, s => inferInstanceAs (Decidable (s.reach (stored size) ≠ none))
  | .push hdr _, s => inferInstanceAs (Decidable (s.reach (stored (msgSize hdr)) ≠ none))
  | .getMsgQueue, _ => .isTrue trivial
  | .free none, _ => .isTrue trivial
  | .free (some chunk), s => inferInstanceAs (Decidable (∀ b ∈ s.find chunk, Returned f b s))

/-- A block that fits a pool is asked for with the pools in place, or, if it is not empty,
before there were any. -/
def Allocable (size : UInt64) (s : BlockStore) : Prop :=
  size.toNat ≤ maxPoolSize → s.up = true ∨ s.inits = 0 ∧ size.toNat ≠ 0

/-- A block that fits a pool is freed before there were any, or with the pools in place and
`known` of the `Init` calls before the block and before this call. -/
def Freeable (known : ℕ → ℕ → Prop) (b : LiveBlock) (s : BlockStore) : Prop :=
  b.size.toNat ≤ maxPoolSize → s.inits = 0 ∨ s.up = true ∧ known b.born s.inits

def InTime (known : ℕ → ℕ → Prop) : BlockEvent → BlockStore → Prop
  | .init, _ => True
  | .unInit, s => ∀ b ∈ s.m_MsgQueue, Freeable known b s
  | .alloc size _, s => Allocable (stored size) s
  | .push hdr _, s => Allocable (stored (msgSize hdr)) s
  | .getMsgQueue, _ => True
  | .free none, _ => True
  | .free (some chunk), s => ∀ b ∈ s.find chunk, Freeable known b s

end BlockStore

/-- Blocks from before the first `Init` come from `malloc`, later ones from the pool of
their size if there is one. -/
structure LiveBlock.Known (inits : ℕ) (b : LiveBlock) : Prop where
  born_le : b.born ≤ inits
  early : b.born = 0 → b.origin = .malloc ∧ b.size.toNat ≠ 0
  large : maxPoolSize < b.size.toNat → b.origin = .malloc
  small : ∀ h : b.size.toNat ≤ maxPoolSize, b.born ≠ 0 →
    b.origin = .pool b.born (poolIndex b.size.toNat h)

theorem LiveBlock.Known.mono {b : LiveBlock} {m n : ℕ} (h : b.Known m) (hmn : m ≤ n) :
    b.Known n := { h with born_le := h.born_le.trans hmn }

namespace BlockStore

def era (s : BlockStore) (i : Fin MEMPOOL_NUM) : Option ℕ := (s.m_Pools i).map EraPool.era

structure Inv (s : BlockStore) : Prop where
  max_eq : s.m_MaxPoolSize = if s.inits = 0 then 0 else maxPoolSize
  era_eq : ∀ i, s.era i = if s.up then some s.inits else none
  inits_of_up : s.up = true → s.inits ≠ 0
  queue : ∀ b ∈ s.m_MsgQueue, b.Known s.inits
  held : ∀ b ∈ s.held, b.Known s.inits

/-- What the use of the pools leaves alone. -/
structure Frame (s t : BlockStore) : Prop where
  queue : t.m_MsgQueue = s.m_MsgQueue
  held : t.held = s.held
  max_eq : t.m_MaxPoolSize = s.m_MaxPoolSize
  era : t.era = s.era
  inits : t.inits = s.inits
  up : t.up = s.up

variable {s t : BlockStore} {a : Allocator} {size : UInt64} {fails : Bool}

theorem Frame.refl (s : BlockStore) : Frame s s := ⟨rfl, rfl, rfl, rfl, rfl, rfl⟩

theorem frame_setBlockList (s : BlockStore) (i : Fin MEMPOOL_NUM) (blocks : List ℕ) :
    Frame s (s.setBlockList i blocks) := by
  refine ⟨rfl, rfl, rfl, ?_, rfl, rfl⟩
  funext j
  by_cases hj : j = i
  · simp [era, setBlockList, hj, Option.map_map, Function.comp_def]
  · simp [era, setBlockList, hj]

theorem frame_malloc (s : BlockStore) (fails : Bool) : Frame s (s.malloc fails).2 := by
  cases fails <;> exact ⟨rfl, rfl, rfl, rfl, rfl, rfl⟩

theorem frame_take (s : BlockStore) (fails : Bool) (a : Allocator) :
    Frame s (s.take fails a).2 := by
  cases a with
  | malloc => exact frame_malloc s fails
  | pool e i =>
    cases h : s.blockList i with
    | nil => simpa only [take, h] using frame_malloc s fails
    | cons chunk rest => simpa only [take, h] using frame_setBlockList s i rest

theorem frame_giveBack (s : BlockStore) (chunk : ℕ) (a : Allocator) :
    Frame s (s.giveBack chunk a) := by
  cases a with
  | malloc => exact Frame.refl s
  | pool e i => exact frame_setBlockList s i (chunk :: s.blockList i)

theorem reach_eq (s : BlockStore) (size : UInt64) : s.reach size =
    if size.toNat > s.m_MaxPoolSize then some .malloc
    else if h : poolLoop size.toNat MEMPOOL_NUM 0 MIN_MEMBLOCK_SIZE < MEMPOOL_NUM then
      (s.era ⟨_, h⟩).map fun e => .pool e ⟨_, h⟩
    else none := by
  simp only [reach, era, Option.map_map, Function.comp_def]

theorem Frame.reach (h : Frame s t) (size : UInt64) : t.reach size = s.reach size := by
  rw [reach_eq, reach_eq, h.max_eq, h.era]

theorem Inv.reach_malloc (h : Inv s) (hs : maxPoolSize < size.toNat ∨ s.inits = 0 ∧ size.toNat ≠ 0) :
    s.reach size = some .malloc := by
  have hmax : size.toNat > s.m_MaxPoolSize := by
    rw [h.max_eq]
    by_cases hi : s.inits = 0
    · rw [if_pos hi]
      omega
    · rw [if_neg hi]
      exact hs.resolve_right fun hfresh => hi hfresh.1
  rw [BlockStore.reach, if_pos hmax]

theorem Inv.reach_pool (h : Inv s) (hle : size.toNat ≤ maxPoolSize)
    (hs : s.inits ≠ 0 ∨ size.toNat = 0) : s.reach size =
      if s.up then some (.pool s.inits (poolIndex size.toNat hle)) else none := by
  have hmax : ¬ size.toNat > s.m_MaxPoolSize := by
    rw [h.max_eq]
    by_cases hi : s.inits = 0
    · have hzero := hs.resolve_left fun hn => hn hi
      rw [if_pos hi]
      omega
    · rw [if_neg hi]
      omega
  rw [reach_eq, if_neg hmax, dif_pos (poolLoop_le hle).1, h.era_eq]
  cases s.up <;> rfl

theorem toNat_stored_msgSize (msg : MsgHdrType) :
    (stored (msgSize msg)).toNat = msg.sizeof + msg.msgHdr.bodyLen.toNat + sizeofSizeT := by
  have hlen := msg.msgHdr.bodyLen.toNat_lt
  have hsizeof : msg.sizeof ≤ 24 := by
    cases msg <;> simp [MsgHdrType.sizeof, sizeofClientMsgHdr, sizeofProxyMsgHdr,
      sizeofMsgHdr, clientIds, proxyIds]
  have hword : sizeofSizeT = 8 := rfl
  rw [stored, msgSize, hword, UInt64.toNat_add, UInt64.toNat_ofNat', UInt64.toNat_ofNat']
  omega

/-- With the pools in place a message goes where the bus takes its block from. -/
theorem Inv.reach_pushMsg (h : Inv s) (hup : s.up = true) (g : GlobalObject)
    (msg : RgcFifa.PushMsg) :
    s.reach (stored (msgSize msg.hdr)) = if hs : msg.size > g.m_MaxPoolSize then some .malloc
      else some (.pool s.inits (poolIndex msg.size (g.le_maxPoolSize hs))) := by
  have hsize : (stored (msgSize msg.hdr)).toNat = msg.size := toNat_stored_msgSize msg.hdr
  split_ifs with hs
  · apply h.reach_malloc (Or.inl _)
    rwa [hsize, ← g.maxPoolSize_eq]
  · have hle : (stored (msgSize msg.hdr)).toNat ≤ maxPoolSize := by
      rw [hsize]
      exact g.le_maxPoolSize hs
    rw [h.reach_pool hle (Or.inl (h.inits_of_up hup)), if_pos hup]
    simp only [hsize]

theorem Inv.reach_ne_none (h : Inv s) : s.reach size ≠ none ↔ Allocable size s := by
  by_cases hle : size.toNat ≤ maxPoolSize
  · by_cases hs : s.inits = 0 ∧ size.toNat ≠ 0
    · rw [h.reach_malloc (Or.inr hs)]
      simp [Allocable, hs]
    · rw [h.reach_pool hle (not_and_or.mp hs |>.imp_right not_not.mp)]
      simp [Allocable, hle, hs]
  · rw [h.reach_malloc (Or.inl (not_le.mp hle))]
    simp [Allocable, hle]

theorem Inv.returned_iff {α : Type*} {f : Allocator → α} {known : ℕ → ℕ → Prop}
    (hf : ∀ e i, f (.pool e i) ≠ f .malloc)
    (hknown : ∀ b i : ℕ, i ≠ 0 → ∀ k, known b i ↔ b ≠ 0 ∧ f (.pool i k) = f (.pool b k))
    (h : Inv s) {b : LiveBlock} (hb : b.Known s.inits) :
    Returned f b s ↔ Freeable known b s := by
  by_cases hle : b.size.toNat ≤ maxPoolSize
  · by_cases hfresh : s.inits = 0
    · have hborn : b.born = 0 := Nat.le_zero.mp (hfresh ▸ hb.born_le)
      obtain ⟨horigin, hsize⟩ := hb.early hborn
      simp [Returned, Freeable, h.reach_malloc (Or.inr ⟨hfresh, hsize⟩), horigin, hfresh]
    · have hreach := h.reach_pool hle (Or.inl hfresh)
      by_cases hup : s.up = true
      · by_cases hborn : b.born = 0
        · have hnot : ¬ known b.born s.inits := fun hk =>
            ((hknown _ _ hfresh (poolIndex _ hle)).mp hk).1 hborn
          simp [Returned, Freeable, hreach, hup, hle, hfresh, hnot, (hb.early hborn).1, hf]
        · rw [Returned, Freeable, hreach, if_pos hup, hb.small hle hborn, Option.map_some]
          simp [hle, hfresh, hup, hborn, hknown _ _ hfresh (poolIndex _ hle)]
      · simp [Returned, Freeable, hreach, hup, hle, hfresh]
  · have hlt := not_le.mp hle
    simp [Returned, Freeable, h.reach_malloc (Or.inl hlt), hb.large hlt, hle]

theorem Inv.known (h : Inv s) (ha : s.reach size = some a) (chunk : ℕ) :
    LiveBlock.Known s.inits ⟨chunk, size, a, s.inits⟩ := by
  by_cases hle : size.toNat ≤ maxPoolSize
  · by_cases hs : s.inits = 0 ∧ size.toNat ≠ 0
    · rw [h.reach_malloc (Or.inr hs)] at ha
      obtain rfl := Option.some.inj ha
      exact ⟨le_rfl, fun _ => ⟨rfl, hs.2⟩, fun _ => rfl, fun _ hn => absurd hs.1 hn⟩
    · rw [h.reach_pool hle (not_and_or.mp hs |>.imp_right not_not.mp)] at ha
      by_cases hup : s.up = true
      · rw [if_pos hup] at ha
        obtain rfl := Option.some.inj ha
        exact ⟨le_rfl, fun hn => absurd hn (h.inits_of_up hup), fun hlt => absurd hle (not_le.mpr hlt),
          fun _ _ => rfl⟩
      · rw [if_neg hup] at ha
        cases ha
  · have hlt := not_le.mp hle
    rw [h.reach_malloc (Or.inl hlt)] at ha
    obtain rfl := Option.some.inj ha
    refine ⟨le_rfl, fun _ => ⟨rfl, ?_⟩, fun _ => rfl, fun hsmall => absurd hsmall hle⟩
    exact Nat.ne_zero_of_lt hlt

theorem Inv.frame (h : Inv s) (hf : Frame s t) : Inv t where
  max_eq := by rw [hf.max_eq, hf.inits, h.max_eq]
  era_eq i := by rw [hf.era, hf.up, hf.inits, h.era_eq]
  inits_of_up hup := by
    rw [hf.inits]
    exact h.inits_of_up (hf.up ▸ hup)
  queue := by
    rw [hf.queue, hf.inits]
    exact h.queue
  held := by
    rw [hf.held, hf.inits]
    exact h.held

theorem inv_fresh : Inv fresh := ⟨rfl, fun _ => rfl, by simp [fresh], by simp [fresh], by simp [fresh]⟩

theorem Inv.init (h : Inv s) : Inv s.Init where
  max_eq := rfl
  era_eq _ := rfl
  inits_of_up _ := Nat.succ_ne_zero s.inits
  queue b hb := (h.queue b hb).mono (Nat.le_succ s.inits)
  held b hb := (h.held b hb).mono (Nat.le_succ s.inits)

theorem frame_freeMsgBlock {b : LiveBlock} (h : s.FreeMsgBlock b = some t) : Frame s t := by
  obtain ⟨a, _, rfl⟩ := Option.map_eq_some_iff.mp h
  exact frame_giveBack s b.chunk a

theorem Inv.unInit (h : Inv s) (ht : s.UnInit = some t) : Inv t := by
  obtain ⟨u, hu, rfl⟩ := Option.map_eq_some_iff.mp ht
  have hi : Inv u := Transition.run_preserves
    (fun _ _ _ hs hfree => hs.frame (frame_freeMsgBlock hfree)) h hu
  exact { hi with
    era_eq := fun _ => rfl
    inits_of_up := fun hup => absurd hup Bool.false_ne_true
    queue := fun _ hb => absurd hb List.not_mem_nil }

theorem Inv.allocMsgBlock {ptr : Option LiveBlock} (h : Inv s)
    (ht : s.AllocMsgBlock size fails = some (ptr, t)) :
    Frame s t ∧ ∀ b ∈ ptr.toList, b.Known t.inits := by
  obtain ⟨a, ha, he⟩ := Option.map_eq_some_iff.mp ht
  obtain ⟨hptr, ht⟩ := Prod.mk.inj he
  have hf : Frame s t := ht ▸ frame_take s fails a
  refine ⟨hf, ?_⟩
  intro b hb
  rw [← hptr, Option.mem_toList] at hb
  obtain ⟨chunk, _, rfl⟩ := Option.map_eq_some_iff.mp hb
  rw [hf.inits]
  exact h.known ha chunk

theorem Inv.step {e : BlockEvent} (h : Inv s) (ht : step e s = some t) : Inv t := by
  cases e with
  | init => exact Option.some.inj ht ▸ h.init
  | unInit => exact h.unInit ht
  | alloc size fails =>
    obtain ⟨⟨ptr, u⟩, hu, rfl⟩ := Option.map_eq_some_iff.mp ht
    obtain ⟨hf, hptr⟩ := h.allocMsgBlock hu
    have hi := h.frame hf
    exact { hi with held := fun b hb => (List.mem_append.mp hb).elim (hi.held b) (hptr b) }
  | push hdr fails =>
    obtain ⟨⟨ptr, u⟩, hu, rfl⟩ := Option.map_eq_some_iff.mp ht
    obtain ⟨hf, hptr⟩ := h.allocMsgBlock hu
    have hi := h.frame hf
    exact { hi with queue := fun b hb => (List.mem_append.mp hb).elim (hi.queue b) (hptr b) }
  | getMsgQueue =>
    obtain rfl := Option.some.inj ht
    exact { h with
      queue := fun _ hb => absurd hb List.not_mem_nil
      held := fun b hb => (List.mem_append.mp hb).elim (h.held b) (h.queue b) }
  | free ptr =>
    cases ptr with
    | none => exact Option.some.inj ht ▸ h
    | some chunk =>
      obtain ⟨b, _, hfree⟩ := Option.bind_eq_some_iff.mp ht
      have hi : Inv { s with held := s.held.erase b } :=
        { h with held := fun c hc => h.held c (List.mem_of_mem_erase hc) }
      exact hi.frame (frame_freeMsgBlock hfree)

theorem Frame.returned {α : Type*} (h : Frame s t) (f : Allocator → α) (b : LiveBlock) :
    Returned f b t ↔ Returned f b s := by
  rw [Returned, Returned, h.reach]

theorem returned_enabled {α : Type*} {f : Allocator → α} {b : LiveBlock} (h : Returned f b s) :
    ∃ t, s.FreeMsgBlock b = some t := by
  obtain ⟨a, ha, _⟩ := Option.map_eq_some_iff.mp h
  exact ⟨_, Option.map_eq_some_iff.mpr ⟨a, ha, rfl⟩⟩

theorem sound_unInit_iff {α : Type*} {f : Allocator → α} :
    Sound f .unInit s ↔ ∀ b ∈ s.m_MsgQueue, Returned f b s :=
  Transition.always_iff_forall (fun _ _ => returned_enabled)
    (fun _ _ _ ht b => (frame_freeMsgBlock ht).returned f b)

theorem Inv.sound_iff {α : Type*} {f : Allocator → α} {known : ℕ → ℕ → Prop}
    (hf : ∀ e i, f (.pool e i) ≠ f .malloc)
    (hknown : ∀ b i : ℕ, i ≠ 0 → ∀ k, known b i ↔ b ≠ 0 ∧ f (.pool i k) = f (.pool b k))
    (e : BlockEvent) (h : Inv s) : Sound f e s ↔ InTime known e s := by
  cases e with
  | init => exact Iff.rfl
  | unInit =>
    rw [sound_unInit_iff]
    exact forall₂_congr fun b hb => h.returned_iff hf hknown (h.queue b hb)
  | alloc size fails => exact h.reach_ne_none
  | push hdr fails => exact h.reach_ne_none
  | getMsgQueue => exact Iff.rfl
  | free ptr =>
    cases ptr with
    | none => exact Iff.rfl
    | some chunk =>
      apply forall₂_congr
      intro b hb
      exact h.returned_iff hf hknown (h.held b (List.mem_of_find?_eq_some hb))

end BlockStore

/-- To tell the pools apart by their place in `m_Pools`, a block must be younger than the
first `Init`; to tell them apart as objects, it must be younger than the last. -/
theorem block_lifetime_iff (es : List BlockEvent) :
    (Transition.Always BlockStore.step (BlockStore.Sound Allocator.index) es BlockStore.fresh ↔
      Transition.Always BlockStore.step (BlockStore.InTime fun born _ => born ≠ 0) es
        BlockStore.fresh) ∧
    (Transition.Always BlockStore.step (BlockStore.Sound id) es BlockStore.fresh ↔
      Transition.Always BlockStore.step (BlockStore.InTime fun born inits => born = inits) es
        BlockStore.fresh) := by
  constructor
  · apply Transition.always_congr (fun _ _ _ hi ht => hi.step ht) _ BlockStore.inv_fresh
    intro e s hi
    exact hi.sound_iff (by simp [Allocator.index]) (by simp [Allocator.index]) e
  · apply Transition.always_congr (fun _ _ _ hi ht => hi.step ht) _ BlockStore.inv_fresh
    intro e s hi
    apply hi.sound_iff (by simp)
    intro b i hi k
    constructor
    · rintro rfl
      exact ⟨hi, rfl⟩
    · rintro ⟨_, he⟩
      simpa [eq_comm] using he

/-- A message pushed after `UnInit` comes to a null pool, and one pushed before the first
`Init` comes from `malloc` and goes to a pool. -/
theorem block_lifetime_broken :
    let hdr := MsgHdrType.client ⟨⟨CLIENT_MSGTYPE, 0, 0, 0⟩⟩
    ¬ Transition.Always BlockStore.step (BlockStore.Sound Allocator.index)
      [.init, .unInit, .push hdr false] BlockStore.fresh ∧
    ¬ Transition.Always BlockStore.step (BlockStore.Sound Allocator.index)
      [.push hdr false, .init, .getMsgQueue, .free (some 0)] BlockStore.fresh := by
  decide

end RgcFifa
