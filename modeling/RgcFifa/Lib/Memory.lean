import Mathlib.Tactic

/-! A flat byte memory with the chunks that `malloc` has given out. Nothing is said
of where `malloc` puts a chunk except that it lies apart from the live ones. -/

structure Memory where
  bytes : ℕ → UInt8
  chunks : List (ℕ × ℕ)

namespace Memory

variable {m m' : Memory} {a b n k x off : ℕ} {bs vs : List UInt8}

def read (m : Memory) : ℕ → ℕ → List UInt8
  | _, 0 => []
  | a, n + 1 => m.bytes a :: read m (a + 1) n

def write (m : Memory) (a : ℕ) (bs : List UInt8) : Memory :=
  { m with bytes := fun x => if a ≤ x ∧ x < a + bs.length then bs.getD (x - a) 0 else m.bytes x }

/-- Two chunks, each an address and a size, share no byte. -/
def Apart (c d : ℕ × ℕ) : Prop := c.1 + c.2 ≤ d.1 ∨ d.1 + d.2 ≤ c.1

instance : DecidableRel Apart := fun _ _ => inferInstanceAs (Decidable (_ ∨ _))

instance : Std.Symm Apart := ⟨fun _ _ => Or.symm⟩

/-- The chunk of `n` bytes that the library puts at `a`. -/
def malloc (a n : ℕ) (m : Memory) : Option Memory :=
  if 0 < a ∧ a + n ≤ 2 ^ 64 ∧ ∀ c ∈ m.chunks, Apart (a, n) c then
    some { m with chunks := (a, n) :: m.chunks }
  else none

/-- `none` where the behaviour is undefined: the pointer starts no live chunk. -/
def free (a : ℕ) (m : Memory) : Option Memory :=
  if a ∈ m.chunks.map Prod.fst then some { m with chunks := m.chunks.filter (·.1 ≠ a) } else none

structure WellFormed (m : Memory) : Prop where
  apart : m.chunks.Pairwise Apart
  bounds : ∀ c ∈ m.chunks, 0 < c.1 ∧ 0 < c.2 ∧ c.1 + c.2 ≤ 2 ^ 64

/-- The chunk of `n` bytes at `a` is live, and holds `bs` from its offset `off` on. -/
structure Holds (m : Memory) (a n off : ℕ) (bs : List UInt8) : Prop where
  live : (a, n) ∈ m.chunks
  fits : off + bs.length ≤ n
  read_eq : m.read (a + off) bs.length = bs

/-- Nothing that a chunk other than `a` holds is lost from `m` to `m'`. -/
def Frame (a : ℕ) (m m' : Memory) : Prop :=
  ∀ b n off bs, b ≠ a → m.Holds b n off bs → m'.Holds b n off bs

@[simp] theorem length_read (m : Memory) (a n : ℕ) : (m.read a n).length = n := by
  induction n generalizing a with
  | zero => rfl
  | succ n ih => simp [read, ih]

theorem read_add (m : Memory) (a n k : ℕ) :
    m.read a (n + k) = m.read a n ++ m.read (a + n) k := by
  induction n generalizing a with
  | zero => simp [read]
  | succ n ih =>
    have ha : a + 1 + n = a + (n + 1) := by omega
    rw [Nat.add_right_comm, read, read, ih, ha, List.cons_append]

theorem read_append {m : Memory} {a : ℕ} {bs vs : List UInt8} :
    m.read a (bs ++ vs).length = bs ++ vs ↔
      m.read a bs.length = bs ∧ m.read (a + bs.length) vs.length = vs := by
  rw [List.length_append, read_add]
  exact ⟨fun h => List.append_inj h (length_read _ _ _), fun h => congrArg₂ _ h.1 h.2⟩

theorem read_take (h : m.read a bs.length = bs) (hn : n ≤ bs.length) : m.read a n = bs.take n := by
  rw [← h, ← Nat.add_sub_cancel' hn, read_add, List.take_left' (length_read _ _ _)]

theorem read_drop (h : m.read a bs.length = bs) (hk : k ≤ bs.length) :
    m.read (a + k) (bs.length - k) = bs.drop k := by
  conv_rhs => rw [← h, ← Nat.add_sub_cancel' hk, read_add, List.drop_left' (length_read _ _ _)]

theorem read_eq_bytes (m : Memory) (a n : ℕ) :
    m.read a n = (List.range n).map fun i => m.bytes (a + i) := by
  induction n with
  | zero => rfl
  | succ n ih =>
    rw [read_add, ih, List.range_succ, List.map_append]
    rfl

@[simp] theorem write_nil (m : Memory) (a : ℕ) : m.write a [] = m := by
  have hnone : ∀ x, ¬ (a ≤ x ∧ x < a) := by omega
  simp [write, hnone]

theorem read_write_self (m : Memory) (a : ℕ) (bs : List UInt8) :
    (m.write a bs).read a bs.length = bs := by
  rw [read_eq_bytes]
  apply List.ext_getElem
  · simp
  · intro i hi hi'
    simp [write, hi']

theorem read_write_apart (h : x + bs.length ≤ a ∨ a + n ≤ x) :
    (m.write x bs).read a n = m.read a n := by
  rw [read_eq_bytes, read_eq_bytes]
  apply List.map_congr_left
  intro i hi
  have hi' : i < n := List.mem_range.mp hi
  have hn : ¬ (x ≤ a + i ∧ a + i < x + bs.length) := by omega
  simp only [write, if_neg hn]

theorem WellFormed.write (h : m.WellFormed) (a : ℕ) (bs : List UInt8) :
    (m.write a bs).WellFormed := ⟨h.apart, h.bounds⟩

theorem WellFormed.apart_of_ne (h : m.WellFormed) (ha : (a, n) ∈ m.chunks)
    (hb : (b, k) ∈ m.chunks) (hne : a ≠ b) : Apart (a, n) (b, k) :=
  h.apart.forall ha hb fun he => hne (congrArg Prod.fst he)

theorem holds_nil (h : (a, n) ∈ m.chunks) : m.Holds a n 0 [] := ⟨h, by simp, rfl⟩

theorem holds_append : m.Holds a n off (bs ++ vs) ↔
    m.Holds a n off bs ∧ m.Holds a n (off + bs.length) vs := by
  constructor
  · intro h
    have hf := h.fits
    rw [List.length_append] at hf
    obtain ⟨hb, hv⟩ := read_append.mp h.read_eq
    exact ⟨⟨h.live, by omega, hb⟩, ⟨h.live, by omega, by rwa [← Nat.add_assoc]⟩⟩
  · rintro ⟨hb, hv⟩
    have hf := hv.fits
    have hr := hv.read_eq
    rw [← Nat.add_assoc] at hr
    exact ⟨hb.live, by rw [List.length_append]; omega, read_append.mpr ⟨hb.read_eq, hr⟩⟩

theorem holds_write (h : (a, n) ∈ m.chunks) (hf : off + bs.length ≤ n) :
    (m.write (a + off) bs).Holds a n off bs := ⟨h, hf, read_write_self _ _ _⟩

theorem Holds.write_after (h : m.Holds a n off bs) (hx : off + bs.length ≤ x) :
    (m.write (a + x) vs).Holds a n off bs :=
  ⟨h.live, h.fits, by rw [read_write_apart (by omega), h.read_eq]⟩

theorem Holds.extend (h : m.Holds a n off bs) (hf : off + bs.length + vs.length ≤ n) :
    (m.write (a + (off + bs.length)) vs).Holds a n off (bs ++ vs) :=
  holds_append.mpr ⟨h.write_after le_rfl, holds_write h.live hf⟩

theorem frame_write (h : m.WellFormed) (ha : (a, n) ∈ m.chunks) (hf : off + vs.length ≤ n) :
    Frame a m (m.write (a + off) vs) := by
  intro b k off' bs hne hb
  have hap := h.apart_of_ne hb.live ha hne
  have hfit := hb.fits
  refine ⟨hb.live, hfit, ?_⟩
  rw [read_write_apart (by simp only [Apart] at hap; omega), hb.read_eq]

theorem malloc_eq (h : m.malloc a n = some m') :
    0 < a ∧ a + n ≤ 2 ^ 64 ∧ (∀ c ∈ m.chunks, Apart (a, n) c) ∧
      m' = { m with chunks := (a, n) :: m.chunks } := by
  rw [malloc] at h
  split_ifs at h with hc
  exact ⟨hc.1, hc.2.1, hc.2.2, (Option.some.inj h).symm⟩

theorem frame_malloc (h : m.malloc a n = some m') (x : ℕ) : Frame x m m' := by
  obtain ⟨-, -, -, rfl⟩ := malloc_eq h
  intro b k off bs _ hb
  exact ⟨List.mem_cons_of_mem _ hb.live, hb.fits, by rw [← hb.read_eq]; simp [read_eq_bytes]⟩

theorem WellFormed.malloc (hw : m.WellFormed) (hn : 0 < n) (h : m.malloc a n = some m') :
    m'.WellFormed := by
  obtain ⟨ha, hb, hap, rfl⟩ := malloc_eq h
  refine ⟨List.pairwise_cons.mpr ⟨hap, hw.apart⟩, ?_⟩
  intro c hc
  rcases List.mem_cons.mp hc with rfl | hc
  · exact ⟨ha, hn, hb⟩
  · exact hw.bounds c hc

theorem WellFormed.fresh (hw : m.WellFormed) (hn : 0 < n) (h : m.malloc a n = some m') :
    (a, k) ∉ m.chunks := by
  intro hk
  obtain ⟨-, -, hap, -⟩ := malloc_eq h
  have hc := hap _ hk
  have hb := hw.bounds _ hk
  simp only [Apart] at hc hb
  omega

theorem frame_free (h : m.free a = some m') : Frame a m m' := by
  rw [free] at h
  split_ifs at h with hc
  obtain rfl := Option.some.inj h
  intro b n off bs hne hb
  refine ⟨List.mem_filter.mpr ⟨hb.live, by simpa using hne⟩, hb.fits, ?_⟩
  conv_rhs => rw [← hb.read_eq]
  simp [read_eq_bytes]

theorem WellFormed.free (hw : m.WellFormed) (h : m.free a = some m') : m'.WellFormed := by
  rw [Memory.free] at h
  split_ifs at h with hc
  obtain rfl := Option.some.inj h
  exact ⟨hw.apart.filter _, fun c hc => hw.bounds c (List.mem_of_mem_filter hc)⟩

theorem free_of_live (h : (a, n) ∈ m.chunks) : ∃ m', m.free a = some m' :=
  ⟨_, if_pos (List.mem_map_of_mem h)⟩

end Memory
