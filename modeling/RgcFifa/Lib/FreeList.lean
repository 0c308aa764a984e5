import RgcFifa.Lib.ByteWords
import RgcFifa.Lib.Memory

/-! A linked list through free chunks of one size: the first word of each chunk
is the address of the next, and zero ends the list. -/

namespace FreeList

open ByteWords

variable {m m' : Memory} {n p a : ℕ} {as : List ℕ}

def next (m : Memory) (a : ℕ) : ℕ := leNat (m.read a 8)

def push (m : Memory) (a p : ℕ) : Memory := m.write a (le 8 p)

/-- From `p` on the list runs through the chunks `as`, each of `n` bytes. -/
def Chain (m : Memory) (n : ℕ) : ℕ → List ℕ → Prop
  | p, [] => p = 0
  | p, a :: as => p = a ∧ 0 < a ∧ ∃ q, q < 2 ^ 64 ∧ m.Holds a n 0 (le 8 q) ∧ Chain m n q as

theorem Chain.nil_iff (h : Chain m n p as) : as = [] ↔ p = 0 := by
  cases as with
  | nil => simpa [Chain] using h
  | cons a as =>
    obtain ⟨rfl, hpos, -⟩ := h
    simp [hpos.ne']

theorem Chain.next (h : Chain m n p (a :: as)) : Chain m n (next m p) as := by
  obtain ⟨rfl, -, q, hq, hold, hc⟩ := h
  have hr : m.read p 8 = le 8 q := by simpa using hold.read_eq
  rwa [FreeList.next, hr, leNat_le_of_lt (by omega)]

theorem Chain.live (h : Chain m n p as) (ha : a ∈ as) : (a, n) ∈ m.chunks := by
  induction as generalizing p with
  | nil => exact absurd ha List.not_mem_nil
  | cons b as ih =>
    obtain ⟨-, -, q, -, hold, hc⟩ := h
    rcases List.mem_cons.mp ha with rfl | ha
    · exact hold.live
    · exact ih hc ha

theorem Chain.unique {bs : List ℕ} (h : Chain m n p as) (h' : Chain m n p bs) : as = bs := by
  induction as generalizing p bs with
  | nil => exact (h'.nil_iff.mpr h).symm
  | cons a as ih =>
    cases bs with
    | nil => exact absurd (h.nil_iff.mpr h') (List.cons_ne_nil a as)
    | cons b bs =>
      have hab : a = b := h.1.symm.trans h'.1
      subst hab
      rw [ih h.next h'.next]

theorem Chain.mono (h : Chain m n p as)
    (hm : ∀ a ∈ as, ∀ n off bs, m.Holds a n off bs → m'.Holds a n off bs) : Chain m' n p as := by
  induction as generalizing p with
  | nil => exact h
  | cons b as ih =>
    obtain ⟨rfl, hpos, q, hq, hold, hc⟩ := h
    have htail : Chain m' n q as := ih hc fun a ha => hm a (List.mem_cons_of_mem _ ha)
    exact ⟨rfl, hpos, q, hq, hm p List.mem_cons_self _ _ _ hold, htail⟩

theorem Chain.head_lt (hw : m.WellFormed) (h : Chain m n p as) : p < 2 ^ 64 := by
  cases as with
  | nil =>
    obtain rfl : p = 0 := h
    omega
  | cons a as =>
    have hb := hw.bounds _ (h.live List.mem_cons_self)
    obtain ⟨rfl, -⟩ := h
    simp only at hb
    omega

theorem frame_push (hw : m.WellFormed) (ha : (a, n) ∈ m.chunks) (hn : 8 ≤ n) :
    Memory.Frame a m (push m a p) :=
  Memory.frame_write hw ha (by simpa using hn : 0 + (le 8 p).length ≤ n)

theorem Chain.push (hw : m.WellFormed) (h : Chain m n p as) (ha : (a, n) ∈ m.chunks)
    (hn : 8 ≤ n) (hnot : a ∉ as) : Chain (push m a p) n a (a :: as) := by
  have hlen : 0 + (le 8 p).length ≤ n := by simpa using hn
  have hword : (FreeList.push m a p).Holds a n 0 (le 8 p) := Memory.holds_write ha hlen
  have htail : Chain (FreeList.push m a p) n p as :=
    h.mono fun b hb k off bs hold => frame_push hw ha hn b k off bs (fun he => hnot (he ▸ hb)) hold
  exact ⟨rfl, (hw.bounds _ ha).1, p, h.head_lt hw, hword, htail⟩

/-- Free lists in one memory, list `i` through chunks of `size i` bytes from `head i` on, and
beside them the chunks in use. -/
structure Stock {ι : Type*} (size : ι → ℕ) (m : Memory) (head : ι → ℕ) (lists : ι → List ℕ)
    (used : List (ℕ × ℕ)) : Prop where
  wf : m.WellFormed
  chain : ∀ i, Chain m (size i) (head i) (lists i)
  nodup : ∀ i, (lists i).Nodup
  apart : ∀ i j a, a ∈ lists i → a ∈ lists j → i = j
  live : ∀ c ∈ used, c ∈ m.chunks
  used_nodup : (used.map Prod.fst).Nodup
  disjoint : ∀ c ∈ used, ∀ i, c.1 ∉ lists i

namespace Stock

variable {ι : Type*} {size : ι → ℕ} {head : ι → ℕ} {lists : ι → List ℕ}
  {used : List (ℕ × ℕ)} {i : ι} {rest : List ℕ} {off : ℕ} {bs : List UInt8}

theorem perm {used' : List (ℕ × ℕ)} (h : Stock size m head lists used) (hp : used.Perm used') :
    Stock size m head lists used' where
  wf := h.wf
  chain := h.chain
  nodup := h.nodup
  apart := h.apart
  live c hc := h.live c (hp.mem_iff.mpr hc)
  used_nodup := (hp.map Prod.fst).nodup_iff.mp h.used_nodup
  disjoint c hc := h.disjoint c (hp.mem_iff.mpr hc)

theorem ne_of_mem (h : Stock size m head lists ((a, n) :: used)) {c : ℕ × ℕ} (hc : c ∈ used) :
    c.1 ≠ a := by
  have hnodup := h.used_nodup
  rw [List.map_cons, List.nodup_cons] at hnodup
  have hmem : c.1 ∈ used.map Prod.fst := List.mem_map_of_mem hc
  exact fun he => hnodup.1 (by rwa [he] at hmem)

/-- A new chunk lies apart from everything that is listed or in use. -/
theorem malloc (h : Stock size m head lists used) (hn : 0 < n) (hm : m.malloc a n = some m') :
    Stock size m' head lists ((a, n) :: used) := by
  have hfresh : ∀ k, (a, k) ∉ m.chunks := fun k => h.wf.fresh hn hm
  obtain ⟨-, -, -, hchunks⟩ := Memory.malloc_eq hm
  refine ⟨h.wf.malloc hn hm, fun j => ?_, h.nodup, h.apart, fun c hc => ?_, ?_,
    fun c hc j hin => ?_⟩
  · exact (h.chain j).mono fun b hb k off bs hold =>
      Memory.frame_malloc hm a b k off bs (fun he => hfresh k (he ▸ hold.live)) hold
  · rw [hchunks]
    rcases List.mem_cons.mp hc with rfl | hc
    · exact List.mem_cons_self
    · exact List.mem_cons_of_mem _ (h.live c hc)
  · rw [List.map_cons, List.nodup_cons]
    refine ⟨fun hin => ?_, h.used_nodup⟩
    obtain ⟨⟨b, k⟩, hc, rfl⟩ := List.mem_map.mp hin
    exact hfresh k (h.live _ hc)
  · rcases List.mem_cons.mp hc with rfl | hc
    · exact hfresh _ ((h.chain j).live hin)
    · exact h.disjoint c hc j hin

theorem release (h : Stock size m head lists ((a, n) :: used)) :
    ∃ m', m.free a = some m' ∧ Stock size m' head lists used := by
  have ha : (a, n) ∈ (a, n) :: used := List.mem_cons_self
  obtain ⟨m', hm⟩ := Memory.free_of_live (h.live _ ha)
  have hframe := Memory.frame_free hm
  refine ⟨m', hm, h.wf.free hm, fun j => ?_, h.nodup, h.apart, fun c hc => ?_,
    (List.nodup_cons.mp h.used_nodup).2, fun c hc => h.disjoint c (List.mem_cons_of_mem _ hc)⟩
  · exact (h.chain j).mono fun b hb k off bs hold =>
      hframe b k off bs (fun he => h.disjoint _ ha j (he ▸ hb)) hold
  · have hold := Memory.holds_nil (h.live c (List.mem_cons_of_mem _ hc))
    exact (hframe _ _ _ _ (h.ne_of_mem hc) hold).live

theorem write (h : Stock size m head lists used) (ha : (a, n) ∈ used)
    (hf : off + bs.length ≤ n) : Stock size (m.write (a + off) bs) head lists used := by
  have hframe := Memory.frame_write h.wf (h.live _ ha) hf
  refine ⟨h.wf.write _ _, fun j => ?_, h.nodup, h.apart, h.live, h.used_nodup, h.disjoint⟩
  exact (h.chain j).mono fun b hb k off' bs' hold =>
    hframe b k off' bs' (fun he => h.disjoint _ ha j (he ▸ hb)) hold

variable [DecidableEq ι]

/-- The first chunk of a list goes into use. -/
theorem take (h : Stock size m head lists used) (hi : lists i = a :: rest) :
    Stock size m (Function.update head i (FreeList.next m a)) (Function.update lists i rest)
      ((a, size i) :: used) := by
  have hmem : a ∈ lists i := by simp [hi]
  have hchain := h.chain i
  have hnodup := h.nodup i
  rw [hi] at hchain hnodup
  have hhead : head i = a := hchain.1
  have hnext := hchain.next
  rw [hhead] at hnext
  have hnot := (List.nodup_cons.mp hnodup).1
  have hsub : ∀ j b, b ∈ Function.update lists i rest j → b ∈ lists j ∧ b ≠ a := by
    intro j b hb
    by_cases hj : j = i
    · subst hj
      rw [Function.update_self] at hb
      exact ⟨by simp [hi, hb], fun he => hnot (he ▸ hb)⟩
    · rw [Function.update_of_ne hj] at hb
      exact ⟨hb, fun he => hj (h.apart j i a (he ▸ hb) hmem)⟩
  refine ⟨h.wf, fun j => ?_, fun j => ?_, fun j k b hj hk => ?_, fun c hc => ?_, ?_,
    fun c hc j hin => ?_⟩
  · by_cases hj : j = i
    · subst hj
      simpa using hnext
    · simpa [hj] using h.chain j
  · by_cases hj : j = i
    · subst hj
      simpa using (List.nodup_cons.mp hnodup).2
    · simpa [hj] using h.nodup j
  · exact h.apart j k b (hsub j b hj).1 (hsub k b hk).1
  · rcases List.mem_cons.mp hc with rfl | hc
    · exact hchain.live List.mem_cons_self
    · exact h.live c hc
  · rw [List.map_cons, List.nodup_cons]
    refine ⟨fun hin => ?_, h.used_nodup⟩
    obtain ⟨c, hc, rfl⟩ := List.mem_map.mp hin
    exact h.disjoint c hc i hmem
  · obtain ⟨hfree, hne⟩ := hsub j c.1 hin
    rcases List.mem_cons.mp hc with rfl | hc
    · exact hne rfl
    · exact h.disjoint c hc j hfree

/-- A chunk in use becomes the first of the list for its size. -/
theorem put (h : Stock size m head lists ((a, size i) :: used)) (hn : 8 ≤ size i) :
    Stock size (FreeList.push m a (head i)) (Function.update head i a)
      (Function.update lists i (a :: lists i)) used := by
  have ha : (a, size i) ∈ (a, size i) :: used := List.mem_cons_self
  have hlive := h.live _ ha
  have hframe := frame_push (p := head i) h.wf hlive hn
  have hnot := h.disjoint _ ha
  have hadd : ∀ j b, b ∈ Function.update lists i (a :: lists i) j → b ∈ lists j ∨ b = a ∧ j = i := by
    intro j b hb
    by_cases hj : j = i
    · subst hj
      rw [Function.update_self] at hb
      rcases List.mem_cons.mp hb with rfl | hb
      · exact Or.inr ⟨rfl, rfl⟩
      · exact Or.inl hb
    · rw [Function.update_of_ne hj] at hb
      exact Or.inl hb
  refine ⟨h.wf.write _ _, fun j => ?_, fun j => ?_, fun j k b hj hk => ?_, fun c hc => ?_,
    (List.nodup_cons.mp h.used_nodup).2, fun c hc j hin => ?_⟩
  · by_cases hj : j = i
    · subst hj
      simpa using (h.chain j).push h.wf hlive hn (hnot j)
    · have hkeep := (h.chain j).mono fun b hb k off bs hold =>
        hframe b k off bs (fun he => hnot j (he ▸ hb)) hold
      simpa [hj] using hkeep
  · by_cases hj : j = i
    · subst hj
      simpa using ⟨hnot j, h.nodup j⟩
    · simpa [hj] using h.nodup j
  · rcases hadd j b hj with hbj | ⟨rfl, rfl⟩
    · rcases hadd k b hk with hbk | ⟨rfl, rfl⟩
      · exact h.apart j k b hbj hbk
      · exact absurd hbj (hnot j)
    · rcases hadd k b hk with hbk | ⟨_, rfl⟩
      · exact absurd hbk (hnot k)
      · rfl
  · exact h.live c (List.mem_cons_of_mem _ hc)
  · rcases hadd j c.1 hin with hfree | ⟨he, _⟩
    · exact h.disjoint c (List.mem_cons_of_mem _ hc) j hfree
    · exact h.ne_of_mem hc he

end Stock

end FreeList
