import RgcFifa.AutoPtrSafety

/-! What a heap of smart pointers keeps between two operations, and an assignment, which releases the
old object before it looks at the new one. -/

namespace RgcFifa.RefCounting

namespace Heap

/-- Between two operations every object has as many references as its counter says, and at least one. -/
structure Good (h : Heap) : Prop where
  count : ∀ o c, h.counter o = some c → c = h.refs o
  live : ∀ o, 0 < h.refs o → ∃ c, h.counter o = some c
  owner : ∀ i a o, h.find i = some a → a.owner = some o → ∃ c, h.counter o = some c
  pos : ∀ o, h.counter o ≠ some 0

theorem good_of_sound {h : Heap} (hs : Sound h []) : Good h where
  count o c hc := by simpa using hs.count o c hc
  live o hpos := hs.live o (by simpa using hpos)
  owner := hs.owner
  pos o hc := by simpa using (hs.dying o).mp hc

/-- A reference that is neither a pointer nor a plain one any more is to be released. -/
theorem Good.sound {h g : Heap} (hg : Good h) {x : Option ℕ} (hcounter : ∀ o, g.counter o = h.counter o)
    (hrefs : ∀ o, g.refs o + x.toList.count o = h.refs o)
    (howner : ∀ i a o, g.find i = some a → a.owner = some o → ∃ c, h.counter o = some c) :
    Sound g (x.toList.map .release) := by
  have hcount (o : ℕ) : (x.toList.map Task.release).count (.release o) = x.toList.count o :=
    List.count_map_of_injective _ _ (fun _ _ => Task.release.inj) _
  have hnot (t : Task) (ht : ∀ o, t ≠ .release o) : t ∉ x.toList.map Task.release := by
    intro hm
    obtain ⟨o, _, rfl⟩ := List.mem_map.mp hm
    exact ht o rfl
  have hpos (o : ℕ) : g.counter o ≠ some 0 := by
    rw [hcounter]
    exact hg.pos o
  constructor
  · intro o c hc
    rw [hcount, hg.count o c (hcounter o ▸ hc), ← hrefs o]
    push_cast
    rfl
  · intro o ho
    rw [hcounter]
    refine hg.live o ?_
    rw [← hrefs o]
    rwa [hcount] at ho
  · intro i a o ha hao
    rw [hcounter]
    exact howner i a o ha hao
  · intro o
    exact ⟨fun hc => (hpos o hc).elim, fun hm => (hnot _ (by simp) hm).elim⟩
  · intro i
    exact ⟨fun hm => (hnot _ (by simp) hm).elim, fun ⟨_, o, _, _, hc⟩ => (hpos o hc).elim⟩
  · intro t ht
    rw [List.count_eq_zero.mpr (hnot t ht)]
    omega
  · rw [List.pairwise_map]
    exact List.pairwise_of_forall fun i j o k a hfalse => by cases hfalse

theorem run_releases (h : Heap) (x : Option ℕ) : run (x.toList.map .release) h = h.release x := by
  cases x with
  | none =>
    show run [] h = _
    rw [run]
    rfl
  | some o => rfl

/-- Giving up a reference. -/
theorem Good.release {h g : Heap} (hg : Good h) {x : Option ℕ} (hcounter : ∀ o, g.counter o = h.counter o)
    (hrefs : ∀ o, g.refs o + x.toList.count o = h.refs o)
    (howner : ∀ i a o, g.find i = some a → a.owner = some o → ∃ c, h.counter o = some c) :
    ∃ h', g.release x = .ok h' ∧ Good h' ∧ Kept g h' := by
  obtain ⟨h', hrun, hsound, hkept⟩ := run_sound (hg.sound hcounter hrefs howner)
  exact ⟨h', by rw [← run_releases, hrun], good_of_sound hsound, hkept⟩

theorem toNat_holds (o : ℕ) (a : AutoPtr) : (holds o (some a)).toNat = a.ptr.toList.count o := by
  cases hp : a.ptr with
  | none => simp [holds, hp]
  | some o' => by_cases heq : o' = o <;> simp [holds, hp, heq]

/-- The heap once the reference of a pointer is given up. -/
def cut (h : Heap) (p : ℕ) : Except Fault Heap :=
  match h.find p with
  | none => .error .destroyed
  | some a => (h.setPtr p (some { a with ptr := none })).release a.ptr

theorem refs_setPtr_none {h : Heap} {p : ℕ} {a : AutoPtr} (ha : h.find p = some a) (o : ℕ) :
    (h.setPtr p (some { a with ptr := none })).refs o + a.ptr.toList.count o = h.refs o := by
  have hrefs := refs_setPtr ha (some { a with ptr := none }) o
  rw [toNat_holds, toNat_holds] at hrefs
  simpa using hrefs

theorem owner_setPtr {h : Heap} (hg : Good h) {p : ℕ} {a b : AutoPtr} (ha : h.find p = some a)
    (howner : b.owner = a.owner) (i : ℕ) (d : AutoPtr) (o : ℕ) (hd : (h.setPtr p (some b)).find i = some d)
    (hdo : d.owner = some o) : ∃ c, h.counter o = some c := by
  rw [find_setPtr ha] at hd
  by_cases heq : i = p
  · simp only [heq, if_true, Option.some.injEq] at hd
    exact hg.owner p a o ha (by rw [← howner, hd, hdo])
  · exact hg.owner i d o (by simpa [heq] using hd) hdo

theorem Good.cut {h : Heap} (hg : Good h) {p : ℕ} {a : AutoPtr} (ha : h.find p = some a) :
    ∃ h₀, h.cut p = .ok h₀ ∧ Good h₀ ∧ Kept (h.setPtr p (some { a with ptr := none })) h₀ := by
  simp only [Heap.cut, ha]
  exact hg.release (fun _ => rfl) (refs_setPtr_none ha) (owner_setPtr hg ha rfl)

theorem setPtr_setPtr (h : Heap) (p : ℕ) (a b : Option AutoPtr) :
    (h.setPtr p a).setPtr p b = h.setPtr p b := by
  simp [setPtr, List.set_set]

theorem setPtr_self {h : Heap} {p : ℕ} {a : AutoPtr} (ha : h.find p = some a) : h.setPtr p (some a) = h := by
  obtain ⟨hlt, hget⟩ := List.getElem?_eq_some_iff.mp (getElem?_ptrs ha)
  have hset : h.ptrs.set p (some a) = h.ptrs := by rw [← hget, List.set_getElem_self]
  simp only [setPtr, hset]

/-- The release in an assignment, where the pointer still holds what is released. -/
theorem release_of_cut {h h₀ : Heap} {p : ℕ} {a d : AutoPtr} (ha : h.find p = some a)
    (hcut : h.cut p = .ok h₀) (hd : h₀.find p = some d) :
    d = { a with ptr := none } ∧ h.release a.ptr = .ok (h₀.setPtr p (some a)) := by
  simp only [Heap.cut, ha, ← run_releases] at hcut
  have hfound := find_of_run hcut hd
  rw [find_setPtr ha, if_pos rfl] at hfound
  obtain rfl := Option.some.inj hfound
  have hrun := run_setPtr (b := a) hcut hd rfl
  rw [setPtr_setPtr, setPtr_self ha, run_releases] at hrun
  exact ⟨rfl, hrun⟩

/-- If the release destroys the pointer, it does so too while the pointer still holds the object. -/
theorem destroyed_of_cut {h h₀ h₁ : Heap} {p : ℕ} {a : AutoPtr} (ha : h.find p = some a)
    (hcut : h.cut p = .ok h₀) (hnone : h₀.find p = none) (hrel : h.release a.ptr = .ok h₁) :
    h₁.find p = none := by
  cases hd : h₁.find p with
  | none => rfl
  | some d =>
    rw [← run_releases] at hrel
    have hfound := find_of_run hrel hd
    obtain rfl : a = d := Option.some.inj (ha.symm.trans hfound)
    have hrun := run_setPtr (b := { a with ptr := none }) hrel hd rfl
    rw [run_releases] at hrun
    simp only [Heap.cut, ha, hrun, Except.ok.injEq] at hcut
    rw [← hcut, find_setPtr hd, if_pos rfl] at hnone
    cases hnone

/-- A change that keeps the number of references to every object. -/
theorem Good.same {h g : Heap} (hg : Good h) (hcounter : ∀ o, g.counter o = h.counter o)
    (hrefs : ∀ o, g.refs o = h.refs o)
    (howner : ∀ i a o, g.find i = some a → a.owner = some o → ∃ c, h.counter o = some c) : Good g where
  count o c hc := by
    rw [hrefs]
    exact hg.count o c (hcounter o ▸ hc)
  live o hpos := by
    rw [hcounter]
    exact hg.live o (hrefs o ▸ hpos)
  owner i a o ha hao := by
    rw [hcounter]
    exact howner i a o ha hao
  pos o := by
    rw [hcounter]
    exact hg.pos o

/-- The counter of the object still has room for one more reference. -/
def Room (h : Heap) (x : Option ℕ) : Prop := ∀ o, x = some o → h.refs o < 2 ^ 31 - 1

/-- One more reference to an object that is there. -/
theorem Good.share {h g : Heap} (hg : Good h) {x : Option ℕ} (hcounter : ∀ o, g.counter o = h.counter o)
    (hrefs : ∀ o, g.refs o = h.refs o + x.toList.count o)
    (howner : ∀ i a o, g.find i = some a → a.owner = some o → ∃ c, h.counter o = some c)
    (hx : ∀ o, x = some o → ∃ c, h.counter o = some c) (hroom : h.Room x) :
    ∃ h', g.duplicate x = .ok h' ∧ Good h' := by
  cases x with
  | none => exact ⟨g, rfl, hg.same hcounter (by simpa using hrefs) howner⟩
  | some o =>
    obtain ⟨c, hc⟩ := hx o rfl
    have hc₁ := (hcounter o).trans hc
    have hnew := counter_setCounter hc₁ (some (c + 1))
    have hcount := hg.count o c hc
    have hfits : c ≠ counterMax := by
      have hlt := hroom o rfl
      have hmax : counterMax = 2147483647 := by decide
      omega
    refine ⟨g.setCounter o (some (c + 1)), by simp only [duplicate, hc₁, hfits, if_false], ?_, ?_, ?_, ?_⟩
    · intro o' c' hc'
      rw [hnew] at hc'
      rw [refs_setCounter, hrefs]
      by_cases heq : o' = o
      · simp only [heq, if_true, Option.some.injEq] at hc' ⊢
        simp
        omega
      · have hold := hg.count o' c' (by rw [← hcounter]; simpa [heq] using hc')
        simpa [Ne.symm heq] using hold
    · intro o' hpos
      rw [hnew]
      by_cases heq : o' = o
      · exact ⟨c + 1, by rw [if_pos heq]⟩
      · rw [refs_setCounter, hrefs] at hpos
        obtain ⟨c', hc'⟩ := hg.live o' (by simpa [Ne.symm heq] using hpos)
        exact ⟨c', by rw [if_neg heq, hcounter, hc']⟩
    · intro i a o' ha hao
      obtain ⟨c', hc'⟩ := howner i a o' ha hao
      rw [hnew]
      by_cases heq : o' = o
      · exact ⟨c + 1, by rw [if_pos heq]⟩
      · exact ⟨c', by rw [if_neg heq, hcounter, hc']⟩
    · intro o' hzero
      rw [hnew] at hzero
      by_cases heq : o' = o
      · simp only [heq, if_true, Option.some.injEq] at hzero
        omega
      · exact hg.pos o' (by rw [← hcounter]; simpa [heq] using hzero)

/-- Giving up a reference makes room and takes none. -/
theorem Room.cut {h h₀ : Heap} {x : Option ℕ} (hroom : h.Room x) (hg : Good h) (hg₀ : Good h₀) {p : ℕ}
    {a : Option AutoPtr} (hkept : Kept (h.setPtr p a) h₀) : h₀.Room x := by
  intro o ho
  rcases Nat.eq_zero_or_pos (h₀.refs o) with hzero | hpos
  · rw [hzero]
    exact Nat.zero_lt_of_lt (hroom o ho)
  · obtain ⟨c', hc'⟩ := hg₀.live o hpos
    obtain ⟨c, hc, hle⟩ := hkept.counter o c' hc'
    have hcount := hg.count o c hc
    have hcount' := hg₀.count o c' hc'
    have hlt := hroom o ho
    omega

theorem Good.live_ptr {h : Heap} (hg : Good h) {i o : ℕ} {a : AutoPtr} (ha : h.find i = some a)
    (hp : a.ptr = some o) : ∃ c, h.counter o = some c :=
  hg.live o (refs_pos ha hp)

/-! ### Assignments -/

/-- What `_ptr` holds after an assignment. -/
theorem refs_assigned {h₀ : Heap} {p : ℕ} {a : AutoPtr} (hd : h₀.find p = some { a with ptr := none })
    (x : Option ℕ) (o : ℕ) :
    (h₀.setPtr p (some { a with ptr := x })).refs o = h₀.refs o + x.toList.count o := by
  have hrefs := refs_setPtr hd (some { a with ptr := x }) o
  rw [toNat_holds, toNat_holds] at hrefs
  simpa using hrefs

theorem set_of_find {h : Heap} {p : ℕ} {a : AutoPtr} (ha : h.find p = some a) (x : Option ℕ) :
    h.set p x = .ok (h.setPtr p (some { a with ptr := x })) := by
  simp only [set, ha]

theorem get_of_find {h : Heap} {p : ℕ} {a : AutoPtr} (ha : h.find p = some a) : h.get p = .ok a.ptr := by
  simp only [get, ha]

/-- The release, then the write of the pointer, exactly while the pointer is not destroyed. -/
theorem release_set {h h₀ : Heap} {p : ℕ} {a d : AutoPtr} (ha : h.find p = some a)
    (hcut : h.cut p = .ok h₀) (hd : h₀.find p = some d) (x : Option ℕ) :
    (h.release a.ptr >>= fun h => h.set p x) = .ok (h₀.setPtr p (some { a with ptr := x })) := by
  obtain ⟨rfl, hrel⟩ := release_of_cut ha hcut hd
  have hfind : (h₀.setPtr p (some a)).find p = some a := by rw [find_setPtr hd, if_pos rfl]
  rw [hrel, Faulting.ok_bind, set_of_find hfind, setPtr_setPtr]

theorem release_set_fails {h h₀ : Heap} {p : ℕ} {a : AutoPtr} (ha : h.find p = some a)
    (hcut : h.cut p = .ok h₀) (hnone : h₀.find p = none) (x : Option ℕ) (h' : Heap) :
    (h.release a.ptr >>= fun h => h.set p x) ≠ .ok h' := by
  intro hrun
  obtain ⟨h₁, hrel, hset⟩ := Faulting.bind_eq_ok.mp hrun
  have hdestroyed := destroyed_of_cut ha hcut hnone hrel
  simp only [set, hdestroyed] at hset
  cases hset

/-- The tail of the two assignments from another smart pointer. -/
def reassign (h : Heap) (old : Option ℕ) (p q : ℕ) : Except Fault Heap := do
  let h ← h.release old
  let x ← h.get q
  let h ← h.set p x
  h.duplicate x

theorem reassign_ok {h h₀ : Heap} (hg₀ : Good h₀) {p q : ℕ} (hne : q ≠ p) {a d b : AutoPtr}
    (ha : h.find p = some a) (hcut : h.cut p = .ok h₀) (hd : h₀.find p = some d) (hb : h₀.find q = some b)
    (hroom : h₀.Room b.ptr) : ∃ h', h.reassign a.ptr p q = .ok h' ∧ Good h' := by
  obtain ⟨rfl, hrel⟩ := release_of_cut ha hcut hd
  have hfind : (h₀.setPtr p (some a)).find p = some a := by rw [find_setPtr hd, if_pos rfl]
  have hget : (h₀.setPtr p (some a)).find q = some b := by rw [find_setPtr hd, if_neg hne, hb]
  obtain ⟨h', hdup, hgood⟩ := hg₀.share (g := h₀.setPtr p (some { a with ptr := b.ptr })) (x := b.ptr)
    (fun _ => rfl) (refs_assigned hd b.ptr) (owner_setPtr hg₀ hd rfl) (fun o ho => hg₀.live_ptr hb ho) hroom
  refine ⟨h', ?_, hgood⟩
  simp only [reassign, hrel, Faulting.ok_bind, get_of_find hget, set_of_find hfind, setPtr_setPtr, hdup]

theorem reassign_fails {h h₀ : Heap} {p q : ℕ} (hne : q ≠ p) {a : AutoPtr} (ha : h.find p = some a)
    (hcut : h.cut p = .ok h₀) (hnone : h₀.find p = none ∨ h₀.find q = none) (h' : Heap) :
    h.reassign a.ptr p q ≠ .ok h' := by
  intro hrun
  obtain ⟨h₁, hrel, hrun⟩ := Faulting.bind_eq_ok.mp hrun
  obtain ⟨x, hget, hrun⟩ := Faulting.bind_eq_ok.mp hrun
  obtain ⟨h₂, hset, _⟩ := Faulting.bind_eq_ok.mp hrun
  cases hd : h₀.find p with
  | none =>
    have hdestroyed := destroyed_of_cut ha hcut hd hrel
    simp only [set, hdestroyed] at hset
    cases hset
  | some d =>
    obtain ⟨rfl, hrel'⟩ := release_of_cut ha hcut hd
    obtain rfl := Except.ok.inj (hrel.symm.trans hrel')
    have hq : h₀.find q = none := by simpa [hd] using hnone
    simp only [get, find_setPtr hd, if_neg hne, hq] at hget
    cases hget

/-! ### Growing heaps -/

theorem find_push (h : Heap) (x : Option ℕ) (i : ℕ) :
    (h.push x).find i = if i = h.ptrs.length then some ⟨none, x⟩ else h.find i := by
  by_cases heq : i = h.ptrs.length
  · simp [find, push, heq]
  · rcases Nat.lt_or_gt_of_ne heq with hlt | hgt
    · simp [find, push, heq, List.getElem?_append_left hlt]
    · have hend : (h.ptrs ++ [some ⟨none, x⟩])[i]? = none :=
        List.getElem?_eq_none (by simpa using hgt)
      simp [find, push, heq, hgt.le, hend]

theorem refs_push (h : Heap) (x : Option ℕ) (o : ℕ) : (h.push x).refs o = h.refs o + x.toList.count o := by
  have hholds := toNat_holds o ⟨none, x⟩
  simp only [refs, push, List.countP_append, List.countP_singleton] at hholds ⊢
  cases hb : holds o (some ⟨none, x⟩) <;> simp [hb] at hholds ⊢ <;> omega

theorem owner_push {h : Heap} (hg : Good h) (x : Option ℕ) (i : ℕ) (a : AutoPtr) (o : ℕ)
    (ha : (h.push x).find i = some a) (hao : a.owner = some o) : ∃ c, h.counter o = some c := by
  rw [find_push] at ha
  by_cases heq : i = h.ptrs.length
  · simp only [heq, if_true, Option.some.injEq] at ha
    subst ha
    cases hao
  · exact hg.owner i a o (by simpa [heq] using ha) hao

theorem refs_forget {h : Heap} {x : Option ℕ} (hx : ∀ o, x = some o → o ∈ h.raws) (o : ℕ) :
    (h.forget x).refs o + x.toList.count o = h.refs o := by
  cases x with
  | none => simp [forget]
  | some o' =>
    have hmem := List.count_pos_iff.mpr (hx o' rfl)
    by_cases heq : o' = o
    · subst heq
      simp [refs, forget]
      omega
    · simp [refs, forget, heq, List.count_erase_of_ne (Ne.symm heq)]

@[simp] theorem find_forget (h : Heap) (x : Option ℕ) (i : ℕ) : (h.forget x).find i = h.find i := by
  cases x <;> rfl

@[simp] theorem counter_forget (h : Heap) (x : Option ℕ) (o : ℕ) :
    (h.forget x).counter o = h.counter o := by
  cases x <;> rfl

theorem counter_length (h : Heap) {o : ℕ} (ho : h.counters.length ≤ o) : h.counter o = none := by
  simp [counter, ho]

theorem counter_new (h : Heap) (fields o : ℕ) :
    (h.new fields).counter o = if o = h.counters.length then some 1 else h.counter o := by
  by_cases heq : o = h.counters.length
  · simp [counter, new, heq]
  · rcases Nat.lt_or_gt_of_ne heq with hlt | hgt
    · simp [counter, new, heq, List.getElem?_append_left hlt]
    · have hend : (h.counters ++ [some (1 : ℤ)])[o]? = none :=
        List.getElem?_eq_none (by simpa using hgt)
      simp [counter, new, heq, hgt.le, hend]

theorem find_new {h : Heap} {fields i : ℕ} {a : AutoPtr} (ha : (h.new fields).find i = some a) :
    h.find i = some a ∨ a = ⟨some h.counters.length, none⟩ := by
  by_cases hlt : i < h.ptrs.length
  · left
    simpa [find, new, List.getElem?_append_left hlt] using ha
  · right
    simp only [find, new, List.getD_eq_getElem?_getD, List.getElem?_append_right (Nat.le_of_not_lt hlt),
      List.getElem?_replicate] at ha
    by_cases hin : i - h.ptrs.length < fields
    · simpa [hin, eq_comm] using ha
    · simp [hin] at ha

theorem refs_new (h : Heap) (fields o : ℕ) :
    (h.new fields).refs o = h.refs o + [h.counters.length].count o := by
  have hzero : (List.replicate fields (some (⟨some h.counters.length, none⟩ : AutoPtr))).countP (holds o) = 0 :=
    List.countP_eq_zero.mpr fun a ha => by simp [List.eq_of_mem_replicate ha, holds]
  simp only [refs, new, List.countP_append, hzero, List.count_append]
  omega

theorem Good.new {h : Heap} (hg : Good h) (fields : ℕ) : Good (h.new fields) := by
  have hfresh : h.refs h.counters.length = 0 := by
    by_contra hne
    obtain ⟨c, hc⟩ := hg.live h.counters.length (Nat.pos_of_ne_zero hne)
    rw [counter_length h le_rfl] at hc
    cases hc
  constructor
  · intro o c hc
    rw [counter_new] at hc
    rw [refs_new]
    by_cases heq : o = h.counters.length
    · subst heq
      simp only [if_true, Option.some.injEq] at hc
      simp [hfresh, ← hc]
    · have hold := hg.count o c (by simpa [heq] using hc)
      simpa [Ne.symm heq] using hold
  · intro o hpos
    rw [counter_new]
    by_cases heq : o = h.counters.length
    · exact ⟨1, by rw [if_pos heq]⟩
    · rw [refs_new] at hpos
      obtain ⟨c, hc⟩ := hg.live o (by simpa [Ne.symm heq] using hpos)
      exact ⟨c, by rw [if_neg heq, hc]⟩
  · intro i a o ha hao
    rw [counter_new]
    by_cases heq : o = h.counters.length
    · exact ⟨1, by rw [if_pos heq]⟩
    · rcases find_new ha with hold | rfl
      · obtain ⟨c, hc⟩ := hg.owner i a o hold hao
        exact ⟨c, by rw [if_neg heq, hc]⟩
      · exact (heq (Option.some.inj hao).symm).elim
  · intro o hc
    rw [counter_new] at hc
    by_cases heq : o = h.counters.length
    · simp [heq] at hc
    · exact hg.pos o (by simpa [heq] using hc)

end Heap

end RgcFifa.RefCounting
