import RgcFifa.AutoPtr

/-! The counter of every object is the number of references to it, so that a release deletes what has
no reference any more and nothing else. -/

namespace RgcFifa.RefCounting.Heap

/-! ### The parts of a heap -/

theorem counter_setCounter {h : Heap} {o : ℕ} {c : ℤ} (hc : h.counter o = some c) (d : Option ℤ) (o' : ℕ) :
    (h.setCounter o d).counter o' = if o' = o then d else h.counter o' := by
  obtain ⟨hlt, _⟩ := List.getElem?_eq_some_iff.mp (getElem?_counters hc)
  by_cases heq : o' = o
  · subst heq
    simp [counter, setCounter, hlt]
  · simp [counter, setCounter, heq, Ne.symm heq]

theorem find_setPtr {h : Heap} {i : ℕ} {a : AutoPtr} (ha : h.find i = some a) (b : Option AutoPtr) (j : ℕ) :
    (h.setPtr i b).find j = if j = i then b else h.find j := by
  obtain ⟨hlt, _⟩ := List.getElem?_eq_some_iff.mp (getElem?_ptrs ha)
  by_cases heq : j = i
  · subst heq
    simp [find, setPtr, hlt]
  · simp [find, setPtr, heq, Ne.symm heq]

@[simp] theorem counter_setPtr (h : Heap) (i : ℕ) (a : Option AutoPtr) (o : ℕ) :
    (h.setPtr i a).counter o = h.counter o := rfl

@[simp] theorem find_setCounter (h : Heap) (o : ℕ) (c : Option ℤ) (i : ℕ) :
    (h.setCounter o c).find i = h.find i := rfl

theorem lt_of_find {h : Heap} {i : ℕ} {a : AutoPtr} (ha : h.find i = some a) : i < h.ptrs.length := by
  obtain ⟨hlt, _⟩ := List.getElem?_eq_some_iff.mp (getElem?_ptrs ha)
  exact hlt

theorem mem_members {h : Heap} {o i : ℕ} :
    i ∈ h.members o ↔ ∃ a, h.find i = some a ∧ a.owner = some o := by
  simp only [members, List.mem_reverse, List.mem_filter, List.mem_range, Option.any_eq_true_iff_get,
    decide_eq_true_eq]
  constructor
  · rintro ⟨_, hsome, howner⟩
    exact ⟨_, Option.eq_some_of_isSome hsome, howner⟩
  · rintro ⟨a, ha, howner⟩
    exact ⟨lt_of_find ha, by simp [ha], by simpa [ha] using howner⟩

theorem nodup_members (h : Heap) (o : ℕ) : (h.members o).Nodup :=
  List.nodup_reverse.mpr (List.nodup_range.filter _)

/-- Whether it points to the object. -/
def holds (o : ℕ) (a : Option AutoPtr) : Bool := a.any fun a => a.ptr = some o

/-- The number of references to an object. -/
def refs (h : Heap) (o : ℕ) : ℕ := h.ptrs.countP (holds o) + h.raws.count o

@[simp] theorem refs_setCounter (h : Heap) (o o' : ℕ) (c : Option ℤ) :
    (h.setCounter o c).refs o' = h.refs o' := rfl

theorem refs_setPtr {h : Heap} {i : ℕ} {a : AutoPtr} (ha : h.find i = some a) (b : Option AutoPtr) (o : ℕ) :
    (h.setPtr i b).refs o + (holds o (some a)).toNat = h.refs o + (holds o b).toNat := by
  obtain ⟨hlt, hget⟩ := List.getElem?_eq_some_iff.mp (getElem?_ptrs ha)
  have hle : (holds o (some a)).toNat ≤ h.ptrs.countP (holds o) := by
    by_cases hh : holds o (some a)
    · have hpos : 0 < h.ptrs.countP (holds o) :=
        List.countP_pos_iff.mpr ⟨h.ptrs[i], List.getElem_mem hlt, by rw [hget, hh]⟩
      simpa [hh] using hpos
    · simp [hh]
  simp only [refs, setPtr, List.countP_set hlt, hget]
  cases hh : holds o (some a) <;> cases hb : holds o b <;>
    simp only [hh, Bool.toNat_true, Bool.toNat_false, if_true, if_false, Bool.false_eq_true] at hle ⊢ <;>
    omega

/-- A pointer to an object is a reference. -/
theorem refs_pos {h : Heap} {i o : ℕ} {a : AutoPtr} (ha : h.find i = some a) (hp : a.ptr = some o) :
    0 < h.refs o := by
  obtain ⟨hlt, hget⟩ := List.getElem?_eq_some_iff.mp (getElem?_ptrs ha)
  have hpos : 0 < h.ptrs.countP (holds o) :=
    List.countP_pos_iff.mpr ⟨h.ptrs[i], List.getElem_mem hlt, by simp [hget, holds, hp]⟩
  exact Nat.add_pos_left hpos _

/-! ### What a release keeps -/

/-- What a release in progress keeps, with what it still has to do. -/
structure Sound (h : Heap) (ts : List Task) : Prop where
  count : ∀ o c, h.counter o = some c → c = h.refs o + ts.count (.release o)
  live : ∀ o, 0 < h.refs o + ts.count (.release o) → ∃ c, h.counter o = some c
  owner : ∀ i a o, h.find i = some a → a.owner = some o → ∃ c, h.counter o = some c
  dying : ∀ o, h.counter o = some 0 ↔ .free o ∈ ts
  doomed : ∀ i, .destruct i ∈ ts ↔ ∃ a o, h.find i = some a ∧ a.owner = some o ∧ h.counter o = some 0
  once : ∀ t, (∀ o, t ≠ .release o) → ts.count t ≤ 1
  ordered : ts.Pairwise fun t t' =>
    ∀ o i a, t = .free o → t' = .destruct i → h.find i = some a → a.owner ≠ some o

theorem ne_counterMin {c : ℤ} (hpos : 0 < c) : c ≠ counterMin := by
  have hmin : counterMin = -2147483648 := by decide
  omega

theorem Sound.release_pos {h : Heap} {o : ℕ} {ts : List Task} (hs : Sound h (.release o :: ts)) :
    ∃ c, h.counter o = some c ∧ 0 < c := by
  obtain ⟨c, hc⟩ := hs.live o (by simp)
  have hcount := hs.count o c hc
  refine ⟨c, hc, ?_⟩
  simp at hcount
  omega

/-- A release that is not the last one. -/
theorem Sound.release_keep {h : Heap} {o : ℕ} {ts : List Task} (hs : Sound h (.release o :: ts)) {c : ℤ}
    (hc : h.counter o = some c) (hne : c - 1 ≠ 0) : Sound (h.setCounter o (some (c - 1))) ts := by
  have hcounter := counter_setCounter hc (some (c - 1))
  have hne' : some (c - 1) ≠ some 0 := fun heq => hne (Option.some.inj heq)
  have hzero (o' : ℕ) : (h.setCounter o (some (c - 1))).counter o' = some 0 ↔ h.counter o' = some 0 := by
    rw [hcounter]
    by_cases heq : o' = o
    · subst heq
      obtain ⟨d, hd, hpos⟩ := hs.release_pos
      have hd0 : h.counter o' ≠ some 0 := by
        rw [hd]
        intro h0
        have := Option.some.inj h0
        omega
      simp [hne, hd0]
    · simp [heq]
  constructor
  · intro o' c' hc'
    rw [hcounter] at hc'
    by_cases heq : o' = o
    · subst heq
      simp only [if_true, Option.some.injEq] at hc'
      have hcount := hs.count o' c hc
      simp at hcount ⊢
      omega
    · have hcount := hs.count o' c' (by simpa [heq] using hc')
      simpa [Ne.symm heq] using hcount
  · intro o' hpos
    by_cases heq : o' = o
    · subst heq
      exact ⟨c - 1, by rw [hcounter, if_pos rfl]⟩
    · obtain ⟨c', hc'⟩ := hs.live o' (by simpa [Ne.symm heq] using hpos)
      exact ⟨c', by rw [hcounter, if_neg heq, hc']⟩
  · intro i a o' ha howner
    obtain ⟨c', hc'⟩ := hs.owner i a o' ha howner
    rw [hcounter]
    by_cases heq : o' = o
    · exact ⟨c - 1, by rw [if_pos heq]⟩
    · exact ⟨c', by rw [if_neg heq, hc']⟩
  · intro o'
    rw [hzero, hs.dying]
    simp
  · intro i
    have hdoomed := hs.doomed i
    simp only [List.mem_cons, reduceCtorEq, false_or] at hdoomed
    simp only [hdoomed, find_setCounter, hzero]
  · intro t ht
    have hle := hs.once t ht
    rw [List.count_cons_of_ne (fun heq => ht o heq.symm)] at hle
    exact hle
  · exact (List.pairwise_cons.mp hs.ordered).2

/-- The last release: the object has no reference left, and its members are to be destroyed. -/
theorem Sound.release_last {h : Heap} {o : ℕ} {ts : List Task} (hs : Sound h (.release o :: ts)) {c : ℤ}
    (hc : h.counter o = some c) (hlast : c - 1 = 0) :
    Sound (h.setCounter o (some (c - 1))) ((h.members o).map .destruct ++ .free o :: ts) := by
  have hcounter := counter_setCounter hc (some (c - 1))
  have hnone : h.refs o = 0 ∧ ts.count (.release o) = 0 := by
    have hcount := hs.count o c hc
    simp at hcount
    omega
  have hrelease (o' : ℕ) : ((h.members o).map Task.destruct ++ .free o :: ts).count (.release o')
      = ts.count (.release o') := by
    have hzero : ((h.members o).map Task.destruct).count (.release o') = 0 :=
      List.count_eq_zero.mpr (by simp)
    simp [List.count_append, hzero]
  have hzero (o' : ℕ) : (h.setCounter o (some (c - 1))).counter o' = some 0
      ↔ o' = o ∨ h.counter o' = some 0 := by
    rw [hcounter]
    by_cases heq : o' = o
    · simp [heq, hlast]
    · simp [heq]
  have hnotzero : h.counter o ≠ some 0 := by
    rw [hc]
    intro h0
    have := Option.some.inj h0
    omega
  have hfree : Task.free o ∉ ts := by
    intro hmem
    exact hnotzero ((hs.dying o).mpr (List.mem_cons_of_mem _ hmem))
  have hdestruct (i : ℕ) : Task.destruct i ∈ ts ↔ ∃ a o', h.find i = some a ∧ a.owner = some o'
      ∧ h.counter o' = some 0 := by
    have hdoomed := hs.doomed i
    simpa only [List.mem_cons, reduceCtorEq, false_or] using hdoomed
  constructor
  · intro o' c' hc'
    rw [hcounter] at hc'
    rw [hrelease, refs_setCounter]
    by_cases heq : o' = o
    · subst heq
      simp only [if_true, Option.some.injEq] at hc'
      omega
    · have hcount := hs.count o' c' (by simpa [heq] using hc')
      simpa [Ne.symm heq] using hcount
  · intro o' hpos
    rw [hrelease, refs_setCounter] at hpos
    obtain ⟨c', hc'⟩ := hs.live o' (by
      have := List.count_le_count_cons (a := Task.release o') (b := Task.release o) (l := ts)
      omega)
    rw [hcounter]
    by_cases heq : o' = o
    · exact ⟨c - 1, by rw [if_pos heq]⟩
    · exact ⟨c', by rw [if_neg heq, hc']⟩
  · intro i a o' ha howner
    obtain ⟨c', hc'⟩ := hs.owner i a o' ha howner
    rw [hcounter]
    by_cases heq : o' = o
    · exact ⟨c - 1, by rw [if_pos heq]⟩
    · exact ⟨c', by rw [if_neg heq, hc']⟩
  · intro o'
    have hdying := hs.dying o'
    simp only [List.mem_cons, reduceCtorEq, false_or] at hdying
    rw [hzero, hdying]
    simp
  · intro i
    simp only [List.mem_append, List.mem_map, Task.destruct.injEq, exists_eq_right, mem_members,
      List.mem_cons, reduceCtorEq, false_or, hdestruct, find_setCounter, hzero]
    constructor
    · rintro (⟨a, ha, howner⟩ | ⟨a, o', ha, howner, hc'⟩)
      · exact ⟨a, o, ha, howner, Or.inl rfl⟩
      · exact ⟨a, o', ha, howner, Or.inr hc'⟩
    · rintro ⟨a, o', ha, howner, rfl | hc'⟩
      · exact Or.inl ⟨a, ha, howner⟩
      · exact Or.inr ⟨a, o', ha, howner, hc'⟩
  · intro t ht
    have hle := hs.once t ht
    rw [List.count_cons_of_ne (fun heq => ht o heq.symm)] at hle
    have hnodup : ((h.members o).map Task.destruct).Nodup :=
      (nodup_members h o).map fun i j hij => Task.destruct.inj hij
    rw [List.count_append]
    cases t with
    | release o' => exact (ht o' rfl).elim
    | destruct i =>
      rw [List.count_cons_of_ne (by simp)]
      by_cases hmem : Task.destruct i ∈ ts
      · have hnot : Task.destruct i ∉ (h.members o).map Task.destruct := by
          intro hm
          obtain ⟨a, ha, howner⟩ := mem_members.mp (by simpa using hm)
          obtain ⟨a', o', ha', howner', hc'⟩ := (hdestruct i).mp hmem
          obtain rfl : a = a' := Option.some.inj (ha.symm.trans ha')
          obtain rfl : o = o' := Option.some.inj (howner.symm.trans howner')
          exact hnotzero hc'
        rw [List.count_eq_zero.mpr hnot]
        omega
      · rw [List.count_eq_zero.mpr hmem]
        exact List.nodup_iff_count_le_one.mp hnodup _
    | free o' =>
      have hzero' : ((h.members o).map Task.destruct).count (.free o') = 0 :=
        List.count_eq_zero.mpr (by simp)
      rw [hzero']
      by_cases heq : o' = o
      · subst heq
        simp [List.count_eq_zero.mpr hfree]
      · rw [List.count_cons_of_ne (by simpa using Ne.symm heq)]
        omega
  · have hts := (List.pairwise_cons.mp hs.ordered).2
    rw [List.pairwise_append, List.pairwise_cons]
    refine ⟨?_, ⟨?_, hts⟩, ?_⟩
    · rw [List.pairwise_map]
      exact List.pairwise_of_forall fun i j o' k a hfalse => by cases hfalse
    · rintro t ht o' i a hfree' rfl ha howner
      obtain rfl := Task.free.inj hfree'
      obtain ⟨a', o', ha', howner', hc'⟩ := (hdestruct i).mp ht
      obtain rfl : a = a' := Option.some.inj (ha.symm.trans ha')
      obtain rfl : o = o' := Option.some.inj (howner.symm.trans howner')
      exact hnotzero hc'
    · intro t ht t' _ o' i a hfree'
      obtain ⟨j, _, rfl⟩ := List.mem_map.mp ht
      cases hfree'

/-- A smart pointer is destroyed; its reference is to be released. -/
theorem Sound.destruct {h : Heap} {i : ℕ} {ts : List Task} (hs : Sound h (.destruct i :: ts)) {a : AutoPtr}
    (ha : h.find i = some a) : Sound (h.setPtr i none) (a.ptr.toList.map .release ++ ts) := by
  have hfind := find_setPtr ha none
  have hrefs := refs_setPtr ha none
  have hnot : Task.destruct i ∉ ts := by
    have hle := hs.once (.destruct i) (by simp)
    rw [List.count_cons_self] at hle
    exact List.count_eq_zero.mp (by omega)
  have hreleases (o : ℕ) : (h.setPtr i none).refs o
      + (a.ptr.toList.map Task.release ++ ts).count (.release o)
      = h.refs o + (Task.destruct i :: ts).count (.release o) := by
    have hr := hrefs o
    rw [List.count_append, List.count_cons_of_ne (by simp)]
    cases hp : a.ptr with
    | none =>
      simp [holds, hp] at hr ⊢
      omega
    | some o' =>
      by_cases heq : o' = o
      · simp [holds, hp, heq] at hr ⊢
        omega
      · simp [holds, hp, heq] at hr ⊢
        omega
  have hother (t : Task) (ht : ∀ o, t ≠ .release o) :
      t ∈ a.ptr.toList.map Task.release ++ ts ↔ t ∈ ts := by
    have hmem : t ∉ a.ptr.toList.map Task.release := by
      intro hm
      obtain ⟨o, _, rfl⟩ := List.mem_map.mp hm
      exact ht o rfl
    simp [hmem]
  constructor
  · intro o c hc
    rw [hs.count o c hc]
    exact_mod_cast (hreleases o).symm
  · intro o hpos
    exact hs.live o (hreleases o ▸ hpos)
  · intro j b o hb howner
    rw [hfind] at hb
    by_cases heq : j = i
    · simp [heq] at hb
    · exact hs.owner j b o (by simpa [heq] using hb) howner
  · intro o
    rw [hother _ (by simp), counter_setPtr, hs.dying]
    simp
  · intro j
    rw [hother _ (by simp)]
    have hdoomed := hs.doomed j
    by_cases heq : j = i
    · subst heq
      simp [hnot, hfind]
    · simp only [List.mem_cons, Task.destruct.injEq, heq, false_or] at hdoomed
      simp only [hdoomed, hfind, heq, if_false, counter_setPtr]
  · intro t ht
    have hle := hs.once t ht
    have hzero : (a.ptr.toList.map Task.release).count t = 0 := by
      refine List.count_eq_zero.mpr fun hm => ?_
      obtain ⟨o, _, rfl⟩ := List.mem_map.mp hm
      exact ht o rfl
    have hcons := List.count_le_count_cons (a := t) (b := Task.destruct i) (l := ts)
    rw [List.count_append, hzero]
    omega
  · have hts := (List.pairwise_cons.mp hs.ordered).2
    have hmono : ts.Pairwise fun t t' =>
        ∀ o j b, t = .free o → t' = .destruct j → (h.setPtr i none).find j = some b → b.owner ≠ some o := by
      refine hts.imp fun hr o j b hfree hd hb => hr o j b hfree hd ?_
      rw [hfind] at hb
      by_cases heq : j = i
      · simp [heq] at hb
      · simpa [heq] using hb
    rw [List.pairwise_append]
    refine ⟨?_, hmono, ?_⟩
    · rw [List.pairwise_map]
      exact List.pairwise_of_forall fun x y o j b hfalse => by cases hfalse
    · intro t ht t' _ o j b hfree
      obtain ⟨x, _, rfl⟩ := List.mem_map.mp ht
      cases hfree

/-- An object whose members are destroyed is freed. -/
theorem Sound.free {h : Heap} {o : ℕ} {ts : List Task} (hs : Sound h (.free o :: ts)) :
    Sound (h.setCounter o none) ts := by
  have hc : h.counter o = some 0 := (hs.dying o).mpr (by simp)
  have hcounter := counter_setCounter hc none
  have hnot : Task.free o ∉ ts := by
    have hle := hs.once (.free o) (by simp)
    rw [List.count_cons_self] at hle
    exact List.count_eq_zero.mp (by omega)
  have hcount (o' : ℕ) : (Task.free o :: ts).count (.release o') = ts.count (.release o') := by
    rw [List.count_cons_of_ne (by simp)]
  have hnone : h.refs o + ts.count (.release o) = 0 := by
    have h0 := hs.count o 0 hc
    rw [hcount] at h0
    omega
  have hmember (i : ℕ) (a : AutoPtr) (ha : h.find i = some a) : a.owner ≠ some o := by
    intro howner
    have hmem : Task.destruct i ∈ ts := by
      have hd := (hs.doomed i).mpr ⟨a, o, ha, howner, hc⟩
      simpa using hd
    exact (List.pairwise_cons.mp hs.ordered).1 _ hmem o i a rfl rfl ha howner
  constructor
  · intro o' c hc'
    rw [hcounter] at hc'
    by_cases heq : o' = o
    · simp [heq] at hc'
    · have h' := hs.count o' c (by simpa [heq] using hc')
      rwa [hcount] at h'
  · intro o' hpos
    rw [refs_setCounter] at hpos
    obtain ⟨c, hc'⟩ := hs.live o' (by rwa [hcount])
    have hne : o' ≠ o := by
      rintro rfl
      omega
    exact ⟨c, by rw [hcounter, if_neg hne, hc']⟩
  · intro i a o' ha howner
    obtain ⟨c, hc'⟩ := hs.owner i a o' ha howner
    have hne : o' ≠ o := by
      rintro rfl
      exact hmember i a ha howner
    exact ⟨c, by rw [hcounter, if_neg hne, hc']⟩
  · intro o'
    rw [hcounter]
    by_cases heq : o' = o
    · simp [heq, hnot]
    · rw [if_neg heq, hs.dying]
      simp [heq]
  · intro i
    have hdoomed := hs.doomed i
    simp only [List.mem_cons, reduceCtorEq, false_or] at hdoomed
    rw [hdoomed]
    constructor
    · rintro ⟨a, o', ha, howner, hc'⟩
      have hne : o' ≠ o := by
        rintro rfl
        exact hmember i a ha howner
      exact ⟨a, o', ha, howner, by rw [hcounter, if_neg hne, hc']⟩
    · rintro ⟨a, o', ha, howner, hc'⟩
      rw [hcounter] at hc'
      by_cases heq : o' = o
      · simp [heq] at hc'
      · exact ⟨a, o', ha, howner, by simpa [heq] using hc'⟩
  · intro t ht
    have hcons := List.count_le_count_cons (a := t) (b := Task.free o) (l := ts)
    have hle := hs.once t ht
    omega
  · exact (List.pairwise_cons.mp hs.ordered).2

/-- What a release leaves: plain pointers and variables are as they were, counters only go down, and a
smart pointer is destroyed only with the object it is a member of. -/
structure Kept (h h' : Heap) : Prop where
  raws : h'.raws = h.raws
  counter : ∀ o c', h'.counter o = some c' → ∃ c, h.counter o = some c ∧ c' ≤ c
  find : ∀ i, h'.find i = h.find i
    ∨ h'.find i = none ∧ ∃ a o, h.find i = some a ∧ a.owner = some o ∧ h'.counter o = none

theorem Kept.refl (h : Heap) : Kept h h :=
  ⟨rfl, fun _ c hc => ⟨c, hc, le_rfl⟩, fun _ => Or.inl rfl⟩

theorem Kept.counter_none {h h' : Heap} (hk : Kept h h') {o : ℕ} (ho : h.counter o = none) :
    h'.counter o = none := by
  cases hc : h'.counter o with
  | none => rfl
  | some c' =>
    obtain ⟨c, hc', _⟩ := hk.counter o c' hc
    rw [ho] at hc'
    cases hc'

theorem Kept.trans {h h' h'' : Heap} (hk : Kept h h') (hk' : Kept h' h'') : Kept h h'' where
  raws := hk'.raws.trans hk.raws
  counter o c'' hc'' := by
    obtain ⟨c', hc', hle'⟩ := hk'.counter o c'' hc''
    obtain ⟨c, hc, hle⟩ := hk.counter o c' hc'
    exact ⟨c, hc, hle'.trans hle⟩
  find i := by
    rcases hk'.find i with heq' | ⟨hnone', a, o, ha, howner, ho⟩
    · rcases hk.find i with heq | ⟨hnone, a, o, ha, howner, ho⟩
      · exact Or.inl (heq'.trans heq)
      · exact Or.inr ⟨heq'.trans hnone, a, o, ha, howner, hk'.counter_none ho⟩
    · rcases hk.find i with heq | ⟨hnone, _⟩
      · exact Or.inr ⟨hnone', a, o, heq ▸ ha, howner, ho⟩
      · rw [hnone] at ha
        cases ha

theorem kept_setCounter {h : Heap} {o : ℕ} {c : ℤ} (hc : h.counter o = some c) {d : Option ℤ}
    (hd : ∀ c', d = some c' → c' ≤ c) : Kept h (h.setCounter o d) where
  raws := rfl
  counter o' c' hc' := by
    rw [counter_setCounter hc] at hc'
    by_cases heq : o' = o
    · subst heq
      exact ⟨c, hc, hd c' (by simpa using hc')⟩
    · exact ⟨c', by simpa [heq] using hc', le_rfl⟩
  find _ := Or.inl rfl

/-- An object that is being deleted is gone in the end. -/
theorem Kept.dying {h h' : Heap} (hk : Kept h h') (hs : Sound h' []) {o : ℕ} (hc : h.counter o = some 0) :
    h'.counter o = none := by
  cases hc' : h'.counter o with
  | none => rfl
  | some c' =>
    obtain ⟨c, hc'', hle⟩ := hk.counter o c' hc'
    obtain rfl : 0 = c := Option.some.inj (hc.symm.trans hc'')
    have hcount := hs.count o c' hc'
    obtain rfl : c' = 0 := by
      simp at hcount
      omega
    have hmem := (hs.dying o).mp hc'
    cases hmem

theorem Kept.destruct {h h' : Heap} {i o : ℕ} {a : AutoPtr} (ha : h.find i = some a)
    (howner : a.owner = some o) (hc : h.counter o = some 0) (hs : Sound h' [])
    (hk : Kept (h.setPtr i none) h') : Kept h h' where
  raws := hk.raws
  counter := hk.counter
  find j := by
    have hfind := find_setPtr ha none
    by_cases heq : j = i
    · subst heq
      have hnone : h'.find j = none := by
        rcases hk.find j with h1 | ⟨h1, _⟩
        · rw [h1, hfind, if_pos rfl]
        · exact h1
      exact Or.inr ⟨hnone, a, o, ha, howner, hk.dying hs hc⟩
    · have hj := hk.find j
      rwa [hfind, if_neg heq] at hj

/-- A whole release runs without an access to what is gone, and nothing is left to do. -/
theorem run_sound {h : Heap} {ts : List Task} (hs : Sound h ts) :
    ∃ h', run ts h = .ok h' ∧ Sound h' [] ∧ Kept h h' := by
  induction ts, h using run.induct with
  | case1 h => exact ⟨h, by rw [run], hs, Kept.refl h⟩
  | case2 h o ts hc =>
    obtain ⟨c, hc', _⟩ := hs.release_pos
    rw [hc] at hc'
    cases hc'
  | case3 h o ts hc =>
    obtain ⟨c, hc', hpos⟩ := hs.release_pos
    obtain rfl := Option.some.inj (hc.symm.trans hc')
    exact absurd rfl (ne_counterMin hpos)
  | case4 h o ts c hc hmin hlast ih =>
    obtain ⟨h', hrun, hsound, hkept⟩ := ih (hs.release_last hc hlast)
    refine ⟨h', ?_, hsound, (kept_setCounter hc ?_).trans hkept⟩
    · rw [run_release, hc]
      simp only [hmin, hlast, if_true, if_false] at hrun ⊢
      exact hrun
    · rintro c' ⟨⟩
      omega
  | case5 h o ts c hc hmin hlast ih =>
    obtain ⟨h', hrun, hsound, hkept⟩ := ih (hs.release_keep hc hlast)
    refine ⟨h', ?_, hsound, (kept_setCounter hc ?_).trans hkept⟩
    · rw [run_release, hc]
      simp only [hmin, hlast, if_false]
      exact hrun
    · rintro c' ⟨⟩
      omega
  | case6 h i ts ha =>
    obtain ⟨a, o, ha', _⟩ := (hs.doomed i).mp (by simp)
    rw [ha] at ha'
    cases ha'
  | case7 h i ts a ha hp ih =>
    obtain ⟨a', o, ha', howner, hc⟩ := (hs.doomed i).mp (by simp)
    obtain rfl : a = a' := Option.some.inj (ha.symm.trans ha')
    obtain ⟨h', hrun, hsound, hkept⟩ := ih (by simpa [hp] using hs.destruct ha)
    exact ⟨h', by simpa [run_destruct, ha, hp] using hrun, hsound, hkept.destruct ha howner hc hsound⟩
  | case8 h i ts a ha o hp ih =>
    obtain ⟨a', o', ha', howner, hc⟩ := (hs.doomed i).mp (by simp)
    obtain rfl : a = a' := Option.some.inj (ha.symm.trans ha')
    obtain ⟨h', hrun, hsound, hkept⟩ := ih (by simpa [hp] using hs.destruct ha)
    exact ⟨h', by simpa [run_destruct, ha, hp] using hrun, hsound, hkept.destruct ha howner hc hsound⟩
  | case9 h o ts ih =>
    obtain ⟨h', hrun, hsound, hkept⟩ := ih hs.free
    have hc : h.counter o = some 0 := (hs.dying o).mpr (by simp)
    exact ⟨h', by rw [run]; exact hrun, hsound, (kept_setCounter hc (by simp)).trans hkept⟩

/-! ### A pointer that the release does not destroy -/

theorem members_setPtr {h : Heap} {p : ℕ} {a b : AutoPtr} (ha : h.find p = some a)
    (howner : b.owner = a.owner) (o : ℕ) : (h.setPtr p (some b)).members o = h.members o := by
  have hlen : (h.setPtr p (some b)).ptrs.length = h.ptrs.length := by simp [setPtr]
  have hany (i : ℕ) : ((h.setPtr p (some b)).find i).any (fun a => a.owner = some o)
      = (h.find i).any fun a => a.owner = some o := by
    rw [find_setPtr ha]
    by_cases heq : i = p
    · subst heq
      simp [ha, howner]
    · simp [heq]
  simp only [members, hlen, hany]

theorem setPtr_comm (h : Heap) {p i : ℕ} (hne : i ≠ p) (a b : Option AutoPtr) :
    (h.setPtr p b).setPtr i a = (h.setPtr i a).setPtr p b := by
  simp only [setPtr, List.set_comm b a hne.symm]

/-- What a destroyed pointer was is never found again. -/
theorem find_of_run {h h' : Heap} {ts : List Task} (hrun : run ts h = .ok h') {p : ℕ} {a : AutoPtr}
    (ha : h'.find p = some a) : h.find p = some a := by
  induction ts, h using run.induct with
  | case1 h =>
    rw [run, Except.ok.injEq] at hrun
    rwa [hrun]
  | case2 h o ts hc =>
    rw [run_release, hc] at hrun
    cases hrun
  | case3 h o ts hc =>
    rw [run_release, hc] at hrun
    simp at hrun
  | case4 h o ts c hc hmin hlast ih =>
    rw [run_release, hc] at hrun
    simp only [hmin, hlast, if_true, if_false] at hrun ih
    exact ih hrun
  | case5 h o ts c hc hmin hlast ih =>
    rw [run_release, hc] at hrun
    simp only [hmin, hlast, if_false] at hrun
    exact ih hrun
  | case6 h i ts hi =>
    rw [run_destruct, hi] at hrun
    cases hrun
  | case7 h i ts b hb hp ih =>
    simp only [run_destruct, hb, hp] at hrun
    have hfind := ih hrun
    rw [find_setPtr hb] at hfind
    by_cases heq : p = i
    · simp [heq] at hfind
    · simpa [heq] using hfind
  | case8 h i ts b hb o hp ih =>
    simp only [run_destruct, hb, hp] at hrun
    have hfind := ih hrun
    rw [find_setPtr hb] at hfind
    by_cases heq : p = i
    · simp [heq] at hfind
    · simpa [heq] using hfind
  | case9 h o ts ih =>
    rw [run] at hrun
    exact ih hrun

/-- A release does not look at what a pointer holds that it leaves. -/
theorem run_setPtr {h h' : Heap} {ts : List Task} (hrun : run ts h = .ok h') {p : ℕ} {a b : AutoPtr}
    (ha : h'.find p = some a) (howner : b.owner = a.owner) :
    run ts (h.setPtr p (some b)) = .ok (h'.setPtr p (some b)) := by
  have hfound := find_of_run hrun ha
  induction ts, h using run.induct with
  | case1 h =>
    rw [run, Except.ok.injEq] at hrun ⊢
    rw [hrun]
  | case2 h o ts hc =>
    rw [run_release, hc] at hrun
    cases hrun
  | case3 h o ts hc =>
    rw [run_release, hc] at hrun
    simp at hrun
  | case4 h o ts c hc hmin hlast ih =>
    rw [run_release, hc] at hrun
    simp only [hmin, hlast, if_true, if_false] at hrun ih
    rw [run_release, counter_setPtr, hc]
    simp only [hmin, hlast, if_true, if_false, members_setPtr hfound howner]
    exact ih hrun hfound
  | case5 h o ts c hc hmin hlast ih =>
    rw [run_release, hc] at hrun
    simp only [hmin, hlast, if_false] at hrun
    rw [run_release, counter_setPtr, hc]
    simp only [hmin, hlast, if_false]
    exact ih hrun hfound
  | case6 h i ts hi =>
    rw [run_destruct, hi] at hrun
    cases hrun
  | case7 h i ts d hd hp ih =>
    simp only [run_destruct, hd, hp] at hrun
    have hstill := find_of_run hrun ha
    have hne : i ≠ p := by
      rintro rfl
      simp [find_setPtr hd] at hstill
    rw [run_destruct, find_setPtr hfound, if_neg hne, hd]
    simp only [hp, setPtr_comm h hne]
    exact ih hrun hstill
  | case8 h i ts d hd o hp ih =>
    simp only [run_destruct, hd, hp] at hrun
    have hstill := find_of_run hrun ha
    have hne : i ≠ p := by
      rintro rfl
      simp [find_setPtr hd] at hstill
    rw [run_destruct, find_setPtr hfound, if_neg hne, hd]
    simp only [hp, setPtr_comm h hne]
    exact ih hrun hstill
  | case9 h o ts ih =>
    rw [run] at hrun ⊢
    exact ih hrun hfound

end RgcFifa.RefCounting.Heap
