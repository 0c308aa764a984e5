import Mathlib.Data.List.ReduceOption
import Mathlib.Tactic

/-! Tables of optional occupants that reuse the least free slot. The table is
kept tidy: its free set is exactly the set of holes, and it never ends in one. -/

namespace Slots

variable {α : Type*}

/-- The occupant of slot `i`. A slot past the end is empty. -/
def slot (l : List (Option α)) (i : ℕ) : Option α := (l[i]?).join

/-- Two names of slots, looked up in a table where no occupant sits twice, find the same if
they name the same slot, and otherwise only if neither finds anything. -/
theorem bind_eq_bind_iff {ι : Type*} {f : ι → Option α}
    (hf : ∀ i j a, f i = some a → f j = some a → i = j) {p q : Option ι} :
    p.bind f = q.bind f ↔ p = q ∨ p.bind f = none ∧ q.bind f = none := by
  constructor
  · intro h
    cases hp : p.bind f with
    | none => exact .inr ⟨rfl, h.symm.trans hp⟩
    | some a =>
      obtain ⟨i, rfl, hi⟩ := Option.bind_eq_some_iff.mp hp
      obtain ⟨j, rfl, hj⟩ := Option.bind_eq_some_iff.mp (h.symm.trans hp)
      rw [hf i j a hi hj]
      exact .inl rfl
  · rintro (rfl | ⟨hp, hq⟩)
    · rfl
    · rw [hp, hq]

def live (l : List (Option α)) : ℕ := l.countP Option.isSome

theorem slot_eq_some {l : List (Option α)} {i : ℕ} {a : α} :
    slot l i = some a ↔ l[i]? = some (some a) :=
  Option.join_eq_some_iff

theorem slot_eq_none {l : List (Option α)} {i : ℕ} :
    slot l i = none ↔ l.length ≤ i ∨ l[i]? = some none := by
  cases h : l[i]? with
  | none => simpa [slot, h] using List.getElem?_eq_none_iff.mp h
  | some o =>
    have hi : ¬ l.length ≤ i := by simpa using (List.getElem?_eq_some_iff.mp h).1
    rw [slot, h]
    simp [hi]

theorem slot_lt {l : List (Option α)} {i : ℕ} {a : α} (h : slot l i = some a) : i < l.length :=
  (List.getElem?_eq_some_iff.mp (slot_eq_some.mp h)).1

theorem slot_set {l : List (Option α)} {i : ℕ} (hi : i < l.length) (o : Option α) (j : ℕ) :
    slot (l.set i o) j = if j = i then o else slot l j := by
  by_cases hj : j = i
  · subst hj; simp [slot, hi]
  · simp [slot, hj, Ne.symm hj]

theorem slot_push (l : List (Option α)) (a : α) (j : ℕ) :
    slot (l ++ [some a]) j = if j = l.length then some a else slot l j := by
  rcases lt_trichotomy j l.length with h | h | h
  · simp [slot, List.getElem?_append_left h, h.ne]
  · subst h; simp [slot]
  · have h' : l.length + 1 ≤ j := h
    simp [slot, h.ne', List.getElem?_eq_none_iff.mpr h.le,
      List.getElem?_eq_none_iff.mpr (show (l ++ [some a]).length ≤ j by simpa using h')]

theorem slot_take {l : List (Option α)} {n : ℕ} (h : ∀ i, n ≤ i → slot l i = none) (j : ℕ) :
    slot (l.take n) j = slot l j := by
  by_cases hj : j < n
  · simp [slot, hj]
  · simpa [slot, hj] using (h j (by omega)).symm

theorem live_set_some {l : List (Option α)} {i : ℕ} (h : l[i]? = some none) (a : α) :
    live (l.set i (some a)) = live l + 1 := by
  obtain ⟨hi, he⟩ := List.getElem?_eq_some_iff.mp h
  simp [live, List.countP_set hi, he]

theorem live_set_none {l : List (Option α)} {i : ℕ} {a : α} (h : slot l i = some a) :
    live (l.set i none) + 1 = live l := by
  obtain ⟨hi, he⟩ := List.getElem?_eq_some_iff.mp (slot_eq_some.mp h)
  have hpos : 0 < l.countP Option.isSome :=
    List.countP_pos_iff.mpr ⟨l[i], List.getElem_mem hi, by simp [he]⟩
  simp [live, List.countP_set hi, he]
  omega

theorem live_push (l : List (Option α)) (a : α) : live (l ++ [some a]) = live l + 1 := by
  simp [live]

theorem live_take {l : List (Option α)} {n : ℕ} (h : ∀ i, n ≤ i → slot l i = none) :
    live (l.take n) = live l := by
  have hd : (l.drop n).countP Option.isSome = 0 := by
    apply List.countP_eq_zero.mpr
    intro o ho
    obtain ⟨i, hi, rfl⟩ := List.mem_iff_getElem.mp ho
    have hs := h (n + i) (by omega)
    rw [List.getElem_drop]
    rw [List.length_drop] at hi
    simpa [slot, List.getElem?_eq_getElem (show n + i < l.length by omega)] using hs
  calc live (l.take n) = (l.take n).countP Option.isSome + (l.drop n).countP Option.isSome := by
        rw [hd]; rfl
    _ = live l := by rw [← List.countP_append, List.take_append_drop]; rfl

/-- The number of occupants in `p`. -/
def tally (p : α → Bool) (l : List (Option α)) : ℕ := l.countP fun o => o.any p

theorem tally_eq_sum (p : α → Bool) (l : List (Option α)) {n : ℕ} (h : l.length ≤ n) :
    tally p l = ∑ i ∈ Finset.range n, if (slot l i).any p then 1 else 0 := by
  induction l generalizing n with
  | nil => simp [tally, slot]
  | cons o l ih =>
    obtain ⟨m, rfl⟩ : ∃ m, n = m + 1 := Nat.exists_eq_add_one.mpr (Nat.zero_lt_of_lt h)
    have hl : l.length ≤ m := Nat.le_of_succ_le_succ h
    rw [Finset.sum_range_succ', tally, List.countP_cons]
    exact congrArg (· + _) (ih hl)

/-- Two tables that differ in slot `k` alone. -/
theorem tally_update (p : α → Bool) {l m : List (Option α)} {k : ℕ} {o : Option α}
    (h : ∀ i, slot m i = if i = k then o else slot l i) :
    tally p m + (if (slot l k).any p then 1 else 0) =
      tally p l + (if o.any p then 1 else 0) := by
  obtain ⟨n, hl, hm, hk⟩ : ∃ n, l.length ≤ n ∧ m.length ≤ n ∧ k < n :=
    ⟨l.length + m.length + k + 1, by omega, by omega, by omega⟩
  have hrest : ∑ i ∈ (Finset.range n).erase k, (if (slot m i).any p then 1 else 0) =
      ∑ i ∈ (Finset.range n).erase k, if (slot l i).any p then 1 else 0 := by
    apply Finset.sum_congr rfl
    intro i hi
    rw [h, if_neg (Finset.ne_of_mem_erase hi)]
  rw [tally_eq_sum p m hm, tally_eq_sum p l hl, ← Finset.add_sum_erase _ _ (Finset.mem_range.mpr hk),
    ← Finset.add_sum_erase _ _ (Finset.mem_range.mpr hk), hrest, h k, if_pos rfl]
  omega

theorem countP_reduceOption (p : α → Bool) (l : List (Option α)) :
    l.reduceOption.countP p = tally p l := by
  have hmap : l.reduceOption = l.filterMap id := rfl
  rw [hmap, List.countP_filterMap, tally]
  congr 1
  funext o
  cases o <;> rfl

theorem mem_reduceOption {l : List (Option α)} {a : α} :
    a ∈ l.reduceOption ↔ ∃ i, slot l i = some a := by
  rw [List.reduceOption_mem_iff, List.mem_iff_getElem?]
  exact exists_congr fun i => slot_eq_some.symm

/-- Occupants that a name tells apart are listed once. -/
theorem nodup_map_reduceOption {β : Type*} {f : α → β} {l : List (Option α)}
    (hf : ∀ i j a b, slot l i = some a → slot l j = some b → f a = f b → i = j) :
    (l.reduceOption.map f).Nodup := by
  induction l with
  | nil => simp [List.reduceOption_nil]
  | cons o l ih =>
    have hrest := ih fun i j a b ha hb hab =>
      Nat.succ.inj (hf (i + 1) (j + 1) a b ha hb hab)
    cases o with
    | none => rwa [List.reduceOption_cons_of_none]
    | some a =>
      rw [List.reduceOption_cons_of_some, List.map_cons, List.nodup_cons]
      refine ⟨fun hmem => ?_, hrest⟩
      obtain ⟨b, hb, hab⟩ := List.mem_map.mp hmem
      obtain ⟨j, hj⟩ := mem_reduceOption.mp hb
      exact Nat.succ_ne_zero j (hf (j + 1) 0 b a hj rfl hab)

/-- The free set is the set of holes, and the table does not end in a hole. -/
structure Tidy (l : List (Option α)) (free : Finset ℕ) : Prop where
  mem_free : ∀ i, i ∈ free ↔ l[i]? = some none
  last : l.getLast? ≠ some none

theorem tidy_nil : Tidy ([] : List (Option α)) ∅ := ⟨by simp, by simp⟩

def next (l : List (Option α)) (free : Finset ℕ) : ℕ :=
  if h : free.Nonempty then free.min' h else l.length

variable {l : List (Option α)} {free : Finset ℕ}

theorem Tidy.lt_length (h : Tidy l free) {i : ℕ} (hi : i ∈ free) : i < l.length :=
  (List.getElem?_eq_some_iff.mp ((h.mem_free i).mp hi)).1

theorem next_eq_length (he : free = ∅) : next l free = l.length := by
  simp [next, he]

theorem next_mem (hne : free.Nonempty) : next l free ∈ free := by
  simpa [next, hne] using free.min'_mem hne

theorem Tidy.next_isLeast (h : Tidy l free) : IsLeast {i | slot l i = none} (next l free) := by
  by_cases hne : free.Nonempty
  · refine ⟨slot_eq_none.mpr (.inr ((h.mem_free _).mp (next_mem hne))), ?_⟩
    intro i hi
    rcases slot_eq_none.mp hi with hi | hi
    · exact (h.lt_length (next_mem hne)).le.trans hi
    · simpa [next, hne] using free.min'_le i ((h.mem_free i).mpr hi)
  · have he : free = ∅ := Finset.not_nonempty_iff_eq_empty.mp hne
    rw [next_eq_length he]
    refine ⟨slot_eq_none.mpr (.inl le_rfl), ?_⟩
    intro i hi
    rcases slot_eq_none.mp hi with hi | hi
    · exact hi
    · have := (h.mem_free i).mpr hi
      simp [he] at this

theorem Tidy.put (h : Tidy l free) {i : ℕ} (hi : i ∈ free) (a : α) :
    Tidy (l.set i (some a)) (free.erase i) := by
  have hl := h.lt_length hi
  constructor
  · intro j
    by_cases hj : j = i
    · subst hj; simp [hl]
    · simp [hj, Ne.symm hj, h.mem_free]
  · have hlast := h.last
    rw [List.getLast?_eq_getElem?] at hlast ⊢
    by_cases he : i = l.length - 1
    · subst he; simp [hl]
    · simpa [he] using hlast

theorem Tidy.push (h : Tidy l ∅) (a : α) : Tidy (l ++ [some a]) ∅ := by
  constructor
  · intro j
    have hno : l[j]? ≠ some none := fun he => by simpa using (h.mem_free j).mpr he
    rcases lt_trichotomy j l.length with hj | hj | hj
    · simpa [List.getElem?_append_left hj] using hno
    · subst hj; simp
    · simp [List.getElem?_eq_none_iff.mpr (show (l ++ [some a]).length ≤ j by simpa using hj)]
  · simp

theorem Tidy.clear (h : Tidy l free) {i : ℕ} (hi : i + 1 < l.length) :
    Tidy (l.set i none) (insert i free) := by
  constructor
  · intro j
    by_cases hj : j = i
    · subst hj; simp [show j < l.length by omega]
    · simp [hj, Ne.symm hj, h.mem_free]
  · have hlast := h.last
    rw [List.getLast?_eq_getElem?] at hlast ⊢
    simpa [show i ≠ l.length - 1 by omega] using hlast

theorem Tidy.trim (h : Tidy l free) {n : ℕ} {free' : Finset ℕ} (hn : n < l.length)
    (hfree : ∀ j, j ∈ free' ↔ j ∈ free ∧ j < n)
    (hlast : n = 0 ∨ ∃ a, slot l (n - 1) = some a) :
    Tidy ((l.set (l.length - 1) none).take n) free' := by
  constructor
  · intro j
    by_cases hj : j < n
    · simp [hfree, hj, show l.length - 1 ≠ j by omega, h.mem_free]
    · simp [hfree, hj]
  · rcases Nat.eq_zero_or_pos n with rfl | hpos
    · simp
    · obtain ⟨a, ha⟩ := hlast.resolve_left hpos.ne'
      have hlen : ((l.set (l.length - 1) none).take n).length = n := by
        simp only [List.length_take, List.length_set]; omega
      rw [List.getLast?_eq_getElem?, hlen, List.getElem?_take]
      simp [hpos, show l.length - 1 ≠ n - 1 by omega, slot_eq_some.mp ha]

end Slots
