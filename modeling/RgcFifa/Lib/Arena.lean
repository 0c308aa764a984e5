import Mathlib.Tactic

/-! Objects that are made and freed. The name of an object is never given again, so what has been
freed stays known as such, and the accounts say how often. -/

structure Arena (α : Type*) where
  cells : ℕ → Option α
  next : ℕ
  freed : ℕ → ℕ

namespace Arena

variable {α : Type*}

def empty : Arena α := ⟨fun _ => none, 0, fun _ => 0⟩

def alloc (a : α) (h : Arena α) : ℕ × Arena α :=
  (h.next, ⟨Function.update h.cells h.next (some a), h.next + 1, h.freed⟩)

/-- A write to an object. -/
def set (i : ℕ) (a : α) (h : Arena α) : Arena α :=
  { h with cells := Function.update h.cells i (some a) }

def release (i : ℕ) (h : Arena α) : Arena α :=
  ⟨Function.update h.cells i none, h.next, Function.update h.freed i (h.freed i + 1)⟩

/-- Everything that was made is there, or has been freed once. -/
structure Balanced (h : Arena α) : Prop where
  live : ∀ i a, h.cells i = some a → i < h.next ∧ h.freed i = 0
  gone : ∀ i < h.next, h.cells i = none → h.freed i = 1
  fresh : ∀ i, h.next ≤ i → h.freed i = 0

/-- Everything that was made has been freed once. -/
def Released (h : Arena α) : Prop := ∀ i < h.next, h.freed i = 1

instance (h : Arena α) : Decidable h.Released :=
  inferInstanceAs (Decidable (∀ i < h.next, h.freed i = 1))

variable {h : Arena α} {i : ℕ} {a : α}

@[simp] theorem cells_alloc (a : α) (h : Arena α) (j : ℕ) :
    (h.alloc a).2.cells j = if j = h.next then some a else h.cells j := Function.update_apply _ _ _ _

@[simp] theorem cells_set (i : ℕ) (a : α) (h : Arena α) (j : ℕ) :
    (h.set i a).cells j = if j = i then some a else h.cells j := Function.update_apply _ _ _ _

@[simp] theorem cells_release (i : ℕ) (h : Arena α) (j : ℕ) :
    (h.release i).cells j = if j = i then none else h.cells j := Function.update_apply _ _ _ _

theorem freed_release (i : ℕ) (h : Arena α) (j : ℕ) :
    (h.release i).freed j = if j = i then h.freed i + 1 else h.freed j := Function.update_apply _ _ _ _

theorem balanced_empty : (empty : Arena α).Balanced where
  live _ _ hi := nomatch hi
  gone _ hi := absurd hi (Nat.not_lt_zero _)
  fresh _ _ := rfl

theorem Balanced.next_none (hb : h.Balanced) : h.cells h.next = none := by
  cases hc : h.cells h.next with
  | none => rfl
  | some a => exact absurd (hb.live _ a hc).1 (lt_irrefl _)

theorem Balanced.alloc (hb : h.Balanced) (a : α) : (h.alloc a).2.Balanced := by
  constructor
  · intro j b hj
    rw [cells_alloc] at hj
    split_ifs at hj with hnext
    · rw [hnext]
      exact ⟨Nat.lt_succ_self _, hb.fresh _ le_rfl⟩
    · obtain ⟨hlt, hfreed⟩ := hb.live j b hj
      exact ⟨Nat.lt_succ_of_lt hlt, hfreed⟩
  · intro j hlt hj
    rw [cells_alloc] at hj
    split_ifs at hj with hnext
    have hlt' : j < h.next + 1 := hlt
    exact hb.gone j (by omega) hj
  · intro j hle
    exact hb.fresh j (Nat.le_of_succ_le hle)

theorem Balanced.set (hb : h.Balanced) (hi : ∃ b, h.cells i = some b) (a : α) :
    (h.set i a).Balanced := by
  obtain ⟨b, hi⟩ := hi
  constructor
  · intro j c hj
    rw [cells_set] at hj
    split_ifs at hj with he
    · rw [he]
      exact hb.live i b hi
    · exact hb.live j c hj
  · intro j hlt hj
    rw [cells_set] at hj
    split_ifs at hj
    exact hb.gone j hlt hj
  · exact hb.fresh

theorem Balanced.release (hb : h.Balanced) (hi : ∃ b, h.cells i = some b) :
    (h.release i).Balanced := by
  obtain ⟨b, hi⟩ := hi
  obtain ⟨hlt, hzero⟩ := hb.live i b hi
  constructor
  · intro j c hj
    rw [cells_release] at hj
    split_ifs at hj with he
    rw [freed_release, if_neg he]
    exact hb.live j c hj
  · intro j hj hnone
    rw [freed_release]
    rw [cells_release] at hnone
    split_ifs at hnone ⊢ with he
    · rw [hzero]
    · exact hb.gone j hj hnone
  · intro j hle
    have hge : h.next ≤ j := hle
    have hne : j ≠ i := by omega
    rw [freed_release, if_neg hne]
    exact hb.fresh j hle

end Arena
