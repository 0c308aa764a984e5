import Mathlib.Tactic

/-! Incremental decoding of a byte stream that arrives in pieces. A decoder that
never changes its mind when more input arrives delivers the same values however
the stream is cut. -/

namespace Reassembly

variable {β γ : Type*}

/-- `next` reports the length and the value of a complete item at the head of the buffer. -/
structure Decoder (β γ : Type*) where
  next : List β → Option (ℕ × γ)
  pos : ∀ {b n v}, next b = some (n, v) → 0 < n
  le : ∀ {b n v}, next b = some (n, v) → n ≤ b.length
  take : ∀ {b n v}, next b = some (n, v) → next (b.take n) = some (n, v)
  stable : ∀ {b n v}, next b = some (n, v) → ∀ c, next (b ++ c) = some (n, v)

namespace Decoder

variable (D : Decoder β γ)

/-- Items are taken off the head until none is complete. -/
def drain (b : List β) : List γ × List β :=
  match _h : D.next b with
  | none => ([], b)
  | some (n, v) =>
    let r := drain (b.drop n)
    (v :: r.1, r.2)
termination_by b.length
decreasing_by
  have := D.pos _h
  have := D.le _h
  simp only [List.length_drop]
  omega

/-- The pieces arrive one by one and are appended to what was left over. -/
def feed : List (List β) → List β → List γ × List β
  | [], b => ([], b)
  | c :: cs, b =>
    let r := D.drain (b ++ c)
    let q := feed cs r.2
    (r.1 ++ q.1, q.2)

variable {D}

theorem drain_none {b : List β} (h : D.next b = none) : D.drain b = ([], b) := by
  rw [drain]
  split <;> simp_all

theorem drain_some {b : List β} {n : ℕ} {v : γ} (h : D.next b = some (n, v)) :
    D.drain b = (v :: (D.drain (b.drop n)).1, (D.drain (b.drop n)).2) := by
  rw [drain]
  split
  · simp_all
  · next m w hm =>
    obtain ⟨rfl, rfl⟩ : m = n ∧ w = v := by simpa [h, eq_comm] using hm
    rfl

theorem induct {P : List β → Prop} (hnone : ∀ b, D.next b = none → P b)
    (hsome : ∀ b n v, D.next b = some (n, v) → P (b.drop n) → P b) (b : List β) : P b := by
  induction hl : b.length using Nat.strong_induction_on generalizing b with
  | _ l ih =>
    cases h : D.next b with
    | none => exact hnone b h
    | some r =>
      obtain ⟨n, v⟩ := r
      have hp := D.pos h
      have hle := D.le h
      exact hsome b n v h (ih (b.drop n).length (by simp only [List.length_drop]; omega) _ rfl)

theorem next_drain (b : List β) : D.next (D.drain b).2 = none := by
  induction b using D.induct with
  | hnone b h => simp [drain_none h, h]
  | hsome b n v h ih => simpa only [drain_some h] using ih

theorem drain_append (b c : List β) :
    D.drain (b ++ c) =
      ((D.drain b).1 ++ (D.drain ((D.drain b).2 ++ c)).1, (D.drain ((D.drain b).2 ++ c)).2) := by
  induction b using D.induct with
  | hnone b h => simp [drain_none h]
  | hsome b n v h ih =>
    have hd : (b ++ c).drop n = b.drop n ++ c := by
      rw [List.drop_append_of_le_length (D.le h)]
    rw [drain_some (D.stable h c), hd, ih, drain_some h]
    rfl

theorem feed_eq_drain (cs : List (List β)) (b : List β) (hb : D.next b = none) :
    D.feed cs b = D.drain (b ++ cs.flatten) := by
  induction cs generalizing b with
  | nil => simp [feed, drain_none hb]
  | cons c cs ih =>
    have hsplit := drain_append (D := D) (b ++ c) cs.flatten
    rw [List.flatten_cons, ← List.append_assoc, hsplit, feed, ih _ (next_drain _)]

theorem drain_flatten {items : List (List β)} {vs : List γ}
    (h : List.Forall₂ (fun i v => D.next i = some (i.length, v)) items vs) (c : List β) :
    D.drain (items.flatten ++ c) = (vs ++ (D.drain c).1, (D.drain c).2) := by
  induction h with
  | nil => rfl
  | @cons i v items vs hi _ ih =>
    have hd : (i ++ (items.flatten ++ c)).drop i.length = items.flatten ++ c :=
      List.drop_left' rfl
    rw [List.flatten_cons, List.append_assoc, drain_some (D.stable hi _), hd, ih]
    rfl

theorem drain_items (b : List β) : ∃ items : List (List β),
    b = items.flatten ++ (D.drain b).2 ∧
    List.Forall₂ (fun i v => D.next i = some (i.length, v)) items (D.drain b).1 := by
  induction b using D.induct with
  | hnone b h => exact ⟨[], by simp [drain_none h], by simp [drain_none h]⟩
  | hsome b n v h ih =>
    obtain ⟨items, he, hf⟩ := ih
    have hlen : (b.take n).length = n := List.length_take_of_le (D.le h)
    rw [drain_some h]
    refine ⟨b.take n :: items, ?_, .cons (by rw [hlen]; exact D.take h) hf⟩
    rw [List.flatten_cons, List.append_assoc, ← he, List.take_append_drop]

end Decoder

theorem items_map {P : List β → Prop} {f : List β → γ} {items : List (List β)} {vs : List γ}
    (h : List.Forall₂ (fun i v => P i ∧ v = f i) items vs) :
    (∀ i ∈ items, P i) ∧ vs = items.map f := by
  induction h with
  | nil => simp
  | cons hi _ ih => exact ⟨List.forall_mem_cons.mpr ⟨hi.1, ih.1⟩, by rw [hi.2, ih.2, List.map_cons]⟩

end Reassembly
