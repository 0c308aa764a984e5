import Mathlib.Tactic

/-! Open addressing. The entries of a table lie in a ring of cells, and the path of a key
starts at its home and goes round once. Entries that are gone leave a cell that a path must
not stop at. -/

namespace Probing

inductive Cell (ε : Type*) where
  | null
  | corpse
  | entry (e : ε)
  deriving DecidableEq, Repr

variable {ε κ : Type*} {t : List (Cell ε)}

/-- The cell at a position that may have gone round the ring. -/
def cell (t : List (Cell ε)) (p : ℕ) : Cell ε := t.getD (p % t.length) .null

def Cell.isFree : Cell ε → Bool
  | entry _ => false
  | _ => true

def Cell.isKey [DecidableEq κ] (key : ε → κ) (k : κ) : Cell ε → Bool
  | entry e => key e = k
  | _ => false

def Cell.isCorpse : Cell ε → Bool
  | corpse => true
  | _ => false

def Cell.toEntry : Cell ε → Option ε
  | entry e => some e
  | _ => none

theorem cell_mod_add (t : List (Cell ε)) (p i : ℕ) : cell t (p % t.length + i) = cell t (p + i) := by
  simp [cell]

theorem cell_mod (t : List (Cell ε)) (p : ℕ) : cell t (p % t.length) = cell t p := by
  simp [cell]

theorem cell_set {q : ℕ} (hq : q < t.length) (c : Cell ε) (p : ℕ) :
    cell (t.set q c) p = if p % t.length = q then c else cell t p := by
  by_cases hp : p % t.length = q
  · simp [cell, hp, hq]
  · simp [cell, hp, Ne.symm hp]

theorem cell_eq_getElem {q : ℕ} (hq : q < t.length) : cell t q = t[q] := by
  simp [cell, Nat.mod_eq_of_lt hq, hq]

theorem mem_iff_cell {c : Cell ε} : c ∈ t ↔ ∃ q < t.length, cell t q = c := by
  constructor
  · intro hc
    obtain ⟨q, hq, rfl⟩ := List.mem_iff_getElem.mp hc
    exact ⟨q, hq, cell_eq_getElem hq⟩
  · rintro ⟨q, hq, rfl⟩
    rw [cell_eq_getElem hq]
    exact List.getElem_mem hq

theorem exists_offset {n q : ℕ} (hq : q < n) (p : ℕ) : ∃ i < n, (p + i) % n = q := by
  have hp : p % n < n := Nat.mod_lt _ (by omega)
  have hmod : ∀ j, (p + j) % n = (p % n + j) % n := fun j => (Nat.mod_add_mod p n j).symm
  by_cases h : p % n ≤ q
  · refine ⟨q - p % n, by omega, ?_⟩
    rw [hmod, Nat.add_sub_cancel' h, Nat.mod_eq_of_lt hq]
  · refine ⟨q + n - p % n, by omega, ?_⟩
    rw [hmod, Nat.add_sub_cancel' (by omega), Nat.add_mod_right, Nat.mod_eq_of_lt hq]

theorem offset_inj {n p i j : ℕ} (hi : i < n) (hj : j < n) (h : (p + i) % n = (p + j) % n) :
    i = j :=
  Nat.ModEq.eq_of_lt_of_lt (Nat.ModEq.add_left_cancel' p h) hi hj

/-- No key has two entries, and no path has ended before it comes to the entry of its key. -/
structure Chained (key : ε → κ) (home : κ → ℕ) (t : List (Cell ε)) : Prop where
  reach : ∀ q < t.length, ∀ e, cell t q = .entry e → ∃ i < t.length,
    (home (key e) + i) % t.length = q ∧ ∀ j < i, cell t (home (key e) + j) ≠ .null
  inj : ∀ p < t.length, ∀ q < t.length, ∀ d e, cell t p = .entry d → cell t q = .entry e →
    key d = key e → p = q

variable {key : ε → κ} {home : κ → ℕ}

theorem chained_of_null (h : ∀ c ∈ t, c = .null) : Chained key home t := by
  have hcell : ∀ q < t.length, ∀ e, cell t q ≠ .entry e := by
    intro q hq e he
    have hnull := h _ (mem_iff_cell.mpr ⟨q, hq, rfl⟩)
    rw [he] at hnull
    cases hnull
  exact ⟨fun q hq e he => absurd he (hcell q hq e), fun p hp _ _ d _ hd => absurd hd (hcell p hp d)⟩

/-- A cell may lose its entry if no path has to go on behind it: its place is taken by a dead
cell, or the next cell is empty. -/
theorem Chained.free (h : Chained key home t) {q : ℕ} (hq : q < t.length) {c : Cell ε}
    (hc : c.isFree = true) (hnext : c = .null → cell t (q + 1) = .null) :
    Chained key home (t.set q c) := by
  have hset := fun p => cell_set hq c p
  have hcell : ∀ {p d}, cell (t.set q c) p = .entry d → p % t.length ≠ q ∧ cell t p = .entry d := by
    intro p d hd
    rw [hset] at hd
    split_ifs at hd with hp
    · rw [hd] at hc
      cases hc
    · exact ⟨hp, hd⟩
  constructor
  · intro p hlt d hd
    rw [List.length_set] at hlt ⊢
    obtain ⟨hpq, hd⟩ := hcell hd
    obtain ⟨m, hm, hmp, hpath⟩ := h.reach p hlt d hd
    refine ⟨m, hm, hmp, fun j hj => ?_⟩
    rw [hset]
    split_ifs with hjq
    · intro hnull
      have hstep : cell t (home (key d) + (j + 1)) = .null := by
        rw [← hnext hnull, ← hjq, cell_mod_add, add_assoc]
      -- the cell behind `q` is on the path, or it is where the path ends
      by_cases hlast : j + 1 = m
      · rw [hlast, ← cell_mod, hmp, hd] at hstep
        cases hstep
      · exact hpath (j + 1) (by omega) hstep
    · exact hpath j hj
  · intro p hlp p' hlp' d f hd hf hkey
    rw [List.length_set] at hlp hlp'
    exact h.inj p hlp p' hlp' d f (hcell hd).2 (hcell hf).2 hkey

section Path

variable [DecidableEq κ] (key)

def Bound (k : κ) (t : List (Cell ε)) : Prop := ∃ c ∈ t, c.isKey key k = true

instance (k : κ) (t : List (Cell ε)) : Decidable (Bound key k t) :=
  inferInstanceAs (Decidable (∃ c ∈ t, _))

/-- The first `i` cells from `p` on are entries of other keys. -/
def Passes (k : κ) (t : List (Cell ε)) (p i : ℕ) : Prop :=
  ∀ j < i, ∃ e, cell t (p + j) = .entry e ∧ key e ≠ k

/-- A cell at which a search for `k` has to stop. -/
def Stop (k : κ) (c : Cell ε) : Prop := c.isFree = true ∨ c.isKey key k = true

/-- The path passes a dead cell before it comes to the entry of `k`. -/
def Buried (home : κ → ℕ) (k : κ) (t : List (Cell ε)) : Prop :=
  ∃ i < t.length, (cell t (home k + i)).isKey key k = true ∧
    ∃ j < i, (cell t (home k + j)).isCorpse = true

instance (home : κ → ℕ) (k : κ) (t : List (Cell ε)) : Decidable (Buried key home k t) :=
  inferInstanceAs (Decidable (∃ i < t.length, _))

theorem exists_stop (k : κ) (t : List (Cell ε)) (p n : ℕ) :
    ∃ i ≤ n, Passes key k t p i ∧ (i < n → Stop key k (cell t (p + i))) := by
  induction n with
  | zero => exact ⟨0, le_rfl, by simp [Passes], by simp⟩
  | succ n ih =>
    obtain ⟨i, hi, hp, hs⟩ := ih
    by_cases hlt : i < n
    · exact ⟨i, by omega, hp, fun _ => hs hlt⟩
    · obtain rfl : i = n := by omega
      by_cases hstop : Stop key k (cell t (p + i))
      · exact ⟨i, by omega, hp, fun _ => hstop⟩
      · refine ⟨i + 1, le_rfl, ?_, by omega⟩
        intro j hj
        by_cases hlast : j = i
        · rw [hlast]
          cases hc : cell t (p + i) with
          | null => simp [Stop, hc, Cell.isFree] at hstop
          | corpse => simp [Stop, hc, Cell.isFree] at hstop
          | entry e => exact ⟨e, rfl, by simpa [Stop, hc, Cell.isFree, Cell.isKey] using hstop⟩
        · exact hp j (by omega)

variable {key}

theorem isKey_iff {k : κ} {c : Cell ε} : c.isKey key k = true ↔ ∃ e, c = .entry e ∧ key e = k := by
  cases c <;> simp [Cell.isKey]

theorem Passes.not_isKey {k : κ} {p i j : ℕ} (h : Passes key k t p i) (hj : j < i) :
    (cell t (p + j)).isKey key k = false ∧ (cell t (p + j)).isFree = false := by
  obtain ⟨e, he, hne⟩ := h j hj
  simp [he, Cell.isKey, Cell.isFree, hne]

omit [DecidableEq κ] in
theorem Passes.tail {k : κ} {p i : ℕ} (h : Passes key k t p (i + 1)) :
    Passes key k t (p + 1) i := by
  intro j hj
  rw [add_assoc, add_comm 1 j]
  exact h (j + 1) (by omega)

omit [DecidableEq κ] in
/-- A loop that goes on from the entries of other keys gets where they end. -/
theorem Passes.walk {α : Type*} {f : ℕ → ℕ → α} {k : κ}
    (hf : ∀ n pos e, cell t pos = .entry e → key e ≠ k → f (n + 1) pos = f n ((pos + 1) % t.length))
    {p i : ℕ} (h : Passes key k t p i) (n : ℕ) :
    f (n + i) (p % t.length) = f n ((p + i) % t.length) := by
  induction i generalizing p with
  | zero => rfl
  | succ i ih =>
    obtain ⟨e, he, hne⟩ := h 0 (Nat.succ_pos i)
    have hcell : cell t (p % t.length) = .entry e := by rw [cell_mod, ← he, add_zero]
    rw [← add_assoc, hf _ _ e hcell hne, Nat.mod_add_mod, ih h.tail, add_assoc, add_comm 1 i]

/-- With a free cell in the ring every path comes to a stop. -/
theorem Passes.lt_of_free {k : κ} {p i : ℕ} (h : Passes key k t p i) (hi : i ≤ t.length)
    (hfree : ∃ c ∈ t, c.isFree = true) : i < t.length := by
  obtain ⟨c, hc, hcf⟩ := hfree
  obtain ⟨q, hq, rfl⟩ := mem_iff_cell.mp hc
  obtain ⟨j, hj, rfl⟩ := exists_offset hq p
  rw [cell_mod] at hcf
  by_contra hge
  have hno := (h.not_isKey (show j < i by omega)).2
  rw [hno] at hcf
  cases hcf

theorem Bound.of_cell {k : κ} {p : ℕ} (h : (cell t p).isKey key k = true) : Bound key k t := by
  obtain ⟨e, he, _⟩ := isKey_iff.mp h
  refine ⟨cell t p, ?_, h⟩
  by_cases ht : t = []
  · simp [cell, ht] at he
  · have hlt := Nat.mod_lt p (List.length_pos_iff.mpr ht)
    exact mem_iff_cell.mpr ⟨p % t.length, hlt, cell_mod t p⟩

variable {k : κ}

theorem Buried.bound (h : Buried key home k t) : Bound key k t := by
  obtain ⟨i, _, hk, _⟩ := h
  exact Bound.of_cell hk

theorem Chained.index_inj (h : Chained key home t) {i j : ℕ} (hi : i < t.length) (hj : j < t.length)
    (hki : (cell t (home k + i)).isKey key k = true)
    (hkj : (cell t (home k + j)).isKey key k = true) : i = j := by
  obtain ⟨d, hd, rfl⟩ := isKey_iff.mp hki
  obtain ⟨e, he, hkey⟩ := isKey_iff.mp hkj
  have hn : 0 < t.length := by omega
  apply offset_inj hi hj
  exact h.inj _ (Nat.mod_lt _ hn) _ (Nat.mod_lt _ hn) d e ((cell_mod t _).trans hd)
    ((cell_mod t _).trans he) hkey.symm

theorem Chained.exists_index (h : Chained key home t) (hb : Bound key k t) : ∃ i < t.length,
    (cell t (home k + i)).isKey key k = true ∧ ∀ j < i, cell t (home k + j) ≠ .null := by
  obtain ⟨c, hc, hk⟩ := hb
  obtain ⟨q, hq, rfl⟩ := mem_iff_cell.mp hc
  obtain ⟨e, he, rfl⟩ := isKey_iff.mp hk
  obtain ⟨i, hi, rfl, hpath⟩ := h.reach q hq e he
  refine ⟨i, hi, ?_, hpath⟩
  rwa [cell_mod] at hk

theorem Chained.stop_of_bound (h : Chained key home t) (hb : Bound key k t) {i : ℕ}
    (hi : i ≤ t.length) (hp : Passes key k t (home k) i)
    (hs : i < t.length → Stop key k (cell t (home k + i))) :
    i < t.length ∧ if Buried key home k t then cell t (home k + i) = .corpse
      else (cell t (home k + i)).isKey key k = true := by
  obtain ⟨m, hm, hkm, hpath⟩ := h.exists_index hb
  have hle : i ≤ m := by
    by_contra hlt
    rw [(hp.not_isKey (not_le.mp hlt)).1] at hkm
    cases hkm
  have hcell : i < m → cell t (home k + i) = .corpse := by
    intro hlt
    rcases hs (by omega) with hfree | hkey
    · cases hc : cell t (home k + i) with
      | null => exact absurd hc (hpath i hlt)
      | corpse => rfl
      | entry e => simp [hc, Cell.isFree] at hfree
    · exact absurd (h.index_inj (by omega) hm hkey hkm) hlt.ne
  refine ⟨by omega, ?_⟩
  split_ifs with hbur
  · obtain ⟨m', hm', hkm', j, hj, hcorpse⟩ := hbur
    obtain rfl := h.index_inj hm' hm hkm' hkm
    apply hcell
    by_contra hge
    have hno := (hp.not_isKey (show j < i by omega)).2
    cases hc : cell t (home k + j) <;> simp [hc, Cell.isFree, Cell.isCorpse] at hno hcorpse
  · by_cases hlt : i < m
    · exact absurd ⟨m, hm, hkm, i, hlt, by rw [hcell hlt]; rfl⟩ hbur
    · obtain rfl : i = m := by omega
      exact hkm

theorem not_buried (h : ∀ c ∈ t, c.isCorpse = false) : ¬ Buried key home k t := by
  rintro ⟨i, hi, _, j, _, hj⟩
  have hpos : (home k + j) % t.length < t.length := Nat.mod_lt _ (by omega)
  rw [h _ (mem_iff_cell.mpr ⟨_, hpos, cell_mod _ _⟩)] at hj
  cases hj

theorem stop_of_unbound (hb : ¬ Bound key k t) {p : ℕ} (hs : Stop key k (cell t p)) :
    (cell t p).isFree = true :=
  hs.resolve_right fun hk => hb (Bound.of_cell hk)

theorem Chained.store (h : Chained key home t) {e : ε} (hb : ¬ Bound key (key e) t) {i : ℕ}
    (hi : i < t.length) (hp : Passes key (key e) t (home (key e)) i) :
    Chained key home (t.set ((home (key e) + i) % t.length) (.entry e)) := by
  have hn : 0 < t.length := by omega
  have hq : (home (key e) + i) % t.length < t.length := Nat.mod_lt _ hn
  have hset := fun p => cell_set hq (.entry e) p
  have hother : ∀ p d, cell t p = .entry d → key d ≠ key e := by
    intro p d hd hkey
    exact hb (Bound.of_cell (isKey_iff.mpr ⟨d, hd, hkey⟩))
  constructor
  · intro q hlt d hd
    rw [List.length_set] at hlt ⊢
    rw [hset, Nat.mod_eq_of_lt hlt] at hd
    split_ifs at hd with he
    · obtain rfl := Cell.entry.inj hd
      refine ⟨i, hi, he.symm, fun j hj => ?_⟩
      rw [hset]
      split_ifs
      · simp
      · obtain ⟨f, hf, _⟩ := hp j hj
        simp [hf]
    · obtain ⟨m, hm, hmq, hpath⟩ := h.reach q hlt d hd
      refine ⟨m, hm, hmq, fun j hj => ?_⟩
      rw [hset]
      split_ifs
      · simp
      · exact hpath j hj
  · intro p hlp q hlq d f hd hf hkey
    rw [List.length_set] at hlp hlq
    rw [hset, Nat.mod_eq_of_lt hlp] at hd
    rw [hset, Nat.mod_eq_of_lt hlq] at hf
    split_ifs at hd hf with hpe hqe hqe
    · rw [hpe, hqe]
    · obtain rfl := Cell.entry.inj hd
      exact absurd hkey.symm (hother q f hf)
    · obtain rfl := Cell.entry.inj hf
      exact absurd hkey (hother p d hd)
    · exact h.inj p hlp q hlq d f hd hf hkey

theorem entry_mem_set {q : ℕ} (hq : q < t.length) {c : Cell ε} {d : ε} :
    .entry d ∈ t.set q c ↔ c = .entry d ∨ ∃ p < t.length, p ≠ q ∧ cell t p = .entry d := by
  rw [mem_iff_cell, List.length_set]
  constructor
  · rintro ⟨p, hp, hd⟩
    rw [cell_set hq, Nat.mod_eq_of_lt hp] at hd
    split_ifs at hd with he
    · exact Or.inl hd
    · exact Or.inr ⟨p, hp, he, hd⟩
  · rintro (rfl | ⟨p, hp, he, hd⟩)
    · exact ⟨q, hq, by rw [cell_set hq, Nat.mod_eq_of_lt hq, if_pos rfl]⟩
    · exact ⟨p, hp, by rw [cell_set hq, Nat.mod_eq_of_lt hp, if_neg he, hd]⟩

def entries (t : List (Cell ε)) : List ε := t.filterMap Cell.toEntry

theorem mem_entries {e : ε} : e ∈ entries t ↔ .entry e ∈ t := by
  rw [entries, List.mem_filterMap]
  constructor
  · rintro ⟨c, hc, he⟩
    cases c with
    | null => cases he
    | corpse => cases he
    | entry d => rwa [Option.some.inj he] at hc
  · intro he
    exact ⟨.entry e, he, rfl⟩

theorem entries_of_null (h : ∀ c ∈ t, c = .null) : entries t = [] := by
  rw [entries, List.filterMap_eq_nil_iff]
  intro c hc
  rw [h c hc]
  rfl

variable (key) in
/-- What the table holds for a key. -/
def find (k : κ) (t : List (Cell ε)) : Option ε := (entries t).find? (key · = k)

theorem find_eq_none : find key k t = none ↔ ¬ Bound key k t := by
  rw [find, List.find?_eq_none]
  constructor
  · rintro h ⟨c, hc, hk⟩
    obtain ⟨e, rfl, rfl⟩ := isKey_iff.mp hk
    exact h e (mem_entries.mpr hc) (decide_eq_true rfl)
  · intro h e he hk
    exact h ⟨.entry e, mem_entries.mp he, isKey_iff.mpr ⟨e, rfl, of_decide_eq_true hk⟩⟩

theorem find_of_null (h : ∀ c ∈ t, c = .null) (k : κ) : find key k t = none := by
  rw [find, entries_of_null h]
  rfl

theorem Chained.find_eq_some (h : Chained key home t) {e : ε} :
    find key k t = some e ↔ .entry e ∈ t ∧ key e = k := by
  constructor
  · intro he
    have hk := List.find?_some he
    exact ⟨mem_entries.mp (List.mem_of_find?_eq_some he), of_decide_eq_true hk⟩
  · rintro ⟨he, rfl⟩
    cases hf : find key (key e) t with
    | none =>
      exact absurd ⟨.entry e, he, isKey_iff.mpr ⟨e, rfl, rfl⟩⟩ (find_eq_none.mp hf)
    | some d =>
      have hdec := List.find?_some hf
      have hk : key d = key e := of_decide_eq_true hdec
      obtain ⟨p, hp, hd⟩ := mem_iff_cell.mp (mem_entries.mp (List.mem_of_find?_eq_some hf))
      obtain ⟨q, hq, he⟩ := mem_iff_cell.mp he
      rw [h.inj p hp q hq d e hd he hk, he] at hd
      rw [Cell.entry.inj hd]

theorem Chained.find_store (h : Chained key home t) {q : ℕ} {e : ε}
    (h' : Chained key home (t.set q (.entry e))) (hq : q < t.length)
    (hfree : (cell t q).isFree = true) (hb : ¬ Bound key (key e) t) (k : κ) :
    find key k (t.set q (.entry e)) = if k = key e then some e else find key k t := by
  apply Option.ext
  intro d
  rw [h'.find_eq_some, entry_mem_set hq]
  split_ifs with hk
  · rw [hk]
    constructor
    · rintro ⟨he | ⟨p, _, _, hd⟩, hkey⟩
      · rw [Cell.entry.inj he]
      · exact absurd (Bound.of_cell (isKey_iff.mpr ⟨d, hd, hkey⟩)) hb
    · rintro he
      obtain rfl := Option.some.inj he
      exact ⟨Or.inl rfl, rfl⟩
  · rw [h.find_eq_some, mem_iff_cell]
    apply and_congr_left
    rintro rfl
    constructor
    · rintro (he | ⟨p, hp, _, hd⟩)
      · exact absurd (congrArg key (Cell.entry.inj he)).symm hk
      · exact ⟨p, hp, hd⟩
    · rintro ⟨p, hp, hd⟩
      refine Or.inr ⟨p, hp, ?_, hd⟩
      rintro rfl
      simp [hd, Cell.isFree] at hfree

theorem Chained.find_free (h : Chained key home t) {q : ℕ} {c : Cell ε}
    (h' : Chained key home (t.set q c)) (hq : q < t.length) (hc : c.isFree = true) (k : κ) :
    find key k (t.set q c) = if (cell t q).isKey key k then none else find key k t := by
  apply Option.ext
  intro d
  have hne : c ≠ .entry d := by
    rintro rfl
    cases hc
  rw [h'.find_eq_some, entry_mem_set hq]
  split_ifs with hk
  · obtain ⟨e, he, rfl⟩ := isKey_iff.mp hk
    constructor
    · rintro ⟨hd | ⟨p, hp, hpq, hd⟩, hkey⟩
      · exact absurd hd hne
      · exact absurd (h.inj p hp q hq d e hd he hkey) hpq
    · intro hd
      cases hd
  · rw [h.find_eq_some, mem_iff_cell]
    apply and_congr_left
    intro hkey
    constructor
    · rintro (hd | ⟨p, hp, _, hd⟩)
      · exact absurd hd hne
      · exact ⟨p, hp, hd⟩
    · rintro ⟨p, hp, hd⟩
      refine Or.inr ⟨p, hp, ?_, hd⟩
      rintro rfl
      exact hk (isKey_iff.mpr ⟨d, hd, hkey⟩)

end Path

theorem Chained.pairwise_keys (h : Chained key home t) :
    (entries t).Pairwise fun d e => key d ≠ key e := by
  rw [entries, List.pairwise_filterMap, List.pairwise_iff_getElem]
  intro p q hp hq hlt d hd e he hkey
  have hcell : ∀ {r : ℕ} (hr : r < t.length) {f : ε}, (t[r]).toEntry = some f →
      cell t r = .entry f := by
    intro r hr f hf
    rw [cell_eq_getElem hr]
    cases hc : t[r] with
    | null => simp [hc, Cell.toEntry] at hf
    | corpse => simp [hc, Cell.toEntry] at hf
    | entry g => simpa [hc, Cell.toEntry] using hf
  exact absurd (h.inj p hp q hq d e (hcell hp hd) (hcell hq he) hkey) hlt.ne

theorem exists_free (h : (entries t).length < t.length) : ∃ c ∈ t, c.isFree = true := by
  by_contra hall
  have hlen : (entries t).length = t.length := by
    rw [entries, List.length_filterMap_eq_countP, List.countP_eq_length]
    intro c hc
    cases c with
    | null => exact absurd ⟨.null, hc, rfl⟩ hall
    | corpse => exact absurd ⟨.corpse, hc, rfl⟩ hall
    | entry e => rfl
  omega

/-- Only the cell that is set counts for the difference. -/
theorem length_entries_set {q : ℕ} (hq : q < t.length) (c : Cell ε) :
    (entries (t.set q c)).length + (if (cell t q).isFree then 0 else 1) =
      (entries t).length + if c.isFree then 0 else 1 := by
  have hsome : ∀ d : Cell ε, d.toEntry.isSome = !d.isFree := by
    intro d
    cases d <;> rfl
  have hcell : (cell t q).isFree = false → 0 < t.countP fun d => !d.isFree := by
    intro hfull
    rw [List.countP_pos_iff]
    exact ⟨cell t q, mem_iff_cell.mpr ⟨q, hq, rfl⟩, by rw [hfull]; rfl⟩
  simp only [entries, List.length_filterMap_eq_countP, hsome]
  rw [List.countP_set hq, ← cell_eq_getElem hq]
  cases hold : (cell t q).isFree with
  | true => cases c.isFree <;> simp
  | false =>
    have hpos := hcell hold
    cases c.isFree <;> simp <;> omega

theorem length_entries_store {q : ℕ} (hq : q < t.length) (hfree : (cell t q).isFree = true) (e : ε) :
    (entries (t.set q (.entry e))).length = (entries t).length + 1 := by
  have hset := length_entries_set hq (.entry e)
  rwa [hfree] at hset

end Probing
