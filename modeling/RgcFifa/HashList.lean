import RgcFifa.Lib.Probing

/-! `HashList`, a table with open addressing. `delete` leaves a corpse behind unless the next
cell is empty, and a full enough table is replaced by a larger one. -/

namespace RgcFifa

open Probing

/-- The two hash functions, for keys whose hashes are not negative. -/
structure Hasher (K : Type*) where
  doHash1 : K → ℕ
  doHash2 : K → ℕ

structure HashEntry (K V : Type*) where
  hash : ℕ
  key : K
  value : V
  deriving DecidableEq, Repr

/-- `_capacity` is the length of `entryList`; no list has been allocated when it is 0. -/
structure HashList (K V : Type*) where
  entryList : List (Cell (HashEntry K V))
  count : ℤ
  deriving DecidableEq, Repr

/-- The result of an operation on `int`, undefined when it overflows. -/
def toInt (x : ℤ) : Option ℤ := if -2 ^ 31 ≤ x ∧ x < 2 ^ 31 then some x else none

def stepSize : List ℕ :=
  [17, 37, 79, 163, 331, 673, 1361, 2729, 5471, 10949, 21911, 43853, 87719, 175447, 350899, 701819,
    1403641, 2807303, 5614657, 11229331, 22458671, 44917381, 89834777, 179669557, 359339171,
    718678369, 1437356741, 2147483647]

namespace HashList

variable {K V : Type*}

def empty : HashList K V := ⟨[], 0⟩

abbrev capacity (l : HashList K V) : ℕ := l.entryList.length

section Ops

variable [DecidableEq K]

/-- The loop that `remove` and `take` share, for `n` more rounds. -/
def search (hash : ℕ) (key : K) (l : HashList K V) : ℕ → ℕ → Option (ℕ × HashEntry K V)
  | 0, _ => none
  | n + 1, pos =>
    match cell l.entryList pos with
    | .null => none
    -- `continue` leaves `pos` as it is
    | .corpse => search hash key l n pos
    | .entry entry =>
        if entry.hash = hash ∧ entry.key = key then some (pos, entry)
        else search hash key l n ((pos + 1) % l.capacity)

/-- `-- pos`, and round the ring from 0. -/
def before (capacity pos : ℕ) : ℕ := if pos = 0 then capacity - 1 else pos - 1

/-- The loop over the corpses that end before an empty cell. -/
def clean (entryList : List (Cell (HashEntry K V))) : ℕ → ℕ → List (Cell (HashEntry K V))
  | 0, _ => entryList
  | n + 1, pos =>
    match cell entryList pos with
    | .corpse => clean (entryList.set pos .null) n (before entryList.length pos)
    | _ => entryList

/-- What `remove` and `take` leave of a deleted entry. -/
def unlink (pos : ℕ) (entryList : List (Cell (HashEntry K V))) : List (Cell (HashEntry K V)) :=
  match cell entryList ((pos + 1) % entryList.length) with
  | .null => clean (entryList.set pos .null) entryList.length (before entryList.length pos)
  | _ => entryList.set pos .corpse

/-- Undefined on a list that has not been allocated, by `hash % _capacity`. -/
def remove (H : Hasher K) (key : K) (l : HashList K V) : Option (Bool × HashList K V) :=
  let hash := H.doHash2 key
  if l.capacity = 0 then none
  else
    match l.search hash key l.capacity (hash % l.capacity) with
    | none => some (false, l)
    | some (pos, _) => (toInt (l.count - 1)).map fun count =>
        (true, ⟨unlink pos l.entryList, count⟩)

/-- The count goes down twice. -/
def take (H : Hasher K) (key : K) (remove : Bool) (l : HashList K V) :
    Option (Option V × HashList K V) :=
  let hash := H.doHash2 key
  if l.capacity = 0 then none
  else
    match l.search hash key l.capacity (hash % l.capacity) with
    | none => some (none, l)
    | some (pos, entry) =>
        if remove then
          (toInt (l.count - 1)).bind fun count => (toInt (count - 1)).map fun count =>
            (some entry.value, ⟨unlink pos l.entryList, count⟩)
        else some (some entry.value, l)

def insertLoop (ent : HashEntry K V) (l : HashList K V) : ℕ → ℕ → Bool × HashList K V
  | 0, _ => (false, l)
  | n + 1, pos =>
    match cell l.entryList pos with
    | .entry entry =>
        if entry.hash = ent.hash ∧ entry.key = ent.key then (false, l)
        else insertLoop ent l n ((pos + 1) % l.capacity)
    | _ => (true, ⟨l.entryList.set pos (.entry ent), l.count + 1⟩)

def insertInternal (ent : HashEntry K V) (l : HashList K V) : Bool × HashList K V :=
  l.insertLoop ent l.capacity (ent.hash % l.capacity)

/-- The new list of `checkupSpace`, with the old entries in their order. -/
def rehash (capacity : ℕ) (l : HashList K V) : HashList K V :=
  (entries l.entryList).foldl (fun new entry => (new.insertInternal entry).2)
    ⟨List.replicate capacity .null, 0⟩

/-- Undefined when there is no larger step. -/
def checkupSpace (l : HashList K V) : Option (HashList K V) :=
  (toInt (l.count + l.count >>> (2 : ℕ))).bind fun space =>
    if space ≥ l.capacity then
      (stepSize.find? (l.capacity < ·)).map fun capacity => l.rehash capacity
    else some l

def insert (H : Hasher K) (key : K) (value : V) (l : HashList K V) :
    Option (Bool × HashList K V) :=
  l.checkupSpace.map fun l => l.insertInternal ⟨H.doHash2 key, key, value⟩

/-- The count stays. -/
def reset (l : HashList K V) : HashList K V := ⟨l.entryList.map fun _ => .null, l.count⟩

/-- The value that the list binds to a key. -/
def get (key : K) (l : HashList K V) : Option V :=
  (find HashEntry.key key l.entryList).map HashEntry.value

abbrev Binds (key : K) (l : HashList K V) : Prop := Bound HashEntry.key key l.entryList

/-- There is a corpse on the way to the entry of the key. -/
abbrev Blocked (H : Hasher K) (key : K) (l : HashList K V) : Prop :=
  Buried HashEntry.key H.doHash2 key l.entryList

/-- There is a larger step if the list is to grow; otherwise the way to the key is free, and for
a key that is not bound there is a cell. -/
def InsertOk (H : Hasher K) (key : K) (l : HashList K V) : Prop :=
  (toInt (l.count + l.count >>> (2 : ℕ))).isSome ∧
    if l.count + l.count >>> (2 : ℕ) ≥ l.capacity then ∃ capacity ∈ stepSize, l.capacity < capacity
    else ¬ l.Blocked H key ∧ (¬ l.Binds key → ∃ c ∈ l.entryList, c.isFree = true)

def RemoveOk (H : Hasher K) (key : K) (l : HashList K V) : Prop :=
  l.capacity ≠ 0 ∧ ¬ l.Blocked H key ∧ (l.Binds key → (toInt (l.count - 1)).isSome)

def TakeOk (H : Hasher K) (key : K) (remove : Bool) (l : HashList K V) : Prop :=
  l.capacity ≠ 0 ∧ ¬ l.Blocked H key ∧
    (remove = true → l.Binds key → ((toInt (l.count - 1)).bind fun count =>
      toInt (count - 1)).isSome)

instance (H : Hasher K) (key : K) (l : HashList K V) : Decidable (l.InsertOk H key) := by
  unfold InsertOk
  infer_instance

instance (H : Hasher K) (key : K) (l : HashList K V) : Decidable (l.RemoveOk H key) := by
  unfold RemoveOk
  infer_instance

instance (H : Hasher K) (key : K) (remove : Bool) (l : HashList K V) :
    Decidable (l.TakeOk H key remove) := by
  unfold TakeOk
  infer_instance

end Ops

/-- Allocated lists have a place for every entry on its path, with the hash of its key. -/
structure Inv (H : Hasher K) (l : HashList K V) : Prop where
  chained : Chained HashEntry.key H.doHash2 l.entryList
  hash : ∀ e, .entry e ∈ l.entryList → e.hash = H.doHash2 e.key
  empty : l.capacity = 0 → l.count = 0

variable {H : Hasher K} {l : HashList K V} {t : List (Cell (HashEntry K V))} {key : K}

theorem inv_of_null (H : Hasher K) (ht : ∀ c ∈ t, c = .null) {count : ℤ}
    (hcount : t.length = 0 → count = 0) : Inv H ⟨t, count⟩ :=
  ⟨chained_of_null ht, fun _ he => absurd (ht _ he) (by simp), hcount⟩

theorem inv_empty (H : Hasher K) : (empty : HashList K V).Inv H :=
  inv_of_null H (by simp) (fun _ => rfl)

theorem before_lt {n pos : ℕ} (h : pos < n) : before n pos < n := by
  unfold before
  split_ifs <;> omega

theorem before_lt_set {pos : ℕ} (h : pos < t.length) (c : Cell (HashEntry K V)) :
    before t.length pos < (t.set pos c).length := by
  rw [List.length_set]
  exact before_lt h

theorem cell_before_set {pos : ℕ} (h : pos < t.length) (c : Cell (HashEntry K V)) :
    cell (t.set pos c) (before t.length pos + 1) = c := by
  have hmod : (before t.length pos + 1) % t.length = pos := by
    unfold before
    split_ifs with h0
    · rw [h0, Nat.sub_add_cancel (by omega), Nat.mod_self]
    · rw [Nat.sub_add_cancel (Nat.pos_of_ne_zero h0), Nat.mod_eq_of_lt h]
  rw [cell_set h, if_pos hmod]

theorem clean_corpse {n pos : ℕ} (hc : cell t pos = .corpse) :
    clean t (n + 1) pos = clean (t.set pos .null) n (before t.length pos) := by
  rw [clean, hc]

theorem clean_stop (n : ℕ) {pos : ℕ} (hc : cell t pos ≠ .corpse) : clean t n pos = t := by
  cases n with
  | zero => rfl
  | succ n =>
    rw [clean]
    split
    · contradiction
    · rfl

/-- With `n + 1` rounds `clean` does what it does with `n`, when there are no more corpses: it
never ends for want of rounds. -/
theorem clean_succ {n pos : ℕ} (hpos : pos < t.length) (h : t.countP Cell.isCorpse ≤ n) :
    clean t (n + 1) pos = clean t n pos := by
  induction n generalizing t pos with
  | zero =>
    have hno := List.countP_eq_zero.mp (Nat.le_zero.mp h) _ (List.getElem_mem hpos)
    rw [← cell_eq_getElem hpos] at hno
    apply clean_stop
    intro hc
    rw [hc] at hno
    exact hno rfl
  | succ n ih =>
    by_cases hc : cell t pos = .corpse
    · have hcorpse : t[pos].isCorpse = true := by
        rw [← cell_eq_getElem hpos, hc]
        rfl
      have hless : (t.set pos .null).countP Cell.isCorpse ≤ n := by
        rw [List.countP_set hpos, if_pos hcorpse]
        simp only [Cell.isCorpse, Bool.false_eq_true, if_false]
        omega
      rw [clean_corpse hc, clean_corpse hc]
      exact ih (before_lt_set hpos .null) hless
    · rw [clean_stop _ hc, clean_stop _ hc]

/-- Clearing corpses from the end of their run takes nothing from any path. -/
theorem clean_spec [DecidableEq K] (h : Chained HashEntry.key H.doHash2 t) (n : ℕ) {pos : ℕ}
    (hpos : pos < t.length) (hnext : cell t (pos + 1) = .null) :
    Chained HashEntry.key H.doHash2 (clean t n pos) ∧ (clean t n pos).length = t.length ∧
      ∀ k, find HashEntry.key k (clean t n pos) = find HashEntry.key k t := by
  induction n generalizing t pos with
  | zero => exact ⟨h, rfl, fun _ => rfl⟩
  | succ n ih =>
    by_cases hc : cell t pos = .corpse
    · have hset := h.free hpos (c := .null) rfl (fun _ => hnext)
      obtain ⟨hchained, hlen, hfind⟩ :=
        ih hset (before_lt_set hpos .null) (cell_before_set hpos .null)
      have hkey : ∀ k, (cell t pos).isKey HashEntry.key k = false := fun k => by rw [hc]; rfl
      rw [clean_corpse hc]
      refine ⟨hchained, by rw [hlen, List.length_set], fun k => ?_⟩
      rw [hfind, h.find_free hset hpos rfl, hkey, if_neg Bool.false_ne_true]
    · rw [clean_stop _ hc]
      exact ⟨h, rfl, fun _ => rfl⟩

/-- The entry goes, and every other entry is found as before. -/
theorem unlink_spec [DecidableEq K] (h : Chained HashEntry.key H.doHash2 t) {pos : ℕ}
    {e : HashEntry K V} (hpos : pos < t.length) (he : cell t pos = .entry e) :
    Chained HashEntry.key H.doHash2 (unlink pos t) ∧ (unlink pos t).length = t.length ∧
      ∀ k, find HashEntry.key k (unlink pos t) =
        if k = e.key then none else find HashEntry.key k t := by
  have hkey : ∀ k, (cell t pos).isKey HashEntry.key k = decide (k = e.key) := fun k => by
    rw [he]
    exact decide_eq_decide.mpr eq_comm
  have hgone : ∀ {c : Cell (HashEntry K V)}, Chained HashEntry.key H.doHash2 (t.set pos c) →
      c.isFree = true → ∀ k, find HashEntry.key k (t.set pos c) =
        if k = e.key then none else find HashEntry.key k t := by
    intro c hc hfree k
    rw [h.find_free hc hpos hfree, hkey]
    simp only [decide_eq_true_eq]
  have hnext : cell t ((pos + 1) % t.length) = cell t (pos + 1) := cell_mod t _
  unfold unlink
  split
  · rename_i hnull
    rw [hnext] at hnull
    have hset := h.free hpos (c := .null) rfl (fun _ => hnull)
    obtain ⟨hchained, hlen, hfind⟩ :=
      clean_spec hset t.length (before_lt_set hpos .null) (cell_before_set hpos .null)
    refine ⟨hchained, by rw [hlen, List.length_set], fun k => ?_⟩
    rw [hfind, hgone hset rfl]
  · have hset := h.free hpos (c := .corpse) rfl (fun hn => by cases hn)
    exact ⟨hset, List.length_set, hgone hset rfl⟩

section Probe

variable [DecidableEq K]

theorem search_other (hash n : ℕ) {pos : ℕ} {e : HashEntry K V} (he : cell l.entryList pos = .entry e)
    (hne : e.key ≠ key) :
    l.search hash key (n + 1) pos = l.search hash key n ((pos + 1) % l.capacity) := by
  rw [search, he]
  exact if_neg fun hh => hne hh.2

/-- Nothing is found behind an empty cell, and at a corpse the search stays where it is. -/
theorem search_free (hash : ℕ) (n : ℕ) {pos : ℕ} (h : (cell l.entryList pos).isFree = true) :
    l.search hash key n pos = none := by
  induction n with
  | zero => rfl
  | succ n ih =>
    cases hc : cell l.entryList pos with
    | null => rw [search, hc]
    | corpse => rw [search, hc, ih]
    | entry e => simp [hc, Cell.isFree] at h

theorem Inv.search_found (h : l.Inv H) (hb : Bound HashEntry.key key l.entryList)
    (hclear : ¬ Buried HashEntry.key H.doHash2 key l.entryList) :
    ∃ q e, l.search (H.doHash2 key) key l.capacity (H.doHash2 key % l.capacity) = some (q, e) ∧
      q < l.capacity ∧ cell l.entryList q = .entry e ∧ e.key = key := by
  obtain ⟨i, hi, hp, hs⟩ := exists_stop HashEntry.key key l.entryList (H.doHash2 key) l.capacity
  obtain ⟨hstop, hcell⟩ := h.chained.stop_of_bound hb hi hp hs
  have hlt : i < l.capacity := hstop
  rw [if_neg hclear] at hcell
  obtain ⟨e, he, hkey⟩ := isKey_iff.mp hcell
  have hpos : (H.doHash2 key + i) % l.capacity < l.capacity := Nat.mod_lt _ (by omega)
  have hc : cell l.entryList ((H.doHash2 key + i) % l.capacity) = .entry e := by rw [cell_mod, he]
  have hmem : .entry e ∈ l.entryList := mem_iff_cell.mpr ⟨_, hpos, hc⟩
  have hmatch : e.hash = H.doHash2 key ∧ e.key = key := ⟨by rw [h.hash e hmem, hkey], hkey⟩
  refine ⟨_, e, ?_, hpos, hc, hkey⟩
  obtain ⟨n, hn⟩ : ∃ n, l.capacity = n + 1 + i := ⟨l.capacity - i - 1, by omega⟩
  have hwalk := hp.walk (fun n _ _ => search_other (H.doHash2 key) n) (n + 1)
  rw [← hn] at hwalk
  rw [hwalk, search, hc]
  exact if_pos hmatch

theorem Inv.search_none (h : l.Inv H) (hb : Bound HashEntry.key key l.entryList →
    Buried HashEntry.key H.doHash2 key l.entryList) :
    l.search (H.doHash2 key) key l.capacity (H.doHash2 key % l.capacity) = none := by
  obtain ⟨i, hi, hp, hs⟩ := exists_stop HashEntry.key key l.entryList (H.doHash2 key) l.capacity
  have hwalk := hp.walk (fun n _ _ => search_other (H.doHash2 key) n) (l.capacity - i)
  rw [Nat.sub_add_cancel hi] at hwalk
  rw [hwalk]
  by_cases hbound : Bound HashEntry.key key l.entryList
  · have hcell := (h.chained.stop_of_bound hbound hi hp hs).2
    rw [if_pos (hb hbound)] at hcell
    apply search_free
    rw [cell_mod, hcell]
    rfl
  · by_cases hlt : i < l.capacity
    · apply search_free
      rw [cell_mod]
      exact stop_of_unbound hbound (hs hlt)
    · rw [show l.capacity - i = 0 by omega]
      rfl

theorem insertLoop_other {ent : HashEntry K V} (n : ℕ) {pos : ℕ} {e : HashEntry K V}
    (he : cell l.entryList pos = .entry e) (hne : e.key ≠ ent.key) :
    l.insertLoop ent (n + 1) pos = l.insertLoop ent n ((pos + 1) % l.capacity) := by
  rw [insertLoop, he]
  exact if_neg fun hh => hne hh.2

/-- Where the loop of `insertInternal` stops, it stores at a free cell and fails at the key. -/
theorem Inv.insertInternal_stop (h : l.Inv H) {ent : HashEntry K V}
    (hent : ent.hash = H.doHash2 ent.key) {i : ℕ} (hlt : i < l.capacity)
    (hp : Passes HashEntry.key ent.key l.entryList (H.doHash2 ent.key) i)
    (hs : Stop HashEntry.key ent.key (cell l.entryList (H.doHash2 ent.key + i))) :
    l.insertInternal ent = if (cell l.entryList (H.doHash2 ent.key + i)).isFree then
      (true, ⟨l.entryList.set ((H.doHash2 ent.key + i) % l.capacity) (.entry ent), l.count + 1⟩)
      else (false, l) := by
  obtain ⟨n, hn⟩ : ∃ n, l.capacity = n + 1 + i := ⟨l.capacity - i - 1, by omega⟩
  have hwalk := hp.walk (fun n _ _ => insertLoop_other n) (n + 1)
  rw [← hn] at hwalk
  rw [insertInternal, hent, hwalk, insertLoop, cell_mod]
  cases hc : cell l.entryList (H.doHash2 ent.key + i) with
  | null => rfl
  | corpse => rfl
  | entry e =>
    rw [hc] at hs
    have hkey : e.key = ent.key := by simpa [Stop, Cell.isFree, Cell.isKey] using hs
    have hmem : .entry e ∈ l.entryList := by
      have hpos : (H.doHash2 ent.key + i) % l.capacity < l.capacity := Nat.mod_lt _ (by omega)
      exact mem_iff_cell.mpr ⟨_, hpos, by rw [cell_mod, hc]⟩
    have hhash : e.hash = ent.hash := by rw [h.hash e hmem, hent, hkey]
    simp [hkey, hhash, Cell.isFree]

theorem insertInternal_full {ent : HashEntry K V} (hent : ent.hash = H.doHash2 ent.key)
    (hp : Passes HashEntry.key ent.key l.entryList (H.doHash2 ent.key) l.capacity) :
    l.insertInternal ent = (false, l) := by
  have hwalk := hp.walk (fun n _ _ => insertLoop_other (l := l) n) 0
  rw [Nat.zero_add] at hwalk
  rw [insertInternal, hent, hwalk]
  rfl

/-- The key is new and there is a free cell. -/
theorem Inv.insertInternal_new (h : l.Inv H) {ent : HashEntry K V}
    (hent : ent.hash = H.doHash2 ent.key) (hb : ¬ Bound HashEntry.key ent.key l.entryList)
    (hfree : ∃ c ∈ l.entryList, c.isFree = true) :
    ∃ l', l.insertInternal ent = (true, l') ∧ l'.Inv H ∧ l'.capacity = l.capacity ∧
      (entries l'.entryList).length = (entries l.entryList).length + 1 ∧
      (∀ c ∈ l'.entryList, c ∈ l.entryList ∨ c.isCorpse = false) ∧
      ∀ k, find HashEntry.key k l'.entryList =
        if k = ent.key then some ent else find HashEntry.key k l.entryList := by
  obtain ⟨i, hi, hp, hs⟩ :=
    exists_stop HashEntry.key ent.key l.entryList (H.doHash2 ent.key) l.capacity
  have hlt : i < l.capacity := hp.lt_of_free hi hfree
  have hcell := stop_of_unbound hb (hs hlt)
  have hpos : (H.doHash2 ent.key + i) % l.capacity < l.capacity := Nat.mod_lt _ (by omega)
  have hchained := h.chained.store hb hlt hp
  have hcell' : (cell l.entryList ((H.doHash2 ent.key + i) % l.capacity)).isFree = true := by
    rwa [cell_mod]
  refine ⟨_, by rw [h.insertInternal_stop hent hlt hp (hs hlt), if_pos hcell], ⟨hchained, ?_, ?_⟩,
    List.length_set, length_entries_store hpos hcell' ent, ?_, ?_⟩
  · intro e he
    rcases (entry_mem_set hpos).mp he with he | ⟨q, hq, _, he⟩
    · rw [← Cell.entry.inj he, hent]
    · exact h.hash e (mem_iff_cell.mpr ⟨q, hq, he⟩)
  · intro hzero
    have hlen : (l.entryList.set ((H.doHash2 ent.key + i) % l.capacity) (.entry ent)).length =
      l.capacity := List.length_set
    exact absurd (hlen.symm.trans hzero) (Nat.ne_of_gt (Nat.zero_lt_of_lt hlt))
  · intro c hc
    rcases List.mem_or_eq_of_mem_set hc with hc | rfl
    · exact Or.inl hc
    · exact Or.inr rfl
  · exact h.chained.find_store hchained hpos hcell' hb

theorem Inv.insertInternal_bound (h : l.Inv H) {ent : HashEntry K V}
    (hent : ent.hash = H.doHash2 ent.key) (hb : Bound HashEntry.key ent.key l.entryList)
    (hclear : ¬ Buried HashEntry.key H.doHash2 ent.key l.entryList) :
    l.insertInternal ent = (false, l) := by
  obtain ⟨i, hi, hp, hs⟩ :=
    exists_stop HashEntry.key ent.key l.entryList (H.doHash2 ent.key) l.capacity
  obtain ⟨hlt, hcell⟩ := h.chained.stop_of_bound hb hi hp hs
  rw [if_neg hclear] at hcell
  obtain ⟨e, he, _⟩ := isKey_iff.mp hcell
  rw [h.insertInternal_stop hent hlt hp (hs hlt), he]
  exact if_neg Bool.false_ne_true

/-- The duplicate goes where the corpse is. -/
theorem Inv.insertInternal_buried (h : l.Inv H) {ent : HashEntry K V}
    (hent : ent.hash = H.doHash2 ent.key)
    (hbur : Buried HashEntry.key H.doHash2 ent.key l.entryList) :
    (l.insertInternal ent).1 = true := by
  obtain ⟨i, hi, hp, hs⟩ :=
    exists_stop HashEntry.key ent.key l.entryList (H.doHash2 ent.key) l.capacity
  obtain ⟨hlt, hcell⟩ := h.chained.stop_of_bound hbur.bound hi hp hs
  rw [if_pos hbur] at hcell
  rw [h.insertInternal_stop hent hlt hp (hs hlt), hcell]
  rfl

theorem insertInternal_no_free {ent : HashEntry K V} (hent : ent.hash = H.doHash2 ent.key)
    (hb : ¬ Bound HashEntry.key ent.key l.entryList)
    (hfull : ¬ ∃ c ∈ l.entryList, c.isFree = true) : l.insertInternal ent = (false, l) := by
  obtain ⟨i, hi, hp, hs⟩ :=
    exists_stop HashEntry.key ent.key l.entryList (H.doHash2 ent.key) l.capacity
  by_cases hlt : i < l.capacity
  · have hcell := stop_of_unbound hb (hs hlt)
    have hpos : (H.doHash2 ent.key + i) % l.capacity < l.capacity := Nat.mod_lt _ (by omega)
    exact absurd ⟨_, mem_iff_cell.mpr ⟨_, hpos, cell_mod _ _⟩, hcell⟩ hfull
  · obtain rfl : i = l.capacity := by omega
    exact insertInternal_full hent hp

theorem Inv.foldl_insertInternal {es : List (HashEntry K V)} (h : l.Inv H)
    (hhash : ∀ e ∈ es, e.hash = H.doHash2 e.key)
    (hkeys : es.Pairwise fun d e => d.key ≠ e.key)
    (hnew : ∀ e ∈ es, find HashEntry.key e.key l.entryList = none)
    (hroom : (entries l.entryList).length + es.length ≤ l.capacity)
    (hclean : ∀ c ∈ l.entryList, c.isCorpse = false) :
    ∃ l', es.foldl (fun new entry => (new.insertInternal entry).2) l = l' ∧ l'.Inv H ∧
      l'.capacity = l.capacity ∧
      (entries l'.entryList).length = (entries l.entryList).length + es.length ∧
      (∀ c ∈ l'.entryList, c.isCorpse = false) ∧
      ∀ k, find HashEntry.key k l'.entryList =
        (es.find? fun e => e.key = k).or (find HashEntry.key k l.entryList) := by
  induction es generalizing l with
  | nil => exact ⟨l, rfl, h, rfl, rfl, hclean, fun _ => rfl⟩
  | cons e es ih =>
    obtain ⟨hhead, hrest⟩ := List.forall_mem_cons.mp hhash
    obtain ⟨hne, hpair⟩ := List.pairwise_cons.mp hkeys
    obtain ⟨hnone, hnones⟩ := List.forall_mem_cons.mp hnew
    rw [List.length_cons] at hroom
    have hspace : (entries l.entryList).length < l.entryList.length :=
      lt_of_lt_of_le (by omega) hroom
    obtain ⟨u, hu, hinv, hcap, hlen, hcells, hfind⟩ :=
      h.insertInternal_new hhead (find_eq_none.mp hnone) (exists_free hspace)
    have hother : ∀ d ∈ es, find HashEntry.key d.key u.entryList = none := by
      intro d hd
      rw [hfind, if_neg (hne d hd).symm]
      exact hnones d hd
    have hcorpse : ∀ c ∈ u.entryList, c.isCorpse = false := fun c hc =>
      (hcells c hc).elim (hclean c) id
    obtain ⟨v, hv, hinv', hcap', hlen', hclean', hfind'⟩ :=
      ih hinv hrest hpair hother (by omega) hcorpse
    refine ⟨v, by rw [List.foldl_cons, hu, hv], hinv', hcap'.trans hcap, ?_, hclean', fun k => ?_⟩
    · rw [hlen', hlen, List.length_cons]
      omega
    · rw [hfind', hfind, List.find?_cons]
      by_cases hk : e.key = k
      · have hmiss : es.find? (fun d => d.key = k) = none := by
          rw [List.find?_eq_none]
          intro d hd
          simpa [← hk] using (hne d hd).symm
        simp [hk, hmiss]
      · simp [hk, Ne.symm hk]

theorem Inv.rehash (h : l.Inv H) {capacity : ℕ} (hcap : l.capacity < capacity) :
    (l.rehash capacity).Inv H ∧ (∀ c ∈ (l.rehash capacity).entryList, c.isCorpse = false) ∧
      (∃ c ∈ (l.rehash capacity).entryList, c.isFree = true) ∧
      ∀ k, find HashEntry.key k (l.rehash capacity).entryList =
        find HashEntry.key k l.entryList := by
  have hnull : ∀ c ∈ List.replicate capacity (.null : Cell (HashEntry K V)), c = .null :=
    fun c hc => List.eq_of_mem_replicate hc
  have hempty := entries_of_null hnull
  have hnone : ∀ k, find HashEntry.key k
      (List.replicate capacity (.null : Cell (HashEntry K V))) = none := find_of_null hnull
  have hlen : (entries l.entryList).length ≤ l.capacity := List.length_filterMap_le _ _
  have hroom : (entries (List.replicate capacity (.null : Cell (HashEntry K V)))).length +
      (entries l.entryList).length ≤ (List.replicate capacity (.null : Cell (HashEntry K V))).length := by
    rw [hempty, List.length_replicate, List.length_nil, Nat.zero_add]
    omega
  obtain ⟨u, hu, hinv, hcap', hlen', hclean, hfind⟩ := Inv.foldl_insertInternal
    (inv_of_null H hnull fun _ => rfl) (fun e he => h.hash e (mem_entries.mp he))
    h.chained.pairwise_keys (fun e _ => hnone e.key) hroom (fun c hc => by rw [hnull c hc]; rfl)
  have hrehash : l.rehash capacity = u := hu
  rw [hrehash]
  refine ⟨hinv, hclean, exists_free ?_, fun k => ?_⟩
  · have hlong : u.entryList.length = capacity := hcap'.trans List.length_replicate
    rw [hlen', hempty, List.length_nil, Nat.zero_add, hlong]
    omega
  · rw [hfind, hnone, Option.or_none]
    rfl

theorem get_eq_none : l.get key = none ↔ ¬ l.Binds key := by
  rw [get, Option.map_eq_none_iff, find_eq_none]

theorem get_isSome : (l.get key).isSome = true ↔ l.Binds key := by
  rw [Option.isSome_iff_ne_none, ne_eq, get_eq_none, not_not]

theorem get_congr {u : HashList K V} (h : ∀ k, find HashEntry.key k u.entryList =
    find HashEntry.key k l.entryList) (k : K) : u.get k = l.get k :=
  congrArg (Option.map HashEntry.value) (h k)

theorem toInt_eq_some {x y : ℤ} (h : toInt x = some y) : x = y := by
  unfold toInt at h
  split_ifs at h
  exact Option.some.inj h

/-- The list is left as it is or takes all its entries to a larger one. -/
theorem checkupSpace_eq_some {u : HashList K V} : l.checkupSpace = some u ↔
    (toInt (l.count + l.count >>> (2 : ℕ))).isSome ∧
      if l.count + l.count >>> (2 : ℕ) ≥ l.capacity then
        ∃ capacity, stepSize.find? (l.capacity < ·) = some capacity ∧ l.rehash capacity = u
      else l = u := by
  unfold HashList.checkupSpace
  cases hint : toInt (l.count + l.count >>> (2 : ℕ)) with
  | none => simp
  | some space =>
    obtain rfl := toInt_eq_some hint
    simp only [Option.bind_some, Option.isSome_some, true_and]
    split_ifs
    · exact Option.map_eq_some_iff
    · exact Option.some_inj

theorem checkupSpace_cases {u : HashList K V} (hu : l.checkupSpace = some u) :
    u = l ∨ ∃ capacity, l.capacity < capacity ∧ u = l.rehash capacity := by
  obtain ⟨_, hu⟩ := checkupSpace_eq_some.mp hu
  split_ifs at hu
  · obtain ⟨capacity, hcap, rfl⟩ := hu
    have hlt := List.find?_some hcap
    exact Or.inr ⟨capacity, of_decide_eq_true hlt, rfl⟩
  · exact Or.inl hu.symm

theorem Inv.checkupSpace (h : l.Inv H) {u : HashList K V} (hu : l.checkupSpace = some u) :
    u.Inv H ∧ ∀ k, find HashEntry.key k u.entryList = find HashEntry.key k l.entryList := by
  rcases checkupSpace_cases hu with rfl | ⟨capacity, hcap, rfl⟩
  · exact ⟨h, fun _ => rfl⟩
  · obtain ⟨hinv, _, _, hfind⟩ := h.rehash hcap
    exact ⟨hinv, hfind⟩

theorem Inv.insertOk_iff (h : l.Inv H) : l.InsertOk H key ↔ ∃ u, l.checkupSpace = some u ∧
    ¬ u.Blocked H key ∧ (¬ u.Binds key → ∃ c ∈ u.entryList, c.isFree = true) := by
  simp only [checkupSpace_eq_some, InsertOk]
  split_ifs with hgrow
  · constructor
    · rintro ⟨hint, c, hc, hlt⟩
      have hex : ∃ x ∈ stepSize, decide (l.capacity < x) = true := ⟨c, hc, decide_eq_true hlt⟩
      obtain ⟨capacity, hcap⟩ := Option.isSome_iff_exists.mp (List.find?_isSome.mpr hex)
      have hlarger := List.find?_some hcap
      obtain ⟨_, hclean, hfree, _⟩ := h.rehash (of_decide_eq_true hlarger)
      exact ⟨_, ⟨hint, capacity, hcap, rfl⟩, not_buried hclean, fun _ => hfree⟩
    · rintro ⟨u, ⟨hint, capacity, hcap, _⟩, _⟩
      have hlarger := List.find?_some hcap
      exact ⟨hint, capacity, List.mem_of_find?_eq_some hcap, of_decide_eq_true hlarger⟩
  · constructor
    · rintro ⟨hint, hok⟩
      exact ⟨l, ⟨hint, rfl⟩, hok⟩
    · rintro ⟨u, ⟨hint, rfl⟩, hok⟩
      exact ⟨hint, hok⟩

theorem Inv.insert_ok (h : l.Inv H) (hok : l.InsertOk H key) (value : V) :
    ∃ l', l.insert H key value = some ((l.get key).isNone, l') ∧ l'.Inv H ∧
      ∀ k, l'.get k = if k = key ∧ l.get key = none then some value else l.get k := by
  obtain ⟨u, hu, hclear, hfree⟩ := h.insertOk_iff.mp hok
  obtain ⟨hinv, hfind⟩ := h.checkupSpace hu
  have hget := get_congr hfind
  rw [insert, hu, Option.map_some]
  by_cases hb : u.Binds key
  · have hsome : l.get key ≠ none := by rwa [← hget, ne_eq, get_eq_none, not_not]
    have hnone : (l.get key).isNone = false :=
      Option.isNone_eq_false_iff.mpr (Option.isSome_iff_ne_none.mpr hsome)
    refine ⟨u, ?_, hinv, fun k => ?_⟩
    · rw [hinv.insertInternal_bound rfl hb hclear, hnone]
    · rw [if_neg fun hk => hsome hk.2, hget]
  · have hnone : l.get key = none := by rwa [← hget, get_eq_none]
    have hhash : (⟨H.doHash2 key, key, value⟩ : HashEntry K V).hash = H.doHash2 key := rfl
    obtain ⟨v, hv, hinv', _, _, _, hfind'⟩ := hinv.insertInternal_new hhash hb (hfree hb)
    refine ⟨v, by rw [hv, hnone]; rfl, hinv', fun k => ?_⟩
    rw [get, hfind']
    by_cases hk : k = key
    · simp [hk, hnone]
    · rw [if_neg hk, if_neg fun hh => hk hh.1, hfind]
      rfl

theorem Inv.insert_wrong (h : l.Inv H) (hok : ¬ l.InsertOk H key) {value : V} {r : Bool}
    {l' : HashList K V} (hr : l.insert H key value = some (r, l')) : r ≠ (l.get key).isNone := by
  obtain ⟨u, hu, he⟩ := Option.map_eq_some_iff.mp hr
  obtain ⟨hinv, hfind⟩ := h.checkupSpace hu
  have hr : (u.insertInternal ⟨H.doHash2 key, key, value⟩).1 = r := by rw [he]
  rw [h.insertOk_iff] at hok
  rw [← get_congr hfind, ← hr]
  by_cases hblocked : u.Blocked H key
  · have hsome := get_isSome.mpr hblocked.bound
    rw [hinv.insertInternal_buried rfl hblocked]
    simp [Option.isNone_iff_eq_none, Option.isSome_iff_ne_none.mp hsome]
  · have hfull : ¬ u.Binds key ∧ ¬ ∃ c ∈ u.entryList, c.isFree = true := by
      by_contra hh
      exact hok ⟨u, hu, hblocked, fun hb => by_contra fun hf => hh ⟨hb, hf⟩⟩
    rw [insertInternal_no_free (H := H) rfl hfull.1 hfull.2, get_eq_none.mpr hfull.1]
    exact Bool.false_ne_true

theorem Inv.unlink (h : l.Inv H) {pos : ℕ} {e : HashEntry K V} (hpos : pos < l.capacity)
    (he : cell l.entryList pos = .entry e) (count : ℤ) :
    Inv H ⟨unlink pos l.entryList, count⟩ ∧ ∀ k, HashList.get k ⟨unlink pos l.entryList, count⟩ =
      if k = e.key then none else l.get k := by
  obtain ⟨hchained, hlen, hfind⟩ := unlink_spec h.chained hpos he
  refine ⟨⟨hchained, fun d hd => ?_, fun hz => ?_⟩, fun k => ?_⟩
  · have hd' := hchained.find_eq_some.mpr ⟨hd, rfl⟩
    rw [hfind] at hd'
    split_ifs at hd'
    exact h.hash d (h.chained.find_eq_some.mp hd').1
  · have hzero : l.entryList.length = 0 := hlen.symm.trans hz
    exact absurd hzero (Nat.ne_of_gt (Nat.zero_lt_of_lt hpos))
  · rw [get, hfind, get]
    split_ifs <;> rfl

theorem get_unbound (h : ¬ l.Binds key) (k : K) :
    l.get k = if k = key then none else l.get k := by
  by_cases hk : k = key
  · rw [if_pos hk, hk, get_eq_none.mpr h]
  · rw [if_neg hk]

theorem Inv.remove_ok (h : l.Inv H) (hok : l.RemoveOk H key) :
    ∃ l', l.remove H key = some ((l.get key).isSome, l') ∧ l'.Inv H ∧
      ∀ k, l'.get k = if k = key then none else l.get k := by
  obtain ⟨hcap, hclear, hint⟩ := hok
  by_cases hb : l.Binds key
  · obtain ⟨q, e, hs, hq, he, rfl⟩ := h.search_found hb hclear
    obtain ⟨count, hcount⟩ := Option.isSome_iff_exists.mp (hint hb)
    obtain ⟨hinv, hget⟩ := h.unlink hq he count
    refine ⟨_, ?_, hinv, hget⟩
    simp only [remove, if_neg hcap, hs, hcount, get_isSome.mpr hb, Option.map_some]
  · have hs := h.search_none fun hb' => absurd hb' hb
    refine ⟨l, ?_, h, get_unbound hb⟩
    simp only [remove, if_neg hcap, hs, get_eq_none.mpr hb, Option.isSome_none]

theorem Inv.remove_wrong (h : l.Inv H) (hok : ¬ l.RemoveOk H key) {r : Bool} {l' : HashList K V}
    (hr : l.remove H key = some (r, l')) : r ≠ (l.get key).isSome := by
  have hcap : l.capacity ≠ 0 := by
    intro hz
    simp [remove, hz] at hr
  by_cases hblocked : l.Blocked H key
  · simp only [remove, if_neg hcap, h.search_none fun _ => hblocked] at hr
    obtain ⟨rfl, _⟩ := Prod.mk.inj (Option.some.inj hr)
    rw [get_isSome.mpr hblocked.bound]
    exact Bool.false_ne_true
  · have hb : l.Binds key := by_contra fun hb => hok ⟨hcap, hblocked, fun hb' => absurd hb' hb⟩
    obtain ⟨q, e, hs, _⟩ := h.search_found hb hblocked
    have hint : ¬ (toInt (l.count - 1)).isSome := fun hi => hok ⟨hcap, hblocked, fun _ => hi⟩
    simp only [remove, if_neg hcap, hs] at hr
    obtain ⟨count, hcount, _⟩ := Option.map_eq_some_iff.mp hr
    exact absurd (by rw [hcount]; rfl) hint

theorem Inv.take_ok (h : l.Inv H) {remove : Bool} (hok : l.TakeOk H key remove) :
    ∃ l', l.take H key remove = some (l.get key, l') ∧ l'.Inv H ∧
      ∀ k, l'.get k = if remove = true ∧ k = key then none else l.get k := by
  obtain ⟨hcap, hclear, hint⟩ := hok
  by_cases hb : l.Binds key
  · obtain ⟨q, e, hs, hq, he, rfl⟩ := h.search_found hb hclear
    have hget : l.get e.key = some e.value := by
      have hmem : .entry e ∈ l.entryList := mem_iff_cell.mpr ⟨q, hq, he⟩
      rw [get, h.chained.find_eq_some.mpr ⟨hmem, rfl⟩, Option.map_some]
    cases remove with
    | false =>
      refine ⟨l, ?_, h, fun k => by simp⟩
      simp only [take, if_neg hcap, hs, hget, Bool.false_eq_true, if_false]
    | true =>
      obtain ⟨count, hcount⟩ := Option.isSome_iff_exists.mp (hint rfl hb)
      obtain ⟨c, hc, hcount⟩ := Option.bind_eq_some_iff.mp hcount
      obtain ⟨hinv, hunlink⟩ := h.unlink hq he count
      refine ⟨_, ?_, hinv, fun k => by simpa using hunlink k⟩
      simp only [take, if_neg hcap, hs, hget, hc, hcount, if_true, Option.bind_some, Option.map_some]
  · have hs := h.search_none fun hb' => absurd hb' hb
    refine ⟨l, ?_, h, fun k => ?_⟩
    · simp only [take, if_neg hcap, hs, get_eq_none.mpr hb]
    · rw [get_unbound hb k]
      split_ifs <;> simp_all

theorem Inv.take_wrong (h : l.Inv H) {remove : Bool} (hok : ¬ l.TakeOk H key remove)
    {r : Option V} {l' : HashList K V} (hr : l.take H key remove = some (r, l')) :
    r ≠ l.get key := by
  have hcap : l.capacity ≠ 0 := by
    intro hz
    simp [take, hz] at hr
  by_cases hblocked : l.Blocked H key
  · simp only [take, if_neg hcap, h.search_none fun _ => hblocked] at hr
    obtain ⟨rfl, _⟩ := Prod.mk.inj (Option.some.inj hr)
    intro hnone
    exact get_eq_none.mp hnone.symm hblocked.bound
  · have hint : ¬ (remove = true → l.Binds key → ((toInt (l.count - 1)).bind fun count =>
        toInt (count - 1)).isSome) := fun hi => hok ⟨hcap, hblocked, hi⟩
    obtain ⟨hremove, himp⟩ := Classical.not_imp.mp hint
    obtain ⟨hb, hover⟩ := Classical.not_imp.mp himp
    obtain ⟨q, e, hs, _⟩ := h.search_found hb hblocked
    simp only [take, if_neg hcap, hs, if_pos hremove] at hr
    obtain ⟨c, hc, hr⟩ := Option.bind_eq_some_iff.mp hr
    obtain ⟨count, hcount, _⟩ := Option.map_eq_some_iff.mp hr
    exact absurd (by rw [hc, Option.bind_some, hcount]; rfl) hover

theorem Inv.reset (h : l.Inv H) : l.reset.Inv H ∧ ∀ k, l.reset.get k = none := by
  have hnull : ∀ c ∈ l.reset.entryList, c = .null := by
    intro c hc
    obtain ⟨_, _, rfl⟩ := List.mem_map.mp hc
    rfl
  have hlen : l.reset.capacity = l.capacity := List.length_map _
  refine ⟨inv_of_null H hnull fun hz => h.empty (hlen.symm.trans hz), fun k => ?_⟩
  rw [get, find_of_null hnull]
  rfl

end Probe

end HashList

end RgcFifa
