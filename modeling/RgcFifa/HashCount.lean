import RgcFifa.HashTable

/-! The counter of a `HashList`, which is what it grows by. -/

namespace RgcFifa

open Probing Transition

namespace HashList

variable {K V : Type*} {l : HashList K V} {t : List (Cell (HashEntry K V))}

/-- The counter says how many entries there are. -/
def Counted (l : HashList K V) : Prop := l.count = (entries l.entryList).length

/-- As `new` leaves the array. -/
def fresh (capacity : ℕ) : HashList K V := ⟨List.replicate capacity .null, 0⟩

section Ops

variable [DecidableEq K]

/-- What the loops compare. -/
def mark (e : HashEntry K V) : ℕ × K := (e.hash, e.key)

/-- Only other entries lie between the first cell of the key and its own. -/
def Reached (H : Hasher K) (key : K) (l : HashList K V) : Prop :=
  ∃ i < l.capacity, Passes mark (H.doHash2 key, key) l.entryList (H.doHash2 key) i ∧
    (cell l.entryList (H.doHash2 key + i)).isKey mark (H.doHash2 key, key) = true

def step (H : Hasher K) : HashOp K V → HashList K V → Option (HashList K V)
  | .insert key val, l => (l.insert H key val).map Prod.snd
  | .remove key, l => (l.remove H key).map Prod.snd
  | .take key remove, l => (l.take H key remove).map Prod.snd
  | .reset, l => some l.reset

/-- What an operation is to do besides keeping the counter. -/
def Works (H : Hasher K) : HashOp K V → HashList K V → HashList K V → Prop
  | .insert key val, l, t => (∃ u, l.checkupSpace = some u ∧ ∃ c ∈ u.entryList, c.isFree = true) ∧
      (¬ l.Binds key → l.insert H key val = some (true, t))
  | .reset, l, t => t = fresh l.capacity
  | _, _, _ => True

def Meets (H : Hasher K) (op : HashOp K V) (l : HashList K V) : Prop :=
  ∃ t, step H op l = some t ∧ t.Counted ∧ Works H op l t

/-- There is a list to look in and a larger one to move to, `take` comes to no entry that it is to
delete, and no list with entries is reset. -/
def Keeps (H : Hasher K) : HashOp K V → HashList K V → Prop
  | .insert _ _, l => (toInt (l.count + l.count >>> (2 : ℕ))).isSome ∧
      (l.count + l.count >>> (2 : ℕ) ≥ l.capacity → ∃ capacity ∈ stepSize, l.capacity < capacity)
  | .remove _, l => l.capacity ≠ 0
  | .take key remove, l => l.capacity ≠ 0 ∧ (remove = true → ¬ l.Reached H key)
  | .reset, l => entries l.entryList = []

end Ops

/-- Of the lists that are reached: `_capacity` is an `int`. -/
structure Sized (l : HashList K V) : Prop where
  counted : l.Counted
  capacity_lt : l.capacity < 2 ^ 31

theorem length_entries_le (l : HashList K V) : (entries l.entryList).length ≤ l.capacity :=
  List.length_filterMap_le _ _

theorem counted_fresh (capacity : ℕ) : (fresh capacity : HashList K V).Counted := by
  have hnull : entries (List.replicate capacity (.null : Cell (HashEntry K V))) = [] :=
    entries_of_null fun c hc => List.eq_of_mem_replicate hc
  rw [Counted, fresh, hnull]
  rfl

theorem capacity_fresh (capacity : ℕ) : (fresh capacity : HashList K V).capacity = capacity :=
  List.length_replicate

section Clean

theorem clean_entries (n : ℕ) {pos : ℕ} (hpos : pos < t.length) :
    (clean t n pos).length = t.length ∧
      (entries (clean t n pos)).length = (entries t).length := by
  induction n generalizing t pos with
  | zero => exact ⟨rfl, rfl⟩
  | succ n ih =>
    by_cases hc : cell t pos = .corpse
    · have hset := length_entries_set hpos (.null : Cell (HashEntry K V))
      obtain ⟨hlen, hentries⟩ := ih (before_lt_set hpos .null)
      rw [hc] at hset
      rw [clean_corpse hc]
      exact ⟨hlen.trans List.length_set, hentries.trans hset⟩
    · rw [clean_stop _ hc]
      exact ⟨rfl, rfl⟩

/-- One entry less. -/
theorem unlink_entries {pos : ℕ} {e : HashEntry K V} (hpos : pos < t.length)
    (he : cell t pos = .entry e) :
    (unlink pos t).length = t.length ∧
      (entries (unlink pos t)).length + 1 = (entries t).length := by
  have hset : ∀ c : Cell (HashEntry K V), c.isFree = true →
      (entries (t.set pos c)).length + 1 = (entries t).length := by
    intro c hc
    have hset := length_entries_set hpos c
    rwa [he, hc] at hset
  unfold unlink
  split
  · obtain ⟨hlen, hentries⟩ := clean_entries t.length (before_lt_set hpos .null)
    rw [hlen, hentries]
    exact ⟨List.length_set, hset .null rfl⟩
  · exact ⟨List.length_set, hset .corpse rfl⟩

end Clean

variable [DecidableEq K]

theorem search_cell {hash : ℕ} {key : K} {n pos q : ℕ} {e : HashEntry K V} (hpos : pos < l.capacity)
    (h : l.search hash key n pos = some (q, e)) : q < l.capacity ∧ cell l.entryList q = .entry e := by
  induction n generalizing pos with
  | zero => cases h
  | succ n ih =>
    rw [search] at h
    cases hc : cell l.entryList pos with
    | null =>
      rw [hc] at h
      cases h
    | corpse =>
      rw [hc] at h
      exact ih hpos h
    | entry d =>
      rw [hc] at h
      dsimp only at h
      split_ifs at h with hkey
      · obtain ⟨rfl, rfl⟩ := Prod.mk.inj (Option.some.inj h)
        exact ⟨hpos, hc⟩
      · exact ih (Nat.mod_lt _ (Nat.zero_lt_of_lt hpos)) h

/-- The loop stores at a free cell or gives up. -/
theorem insertLoop_cases {ent : HashEntry K V} {n pos : ℕ} (hpos : pos < l.capacity) :
    l.insertLoop ent n pos = (false, l) ∨ ∃ q < l.capacity, (cell l.entryList q).isFree = true ∧
      l.insertLoop ent n pos = (true, ⟨l.entryList.set q (.entry ent), l.count + 1⟩) := by
  induction n generalizing pos with
  | zero => exact .inl rfl
  | succ n ih =>
    rw [insertLoop]
    cases hc : cell l.entryList pos with
    | null => exact .inr ⟨pos, hpos, by rw [hc]; rfl, rfl⟩
    | corpse => exact .inr ⟨pos, hpos, by rw [hc]; rfl, rfl⟩
    | entry d =>
      dsimp only
      split_ifs with hkey
      · exact .inl rfl
      · exact ih (Nat.mod_lt _ (Nat.zero_lt_of_lt hpos))

theorem search_eq_none {H : Hasher K} {key : K} :
    l.search (H.doHash2 key) key l.capacity (H.doHash2 key % l.capacity) = none ↔
      ¬ l.Reached H key := by
  obtain ⟨i, hi, hp, hs⟩ :=
    exists_stop mark (H.doHash2 key, key) l.entryList (H.doHash2 key) l.capacity
  have hother : ∀ n pos (e : HashEntry K V), cell l.entryList pos = .entry e →
      mark e ≠ (H.doHash2 key, key) → l.search (H.doHash2 key) key (n + 1) pos =
        l.search (H.doHash2 key) key n ((pos + 1) % l.capacity) := by
    intro n pos e he hne
    rw [search, he]
    exact if_neg fun hh => hne (Prod.ext hh.1 hh.2)
  have hwalk := hp.walk hother (l.capacity - i)
  rw [Nat.sub_add_cancel hi] at hwalk
  rw [hwalk]
  by_cases hkey : i < l.capacity ∧
      (cell l.entryList (H.doHash2 key + i)).isKey mark (H.doHash2 key, key) = true
  · have hreached : l.Reached H key := ⟨i, hkey.1, hp, hkey.2⟩
    obtain ⟨e, he, hmark⟩ := isKey_iff.mp hkey.2
    obtain ⟨n, hn⟩ : ∃ n, l.capacity - i = n + 1 := ⟨l.capacity - i - 1, by omega⟩
    obtain ⟨hhash, hk⟩ := Prod.mk.inj hmark
    have hfound : l.search (H.doHash2 key) key (l.capacity - i)
        ((H.doHash2 key + i) % l.capacity) = some ((H.doHash2 key + i) % l.capacity, e) := by
      rw [hn, search, cell_mod, he]
      exact if_pos ⟨hhash, hk⟩
    rw [hfound]
    exact iff_of_false (Option.some_ne_none _) (not_not.mpr hreached)
  · have hnone : l.search (H.doHash2 key) key (l.capacity - i)
        ((H.doHash2 key + i) % l.capacity) = none := by
      by_cases hlt : i < l.capacity
      · apply search_free
        rw [cell_mod]
        exact (hs hlt).resolve_right fun hk => hkey ⟨hlt, hk⟩
      · rw [show l.capacity - i = 0 by omega]
        rfl
    have hreached : ¬ l.Reached H key := by
      rintro ⟨m, hm, hpm, hkm⟩
      rcases lt_trichotomy m i with hlt | rfl | hgt
      · rw [(hp.not_isKey hlt).1] at hkm
        cases hkm
      · exact hkey ⟨hm, hkm⟩
      · -- the walk stops at `i`, so nothing passes it
        obtain ⟨hno, hfull⟩ := hpm.not_isKey hgt
        rcases hs (by omega) with hfree | hk
        · rw [hfull] at hfree
          cases hfree
        · rw [hno] at hk
          cases hk
    exact iff_of_true hnone hreached

theorem insertInternal_counted (ent : HashEntry K V) (h : l.Counted) :
    (l.insertInternal ent).2.Counted ∧ (l.insertInternal ent).2.capacity = l.capacity ∧
      (l.insertInternal ent).2.count ≤ l.count + 1 ∧
      ∀ e, .entry e ∈ (l.insertInternal ent).2.entryList → e = ent ∨ .entry e ∈ l.entryList := by
  by_cases hzero : l.capacity = 0
  · have hnone : l.insertInternal ent = (false, l) := by rw [insertInternal, hzero]; rfl
    rw [hnone]
    exact ⟨h, rfl, le_add_of_nonneg_right (by decide), fun e he => .inr he⟩
  · have hpos : ent.hash % l.capacity < l.capacity := Nat.mod_lt _ (Nat.pos_of_ne_zero hzero)
    rw [insertInternal]
    rcases @insertLoop_cases _ _ l _ ent l.capacity _ hpos with hnone | ⟨q, hq, hfree, hstore⟩
    · rw [hnone]
      exact ⟨h, rfl, le_add_of_nonneg_right (by decide), fun e he => .inr he⟩
    · rw [hstore]
      refine ⟨?_, List.length_set, le_rfl, fun e he => ?_⟩
      · rw [Counted, length_entries_store hq hfree, h]
        rfl
      · rcases List.mem_or_eq_of_mem_set he with he | he
        · exact .inr he
        · exact .inl (Cell.entry.inj he)

theorem foldl_counted (es : List (HashEntry K V)) (h : l.Counted) {u : HashList K V}
    (hu : es.foldl (fun new entry => (new.insertInternal entry).2) l = u) :
    u.Counted ∧ u.capacity = l.capacity ∧ u.count ≤ l.count + es.length ∧
      ∀ e, .entry e ∈ u.entryList → e ∈ es ∨ .entry e ∈ l.entryList := by
  induction es generalizing l with
  | nil =>
    obtain rfl : l = u := hu
    exact ⟨h, rfl, by simp, fun e he => .inr he⟩
  | cons d es ih =>
    obtain ⟨hcounted, hcap, hcount, hmem⟩ := insertInternal_counted d h
    obtain ⟨hrest, hcap', hcount', hmem'⟩ := ih hcounted hu
    refine ⟨hrest, hcap'.trans hcap, ?_, fun e he => ?_⟩
    · rw [List.length_cons]
      push_cast
      omega
    · rcases hmem' e he with hes | he
      · exact .inl (List.mem_cons_of_mem d hes)
      · rcases hmem e he with rfl | he
        · exact .inl List.mem_cons_self
        · exact .inr he

theorem rehash_counted (l : HashList K V) (capacity : ℕ) :
    (l.rehash capacity).Counted ∧ (l.rehash capacity).capacity = capacity ∧
      (l.rehash capacity).count ≤ (entries l.entryList).length ∧
      ∀ e, .entry e ∈ (l.rehash capacity).entryList → .entry e ∈ l.entryList := by
  have hrehash : (entries l.entryList).foldl (fun new entry => (new.insertInternal entry).2)
    (fresh capacity) = l.rehash capacity := rfl
  obtain ⟨hcounted, hcap, hcount, hmem⟩ := foldl_counted _ (counted_fresh capacity) hrehash
  refine ⟨hcounted, hcap.trans (capacity_fresh capacity), ?_, fun e he => ?_⟩
  · have hzero : (fresh capacity : HashList K V).count = 0 := rfl
    rwa [hzero, zero_add] at hcount
  · rcases hmem e he with he | he
    · exact mem_entries.mp he
    · cases List.eq_of_mem_replicate he

theorem stepSize_lt {capacity : ℕ} (h : capacity ∈ stepSize) : capacity < 2 ^ 31 := by
  revert capacity
  decide

/-- There is room for one more entry, and nothing new is there. -/
theorem Sized.checkupSpace (h : l.Sized) {u : HashList K V} (hu : l.checkupSpace = some u) :
    u.Sized ∧ (∃ c ∈ u.entryList, c.isFree = true) ∧
      ∀ e, .entry e ∈ u.entryList → .entry e ∈ l.entryList := by
  obtain ⟨_, hu⟩ := checkupSpace_eq_some.mp hu
  have hcounted : l.count = (entries l.entryList).length := h.counted
  split_ifs at hu with hgrow
  · obtain ⟨capacity, hstep, rfl⟩ := hu
    obtain ⟨hnew, hcap, hcount, hmem⟩ := rehash_counted l capacity
    have hlarger := List.find?_some hstep
    have hlt : l.capacity < capacity := of_decide_eq_true hlarger
    have hle := length_entries_le l
    have hnewCount : (l.rehash capacity).count = (entries (l.rehash capacity).entryList).length := hnew
    refine ⟨⟨hnew, ?_⟩, exists_free ?_, hmem⟩
    · rw [hcap]
      exact stepSize_lt (List.mem_of_find?_eq_some hstep)
    · show _ < (l.rehash capacity).capacity
      omega
  · subst hu
    refine ⟨h, exists_free ?_, fun e he => he⟩
    show _ < l.capacity
    have hshift : 0 ≤ l.count >>> (2 : ℕ) := by
      rw [hcounted, Int.shiftRight_eq_div_pow]
      positivity
    omega

/-- The loop stores an entry whose key is not there, if there is room. -/
theorem insertInternal_unbound {ent : HashEntry K V} (hb : ¬ l.Binds ent.key)
    (hfree : ∃ c ∈ l.entryList, c.isFree = true) : (l.insertInternal ent).1 = true := by
  obtain ⟨i, hi, hp, hs⟩ := exists_stop HashEntry.key ent.key l.entryList ent.hash l.capacity
  have hlt : i < l.capacity := hp.lt_of_free hi hfree
  have hcell := stop_of_unbound hb (hs hlt)
  obtain ⟨n, hn⟩ : ∃ n, l.capacity = n + 1 + i := ⟨l.capacity - i - 1, by omega⟩
  have hwalk := hp.walk (fun n _ _ => insertLoop_other (l := l) n) (n + 1)
  rw [← hn] at hwalk
  rw [insertInternal, hwalk, insertLoop, cell_mod]
  cases hc : cell l.entryList (ent.hash + i) with
  | null => rfl
  | corpse => rfl
  | entry e =>
    rw [hc] at hcell
    cases hcell

theorem exists_checkupSpace : (∃ u, l.checkupSpace = some u) ↔
    (toInt (l.count + l.count >>> (2 : ℕ))).isSome ∧
      (l.count + l.count >>> (2 : ℕ) ≥ l.capacity → ∃ capacity ∈ stepSize, l.capacity < capacity) := by
  simp only [checkupSpace_eq_some, exists_and_left]
  apply and_congr_right
  intro _
  by_cases hgrow : l.count + l.count >>> (2 : ℕ) ≥ l.capacity
  · simp only [if_pos hgrow]
    constructor
    · rintro ⟨_, capacity, hstep, _⟩ _
      have hlarger := List.find?_some hstep
      exact ⟨capacity, List.mem_of_find?_eq_some hstep, of_decide_eq_true hlarger⟩
    · intro hlarger
      obtain ⟨c, hc, hlt⟩ := hlarger hgrow
      have hex : ∃ x ∈ stepSize, decide (l.capacity < x) = true := ⟨c, hc, decide_eq_true hlt⟩
      obtain ⟨capacity, hstep⟩ := Option.isSome_iff_exists.mp (List.find?_isSome.mpr hex)
      exact ⟨_, capacity, hstep, rfl⟩
  · simp only [if_neg hgrow]
    exact iff_of_true ⟨l, rfl⟩ fun h => absurd h hgrow

variable {H : Hasher K} {key : K}

theorem Sized.insert (h : l.Sized) (val : V) (hu : ∃ u, l.checkupSpace = some u) :
    ∃ t, step H (.insert key val) l = some t ∧ t.Sized ∧ Works H (.insert key val) l t := by
  obtain ⟨u, hu⟩ := hu
  obtain ⟨hsized, hfree, hmem⟩ := h.checkupSpace hu
  obtain ⟨hcounted, hcap, _, _⟩ := insertInternal_counted ⟨H.doHash2 key, key, val⟩ hsized.counted
  have hins : l.insert H key val = some (u.insertInternal ⟨H.doHash2 key, key, val⟩) := by
    rw [HashList.insert, hu, Option.map_some]
  refine ⟨_, by rw [step, hins, Option.map_some], ⟨hcounted, ?_⟩, ⟨u, hu, hfree⟩, fun hb => ?_⟩
  · rw [hcap]
    exact hsized.capacity_lt
  · have hbound : ¬ u.Binds key := by
      rintro ⟨c, hc, hk⟩
      obtain ⟨e, rfl, _⟩ := isKey_iff.mp hk
      exact hb ⟨_, hmem e hc, hk⟩
    rw [hins]
    exact congrArg some (Prod.ext (insertInternal_unbound hbound hfree) rfl)

omit [DecidableEq K] in
theorem Sized.unlink (h : l.Sized) {pos : ℕ} {e : HashEntry K V} (hpos : pos < l.capacity)
    (he : cell l.entryList pos = .entry e) :
    toInt (l.count - 1) = some (l.count - 1) ∧
      Sized ⟨HashList.unlink pos l.entryList, l.count - 1⟩ := by
  obtain ⟨hlen, hentries⟩ := unlink_entries hpos he
  have hcounted : l.count = (entries l.entryList).length := h.counted
  have hle := length_entries_le l
  have hlt := h.capacity_lt
  have hone : l.count - 1 = (entries (HashList.unlink pos l.entryList)).length := by omega
  refine ⟨if_pos (by omega), ⟨hone, ?_⟩⟩
  rw [HashList.capacity, hlen]
  exact hlt

theorem Sized.remove (h : l.Sized) (hcap : l.capacity ≠ 0) :
    ∃ t, step H (.remove key) l = some t ∧ t.Sized := by
  have hpos : H.doHash2 key % l.capacity < l.capacity := Nat.mod_lt _ (Nat.pos_of_ne_zero hcap)
  rw [step, HashList.remove, if_neg hcap]
  cases hs : l.search (H.doHash2 key) key l.capacity (H.doHash2 key % l.capacity) with
  | none => exact ⟨l, rfl, h⟩
  | some found =>
    obtain ⟨hq, he⟩ := search_cell hpos hs
    obtain ⟨hint, hsized⟩ := h.unlink hq he
    refine ⟨_, ?_, hsized⟩
    dsimp only
    rw [hint]
    rfl

theorem step_take_of_not_reached {remove : Bool} (hcap : l.capacity ≠ 0)
    (hreached : remove = true → ¬ l.Reached H key) : step H (.take key remove) l = some l := by
  rw [step, HashList.take, if_neg hcap]
  cases hs : l.search (H.doHash2 key) key l.capacity (H.doHash2 key % l.capacity) with
  | none => rfl
  | some found =>
    cases remove with
    | false => rfl
    | true =>
      rw [search_eq_none.mpr (hreached rfl)] at hs
      cases hs

/-- The counter goes down by two for one entry. -/
theorem Sized.take_reached (h : l.Sized) (hcap : l.capacity ≠ 0) (hreached : l.Reached H key)
    {t : HashList K V} (ht : step H (.take key true) l = some t) : ¬ t.Counted := by
  have hpos : H.doHash2 key % l.capacity < l.capacity := Nat.mod_lt _ (Nat.pos_of_ne_zero hcap)
  rw [step, HashList.take, if_neg hcap] at ht
  cases hs : l.search (H.doHash2 key) key l.capacity (H.doHash2 key % l.capacity) with
  | none => exact absurd hreached (search_eq_none.mp hs)
  | some found =>
    obtain ⟨hq, he⟩ := search_cell hpos hs
    obtain ⟨hint, hsized⟩ := h.unlink hq he
    rw [hs] at ht
    dsimp only at ht
    rw [if_pos rfl, hint, Option.bind_some] at ht
    obtain ⟨r, hr, rfl⟩ := Option.map_eq_some_iff.mp ht
    obtain ⟨count, hcount, rfl⟩ := Option.map_eq_some_iff.mp hr
    intro hcounted
    have hone : l.count - 1 = (entries (HashList.unlink found.1 l.entryList)).length :=
      hsized.counted
    have htwo : count = (entries (HashList.unlink found.1 l.entryList)).length := hcounted
    have hless := toInt_eq_some hcount
    omega

omit [DecidableEq K] in
theorem reset_entryList (l : HashList K V) :
    l.reset.entryList = List.replicate l.capacity .null := List.map_const' ..

omit [DecidableEq K] in
theorem Sized.reset (h : l.Sized) : entries l.entryList = [] ↔ l.reset.Counted := by
  have hcounted : l.count = (entries l.entryList).length := h.counted
  have hentries : entries l.reset.entryList = [] := by
    rw [reset_entryList]
    exact entries_of_null fun c hc => List.eq_of_mem_replicate hc
  rw [Counted, hentries, ← List.length_eq_zero_iff]
  show _ ↔ l.count = 0
  omega

theorem Sized.step (h : l.Sized) {op : HashOp K V} (hkeeps : Keeps H op l) :
    ∃ t, step H op l = some t ∧ t.Sized ∧ Works H op l t := by
  cases op with
  | insert key val => exact h.insert val (exists_checkupSpace.mpr hkeeps)
  | remove key =>
    obtain ⟨t, ht, hsized⟩ := h.remove hkeeps
    exact ⟨t, ht, hsized, trivial⟩
  | take key remove => exact ⟨l, step_take_of_not_reached hkeeps.1 hkeeps.2, h, trivial⟩
  | reset =>
    have hempty : entries l.entryList = [] := hkeeps
    have hzero : l.count = 0 := by rw [h.counted, hempty]; rfl
    have hfresh : l.reset = fresh l.capacity := by
      rw [fresh, ← reset_entryList, ← hzero]
      rfl
    refine ⟨l.reset, rfl, ?_, hfresh⟩
    rw [hfresh]
    refine ⟨counted_fresh _, ?_⟩
    rw [capacity_fresh]
    exact h.capacity_lt

theorem Sized.keeps (h : l.Sized) {op : HashOp K V} (hmeets : Meets H op l) : Keeps H op l := by
  obtain ⟨t, ht, hcounted, hworks⟩ := hmeets
  cases op with
  | insert key val => exact exists_checkupSpace.mp ⟨_, hworks.1.choose_spec.1⟩
  | remove key =>
    intro hcap
    rw [HashList.step, HashList.remove, if_pos hcap] at ht
    cases ht
  | take key remove =>
    have hcap : l.capacity ≠ 0 := by
      intro hcap
      rw [HashList.step, HashList.take, if_pos hcap] at ht
      cases ht
    refine ⟨hcap, ?_⟩
    rintro rfl hreached
    exact h.take_reached hcap hreached ht hcounted
  | reset =>
    obtain rfl := Option.some.inj ht
    exact h.reset.mpr hcounted

omit [DecidableEq K] in
theorem sized_empty : (empty : HashList K V).Sized := ⟨rfl, Nat.two_pow_pos 31⟩

end HashList

/-- In the runs of such operations, and in no others, the counter stays right, an absent key is
inserted, and a list that is reset is as new. -/
theorem hashList_counted_iff [DecidableEq K] (H : Hasher K) (ops : List (HashOp K V)) :
    Always (HashList.step H) (HashList.Meets H) ops HashList.empty ↔
      Always (HashList.step H) (HashList.Keeps H) ops HashList.empty := by
  refine always_congr_of (I := HashList.Sized) ?_ ?_ HashList.sized_empty
  · intro op l t h hmeets ht
    obtain ⟨u, hu, hsized, _⟩ := h.step (h.keeps hmeets)
    obtain rfl : u = t := Option.some.inj (hu.symm.trans ht)
    exact hsized
  · intro op l h
    refine ⟨h.keeps, fun hkeeps => ?_⟩
    obtain ⟨t, ht, hsized, hworks⟩ := h.step hkeeps
    exact ⟨t, ht, hsized.counted, hworks⟩

/-- The counter is below zero after one entry has come and gone, and stays at one after a reset.
In a list of 17 places with 17 entries, of which 13 are counted, the next key finds no place. -/
theorem hashList_miscounts :
    run (HashList.step HashTableHasher) [.insert 1 7, .take 1 true] HashList.empty =
      some ⟨List.replicate 17 .null, -1⟩ ∧
    run (HashList.step HashTableHasher) [.insert 1 7, .reset] HashList.empty =
      some ⟨List.replicate 17 .null, 1⟩ ∧
    ∃ l, run (HashList.step HashTableHasher)
        ((List.replicate 4 [.insert 1 7, .take 1 true]).flatten ++
          (List.range 17).map (.insert · 7)) HashList.empty = some l ∧
      l.count = 13 ∧ (entries l.entryList).length = 17 ∧ ¬ l.Binds 17 ∧
      l.insert HashTableHasher 17 7 = some (false, l) := by
  refine ⟨by decide +kernel, by decide +kernel, exists_run _ _ _ _ ?_⟩
  decide +kernel

end RgcFifa
