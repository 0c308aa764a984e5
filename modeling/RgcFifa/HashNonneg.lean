import RgcFifa.HashCount
import RgcFifa.HashSafety
import RgcFifa.Lib.Transition

/-! For hashes that are not negative, and without the mutex, the checked lists and tables do what
`HashList` and `HashTable` do. -/

namespace RgcFifa.Signed

open Probing Faulting Transition

variable {K V : Type}

def ofHasher (H : RgcFifa.Hasher K) : Hasher K :=
  ⟨fun key => H.doHash1 key, fun key => H.doHash2 key⟩

def ofEntry (e : RgcFifa.HashEntry K V) : HashEntry K V := ⟨e.hash, e.key, e.value⟩

def ofCell : Cell (RgcFifa.HashEntry K V) → Cell (HashEntry K V)
  | .null => .null
  | .corpse => .corpse
  | .entry e => .entry (ofEntry e)

def ofList (l : RgcFifa.HashList K V) : HashList K V := ⟨l.entryList.map ofCell, l.count, false⟩

def ofTable (t : RgcFifa.HashTable K V) : HashTable K V := ⟨t.hashLists.map ofList⟩

variable {t : List (Cell (RgcFifa.HashEntry K V))} {l : RgcFifa.HashList K V} {pos : ℕ}

@[simp] theorem capacity_ofList : (ofList l).capacity = l.capacity := List.length_map ..

theorem count_ofList : (ofList l).count = l.count := rfl

theorem modulo_natCast (n : ℕ) {capacity : ℕ} (h : capacity ≠ 0) :
    modulo n capacity = .ok ((n % capacity : ℕ) : ℤ) := by
  rw [modulo, if_neg h, Int.ofNat_tmod]

theorem modulo_succ (pos : ℕ) {capacity : ℕ} (h : capacity ≠ 0) :
    modulo ((pos : ℤ) + 1) capacity = .ok (((pos + 1) % capacity : ℕ) : ℤ) :=
  modulo_natCast (pos + 1) h

theorem cell_ofCell (t : List (Cell (RgcFifa.HashEntry K V))) (pos : ℕ) :
    cell (t.map ofCell) pos = ofCell (cell t pos) := by
  rw [cell, cell, List.length_map, List.getD_eq_getElem?_getD, List.getD_eq_getElem?_getD,
    List.getElem?_map]
  cases t[pos % t.length]? <;> rfl

theorem slot_ofCell (h : pos < t.length) :
    slot (t.map ofCell) (pos : ℤ) = .ok (ofCell (cell t pos)) := by
  rw [slot_ok ⟨by omega, by rw [List.length_map]; omega⟩, Int.toNat_natCast, cell_ofCell]

theorem store_ofCell (h : pos < t.length) (c : Cell (RgcFifa.HashEntry K V)) :
    store (t.map ofCell) (pos : ℤ) (ofCell c) = .ok ((t.set pos c).map ofCell) := by
  rw [store_ok ⟨by omega, by rw [List.length_map]; omega⟩, Int.toNat_natCast, List.map_set]

theorem before_natCast {capacity : ℕ} (h : pos < capacity) :
    HashList.before capacity (pos : ℤ) = (RgcFifa.HashList.before capacity pos : ℕ) := by
  rw [HashList.before, RgcFifa.HashList.before]
  split_ifs <;> omega

theorem clean_ofCell (n : ℕ) (h : pos < t.length) :
    HashList.clean (t.map ofCell) n pos = .ok ((RgcFifa.HashList.clean t n pos).map ofCell) := by
  induction n generalizing t pos with
  | zero => rfl
  | succ n ih =>
    rw [HashList.clean, slot_ofCell h, ok_bind, RgcFifa.HashList.clean]
    cases cell t pos with
    | corpse =>
      have hstore : store (t.map ofCell) (pos : ℤ) .null = .ok ((t.set pos .null).map ofCell) :=
        store_ofCell h .null
      simp only [ofCell, hstore, ok_bind, List.length_map, before_natCast h]
      exact ih (RgcFifa.HashList.before_lt_set h .null)
    | null => rfl
    | entry e => rfl

theorem unlink_ofCell (h : pos < t.length) :
    HashList.unlink (pos : ℤ) (t.map ofCell) =
      .ok ((RgcFifa.HashList.unlink pos t).map ofCell) := by
  have hlen : t.length ≠ 0 := by omega
  have hslot := slot_ofCell (t := t) (Nat.mod_lt (pos + 1) (Nat.pos_of_ne_zero hlen))
  have hnull : store (t.map ofCell) (pos : ℤ) .null = .ok ((t.set pos .null).map ofCell) :=
    store_ofCell h .null
  have hcorpse : store (t.map ofCell) (pos : ℤ) .corpse =
      .ok ((t.set pos .corpse).map ofCell) := store_ofCell h .corpse
  rw [HashList.unlink, List.length_map, modulo_succ pos hlen, ok_bind, hslot, ok_bind,
    RgcFifa.HashList.unlink]
  cases cell t ((pos + 1) % t.length) with
  | null =>
    simp only [ofCell, hnull, ok_bind, before_natCast h]
    exact clean_ofCell _ (RgcFifa.HashList.before_lt_set h .null)
  | corpse => exact hcorpse
  | entry e => exact hcorpse

theorem toOption_int (x : ℤ) : (int x).toOption = toInt x := by
  rw [int]
  cases toInt x <;> rfl

theorem modulo_home {H : RgcFifa.Hasher K} (key : K) (hcap : l.capacity ≠ 0) :
    modulo ((ofHasher H).doHash2 key) (ofList l).capacity =
      .ok ((H.doHash2 key % l.capacity : ℕ) : ℤ) := by
  rw [capacity_ofList]
  exact modulo_natCast _ hcap

theorem entries_ofCell (t : List (Cell (RgcFifa.HashEntry K V))) :
    entries (t.map ofCell) = (entries t).map ofEntry := by
  rw [entries, entries, List.filterMap_map, List.map_filterMap]
  congr 1
  funext c
  cases c <;> rfl

theorem reset_ofList (l : RgcFifa.HashList K V) :
    (ofList l).reset false = .ok (ofList l.reset) := by
  have hcells : (ofList l).entryList.map (fun _ => Cell.null) = l.reset.entryList.map ofCell := by
    simp only [ofList, RgcFifa.HashList.reset, List.map_map]
    rfl
  rw [HashList.reset, HashList.lock]
  simp only [Bool.false_eq_true, if_false, ok_bind, hcells]
  rfl

theorem length_unlink (h : pos < t.length) :
    (RgcFifa.HashList.unlink pos t).length = t.length := by
  have hwithin : 0 ≤ (pos : ℤ) ∧ (pos : ℤ) < (t.map ofCell).length := by
    rw [List.length_map]
    omega
  obtain ⟨v, hv, hlen⟩ := HashList.unlink_ok hwithin
  rw [unlink_ofCell h] at hv
  rw [← Except.ok.inj hv, List.length_map, List.length_map] at hlen
  exact hlen

/-- A list that has never been allocated has no entries. -/
def Unallocated (l : RgcFifa.HashList K V) : Prop := l.capacity = 0 → l.count = 0

theorem reset_unallocated (h : Unallocated l) : Unallocated l.reset := by
  intro hzero
  exact h ((List.length_map _).symm.trans hzero)

section Ops

variable [DecidableEq K]

theorem search_ofList (hash : ℕ) (key : K) (n : ℕ) (hpos : pos < l.capacity) :
    (ofList l).search hash key n pos =
      .ok ((l.search hash key n pos).map fun (p, e) => ((p : ℤ), ofEntry e)) := by
  induction n generalizing pos with
  | zero => rfl
  | succ n ih =>
    have hslot : slot (ofList l).entryList (pos : ℤ) = .ok (ofCell (cell l.entryList pos)) :=
      slot_ofCell hpos
    rw [HashList.search, hslot, ok_bind, RgcFifa.HashList.search]
    cases cell l.entryList pos with
    | null => rfl
    | corpse => exact ih hpos
    | entry e =>
      have hcap : l.capacity ≠ 0 := by omega
      have hnext := ih (Nat.mod_lt (pos + 1) (Nat.pos_of_ne_zero hcap))
      by_cases hfound : e.hash = hash ∧ e.key = key
      · simp [ofCell, ofEntry, hfound]
      · have hfound' : ¬ ((ofEntry e).hash = hash ∧ (ofEntry e).key = key) := by
          simpa [ofEntry] using hfound
        simp only [ofCell, if_neg hfound', capacity_ofList, modulo_succ pos hcap, ok_bind, hnext,
          if_neg hfound]

theorem search_home {H : RgcFifa.Hasher K} (key : K) (hcap : l.capacity ≠ 0) :
    (ofList l).search ((ofHasher H).doHash2 key) key (ofList l).capacity
        ((H.doHash2 key % l.capacity : ℕ) : ℤ) =
      .ok ((l.search (H.doHash2 key) key l.capacity (H.doHash2 key % l.capacity)).map
        fun (p, e) => ((p : ℤ), ofEntry e)) := by
  rw [capacity_ofList]
  exact search_ofList _ _ _ (Nat.mod_lt _ (Nat.pos_of_ne_zero hcap))

theorem found_lt {H : RgcFifa.Hasher K} {key : K} {e : RgcFifa.HashEntry K V}
    (hcap : l.capacity ≠ 0)
    (hs : l.search (H.doHash2 key) key l.capacity (H.doHash2 key % l.capacity) = some (pos, e)) :
    pos < l.capacity :=
  (RgcFifa.HashList.search_cell (Nat.mod_lt _ (Nat.pos_of_ne_zero hcap)) hs).1

/-- What a search finds is taken out of both tables. -/
theorem unlink_found {H : RgcFifa.Hasher K} {key : K} {e : RgcFifa.HashEntry K V}
    (hcap : l.capacity ≠ 0)
    (hs : l.search (H.doHash2 key) key l.capacity (H.doHash2 key % l.capacity) = some (pos, e)) :
    HashList.unlink (pos : ℤ) (ofList l).entryList =
      .ok ((RgcFifa.HashList.unlink pos l.entryList).map ofCell) :=
  unlink_ofCell (found_lt hcap hs)

theorem remove_ofList (H : RgcFifa.Hasher K) (key : K) :
    ((ofList l).remove (ofHasher H) false key).toOption =
      (l.remove H key).map (Prod.map id ofList) := by
  have hlock : (ofList l).lock false = .ok (ofList l) := rfl
  rw [HashList.remove, hlock, ok_bind, RgcFifa.HashList.remove]
  by_cases hcap : l.capacity = 0
  · rw [if_pos hcap, capacity_ofList, hcap]
    rfl
  · rw [modulo_home key hcap, ok_bind, search_home key hcap, ok_bind, if_neg hcap]
    cases hs : l.search (H.doHash2 key) key l.capacity (H.doHash2 key % l.capacity) with
    | none => rfl
    | some p =>
      obtain ⟨pos, e⟩ := p
      have hunlink := unlink_found hcap hs
      simp only [Option.map_some, hunlink, ok_bind, toOption_bind, toOption_int,
          count_ofList]
      cases toInt (l.count - 1) <;> rfl

theorem take_ofList (H : RgcFifa.Hasher K) (key : K) (remove : Bool) :
    ((ofList l).take (ofHasher H) false key remove).toOption =
      (l.take H key remove).map (Prod.map id ofList) := by
  have hlock : (ofList l).lock false = .ok (ofList l) := rfl
  rw [HashList.take, hlock, ok_bind, RgcFifa.HashList.take]
  by_cases hcap : l.capacity = 0
  · rw [if_pos hcap, capacity_ofList, hcap]
    rfl
  · rw [modulo_home key hcap, ok_bind, search_home key hcap, ok_bind, if_neg hcap]
    cases hs : l.search (H.doHash2 key) key l.capacity (H.doHash2 key % l.capacity) with
    | none => rfl
    | some p =>
      obtain ⟨pos, e⟩ := p
      have hunlink := unlink_found hcap hs
      cases remove with
      | false => rfl
      | true =>
        simp only [Option.map_some, if_true, hunlink, ok_bind, toOption_bind, toOption_int,
          count_ofList]
        cases toInt (l.count - 1) with
        | none => rfl
        | some count =>
          simp only [Option.bind_some]
          cases toInt (count - 1) <;> rfl

theorem insertLoop_ofList (ent : RgcFifa.HashEntry K V) (n : ℕ) (hpos : pos < l.capacity) :
    (ofList l).insertLoop (ofEntry ent) n pos =
      .ok (Prod.map id ofList (l.insertLoop ent n pos)) := by
  induction n generalizing pos with
  | zero => rfl
  | succ n ih =>
    have hslot : slot (ofList l).entryList (pos : ℤ) = .ok (ofCell (cell l.entryList pos)) :=
      slot_ofCell hpos
    have hstore : store (ofList l).entryList (pos : ℤ) (.entry (ofEntry ent)) =
        .ok ((l.entryList.set pos (.entry ent)).map ofCell) := store_ofCell hpos (.entry ent)
    rw [HashList.insertLoop, hslot, ok_bind, RgcFifa.HashList.insertLoop]
    cases cell l.entryList pos with
    | null =>
      simp only [ofCell, hstore, ok_bind]
      rfl
    | corpse =>
      simp only [ofCell, hstore, ok_bind]
      rfl
    | entry e =>
      have hcap : l.capacity ≠ 0 := by omega
      by_cases hfound : e.hash = ent.hash ∧ e.key = ent.key
      · simp [ofCell, ofEntry, hfound]
      · have hfound' : ¬ ((ofEntry e).hash = (ofEntry ent).hash ∧
            (ofEntry e).key = (ofEntry ent).key) := by
          simpa [ofEntry] using hfound
        simp only [ofCell, if_neg hfound', capacity_ofList, modulo_succ pos hcap, ok_bind,
          if_neg hfound]
        exact ih (Nat.mod_lt _ (Nat.pos_of_ne_zero hcap))

theorem insertInternal_ofList (ent : RgcFifa.HashEntry K V) (hcap : l.capacity ≠ 0) :
    (ofList l).insertInternal false (ofEntry ent) =
      .ok (Prod.map id ofList (l.insertInternal ent)) := by
  have hlock : (ofList l).lock false = .ok (ofList l) := rfl
  have hmod : modulo (ofEntry ent).hash (ofList l).capacity =
      .ok ((ent.hash % l.capacity : ℕ) : ℤ) := by
    rw [capacity_ofList]
    exact modulo_natCast _ hcap
  have hloop := insertLoop_ofList ent l.capacity (Nat.mod_lt ent.hash (Nat.pos_of_ne_zero hcap))
  rw [HashList.insertInternal, hlock, ok_bind, hmod, ok_bind, capacity_ofList, hloop, ok_bind]
  rfl

theorem capacity_insertInternal (ent : RgcFifa.HashEntry K V) (l : RgcFifa.HashList K V) :
    (l.insertInternal ent).2.capacity = l.capacity := by
  by_cases hcap : l.capacity = 0
  · rw [RgcFifa.HashList.insertInternal, hcap]
    exact hcap
  · have hpos := Nat.mod_lt ent.hash (Nat.pos_of_ne_zero hcap)
    rcases @RgcFifa.HashList.insertLoop_cases _ _ l _ ent l.capacity _ hpos with h | ⟨q, _, _, h⟩
    · rw [RgcFifa.HashList.insertInternal, h]
    · rw [RgcFifa.HashList.insertInternal, h]
      exact List.length_set

theorem capacity_rehash (capacity : ℕ) (l : RgcFifa.HashList K V) :
    (l.rehash capacity).capacity = capacity := by
  have hfold : ∀ (es : List (RgcFifa.HashEntry K V)) (new : RgcFifa.HashList K V),
      (es.foldl (fun new entry => (new.insertInternal entry).2) new).capacity = new.capacity := by
    intro es
    induction es with
    | nil => exact fun _ => rfl
    | cons e es ih => exact fun new => (ih _).trans (capacity_insertInternal e new)
  exact (hfold _ _).trans List.length_replicate

theorem foldlM_ofList (es : List (RgcFifa.HashEntry K V)) (hcap : l.capacity ≠ 0) :
    (es.map ofEntry).foldlM (fun new entry => Prod.snd <$> new.insertInternal false entry)
        (ofList l) =
      .ok (ofList (es.foldl (fun new entry => (new.insertInternal entry).2) l)) := by
  induction es generalizing l with
  | nil => rfl
  | cons e es ih =>
    rw [List.map_cons, List.foldlM_cons, insertInternal_ofList e hcap, map_ok, ok_bind]
    have hkeep := capacity_insertInternal e l
    exact ih (l := (l.insertInternal e).2) (by rwa [hkeep])

theorem rehash_ofList {capacity : ℕ} (hcap : capacity ≠ 0) (l : RgcFifa.HashList K V) :
    (ofList l).rehash false capacity = .ok (ofList (l.rehash capacity)) := by
  have hnew : List.replicate capacity (.null : Cell (HashEntry K V)) =
      (List.replicate capacity .null).map ofCell := by
    rw [List.map_replicate]
    rfl
  have hentries : entries (ofList l).entryList = (entries l.entryList).map ofEntry :=
    entries_ofCell _
  rw [HashList.rehash, hentries, hnew]
  exact foldlM_ofList (l := ⟨List.replicate capacity .null, 0⟩) _ (by simpa using hcap)

theorem checkupSpace_ofList (l : RgcFifa.HashList K V) :
    ((ofList l).checkupSpace false).toOption = l.checkupSpace.map ofList := by
  have hlock : (ofList l).lock false = .ok (ofList l) := rfl
  rw [HashList.checkupSpace, toOption_bind, toOption_int, count_ofList,
    RgcFifa.HashList.checkupSpace]
  cases toInt (l.count + l.count >>> (2 : ℕ)) with
  | none => rfl
  | some space =>
    simp only [Option.bind_some, capacity_ofList]
    split_ifs with hgrow
    · rw [hlock, ok_bind, capacity_ofList]
      cases hstep : stepSize.find? (l.capacity < ·) with
      | none => rfl
      | some capacity =>
        have hlt := List.find?_some hstep
        have hcap : capacity ≠ 0 := Nat.ne_of_gt (Nat.zero_lt_of_lt (of_decide_eq_true hlt))
        simp only [rehash_ofList hcap, ok_bind]
        rfl
    · rfl

theorem checkupSpace_capacity (h : Unallocated l) {u : RgcFifa.HashList K V}
    (hu : l.checkupSpace = some u) : u.capacity ≠ 0 := by
  obtain ⟨_, hu⟩ := RgcFifa.HashList.checkupSpace_eq_some.mp hu
  split_ifs at hu with hgrow
  · obtain ⟨capacity, hstep, rfl⟩ := hu
    have hlt := List.find?_some hstep
    rw [capacity_rehash]
    exact Nat.ne_of_gt (Nat.zero_lt_of_lt (of_decide_eq_true hlt))
  · subst hu
    intro hzero
    apply hgrow
    rw [h hzero, hzero]
    decide

theorem insert_ofList (H : RgcFifa.Hasher K) (key : K) (val : V) (h : Unallocated l) :
    ((ofList l).insert (ofHasher H) false key val).toOption =
      (l.insert H key val).map (Prod.map id ofList) := by
  rw [HashList.insert, toOption_bind, checkupSpace_ofList, RgcFifa.HashList.insert, Option.bind_map,
    Option.map_map]
  cases hu : l.checkupSpace with
  | none => rfl
  | some u =>
    have hinsert := insertInternal_ofList ⟨H.doHash2 key, key, val⟩ (checkupSpace_capacity h hu)
    exact congrArg Except.toOption hinsert

section Keeps

variable {H : RgcFifa.Hasher K} {key : K} {u : RgcFifa.HashList K V}

theorem insert_unallocated {val : V} {r : Bool} (h : Unallocated l)
    (hr : l.insert H key val = some (r, u)) : Unallocated u := by
  obtain ⟨v, hv, hu⟩ := Option.map_eq_some_iff.mp hr
  have hcap := checkupSpace_capacity h hv
  rw [← capacity_insertInternal ⟨H.doHash2 key, key, val⟩ v, hu] at hcap
  exact fun hzero => absurd hzero hcap

theorem remove_unallocated {r : Bool} (h : Unallocated l) (hr : l.remove H key = some (r, u)) :
    Unallocated u := by
  rw [RgcFifa.HashList.remove] at hr
  split_ifs at hr with hcap
  split at hr
  · obtain ⟨_, rfl⟩ := Prod.mk.inj (Option.some.inj hr)
    exact h
  · rename_i pos e hs
    obtain ⟨count, _, hu⟩ := Option.map_eq_some_iff.mp hr
    obtain ⟨_, rfl⟩ := Prod.mk.inj hu
    exact fun hzero => absurd ((length_unlink (found_lt hcap hs)).symm.trans hzero) hcap

theorem take_unallocated {remove : Bool} {r : Option V} (h : Unallocated l)
    (hr : l.take H key remove = some (r, u)) : Unallocated u := by
  rw [RgcFifa.HashList.take] at hr
  by_cases hcap : l.capacity = 0
  · rw [if_pos hcap] at hr
    cases hr
  · rw [if_neg hcap] at hr
    split at hr
    · obtain ⟨_, rfl⟩ := Prod.mk.inj (Option.some.inj hr)
      exact h
    · rename_i pos e hs
      split_ifs at hr
      · obtain ⟨count, _, hr⟩ := Option.bind_eq_some_iff.mp hr
        obtain ⟨count', _, hu⟩ := Option.map_eq_some_iff.mp hr
        obtain ⟨_, rfl⟩ := Prod.mk.inj hu
        exact fun hzero => absurd ((length_unlink (found_lt hcap hs)).symm.trans hzero) hcap
      · obtain ⟨_, rfl⟩ := Prod.mk.inj (Option.some.inj hr)
        exact h

end Keeps

end Ops

section Table

theorem onList_ofTable (T : RgcFifa.HashTable K V) (H : RgcFifa.Hasher K) (key : K) {ρ : Type} {f : RgcFifa.HashList K V → Option (ρ × RgcFifa.HashList K V)}
    {g : HashList K V → Except Fault (ρ × HashList K V)}
    (hfg : ∀ l ∈ T.hashLists, (g (ofList l)).toOption = (f l).map (Prod.map id ofList)) :
    ((ofTable T).onList ((ofHasher H).doHash1 key) g).toOption =
      (T.onList H key f).map (Prod.map id ofTable) := by
  have hlen : (ofTable T).capacity = T.capacity := List.length_map ..
  rw [HashTable.onList, hlen, RgcFifa.HashTable.onList, RgcFifa.HashTable.listOf]
  by_cases hcap : T.capacity = 0
  · have hnone : T.hashLists[H.doHash1 key % T.capacity]? = none :=
      List.getElem?_eq_none (by rw [show T.hashLists.length = 0 from hcap]; exact Nat.zero_le _)
    rw [hnone, hcap]
    rfl
  · have hmod : modulo ((ofHasher H).doHash1 key) T.capacity =
        .ok ((H.doHash1 key % T.capacity : ℕ) : ℤ) := modulo_natCast _ hcap
    have hget : (ofTable T).hashLists[H.doHash1 key % T.capacity]? =
        (T.hashLists[H.doHash1 key % T.capacity]?).map ofList := List.getElem?_map ..
    rw [hmod, ok_bind, if_pos (Int.natCast_nonneg _), Int.toNat_natCast, hget]
    cases hl : T.hashLists[H.doHash1 key % T.capacity]? with
    | none => rfl
    | some l =>
      simp only [Option.map_some, Option.bind_some, toOption_bind, hfg l (List.mem_of_getElem? hl)]
      cases f l with
      | none => rfl
      | some p =>
        have hset : (ofTable T).hashLists.set (H.doHash1 key % T.capacity) (ofList p.2) =
            (T.hashLists.set (H.doHash1 key % T.capacity) p.2).map ofList := List.map_set.symm
        simp only [Option.map_some, Option.bind_some, Prod.map, hset]
        rfl

theorem onList_unallocated {ρ : Type} {T : RgcFifa.HashTable K V} {H : RgcFifa.Hasher K}
    {f : RgcFifa.HashList K V → Option (ρ × RgcFifa.HashList K V)} {key : K}
    {p : ρ × RgcFifa.HashTable K V} (h : ∀ l ∈ T.hashLists, Unallocated l)
    (hf : ∀ l r u, Unallocated l → f l = some (r, u) → Unallocated u)
    (hp : T.onList H key f = some p) : ∀ l ∈ p.2.hashLists, Unallocated l := by
  obtain ⟨l, hl, hp⟩ := Option.bind_eq_some_iff.mp hp
  obtain ⟨⟨r, u⟩, hu, rfl⟩ := Option.map_eq_some_iff.mp hp
  intro v hv
  rcases List.mem_or_eq_of_mem_set hv with hv | rfl
  · exact h v hv
  · exact hf l r v (h l (List.mem_of_getElem? hl)) hu

theorem mapM_reset_ofList (ls : List (RgcFifa.HashList K V)) :
    (ls.map ofList).mapM (·.reset false) = .ok ((ls.map RgcFifa.HashList.reset).map ofList) := by
  induction ls with
  | nil => rfl
  | cons l ls ih =>
    rw [List.map_cons, List.mapM_cons, reset_ofList, ok_bind, ih]
    rfl

variable [DecidableEq K] {T : RgcFifa.HashTable K V} {H : RgcFifa.Hasher K}

theorem exec_ofTable (op : HashOp K V) (h : ∀ l ∈ T.hashLists, Unallocated l) :
    ((ofTable T).exec (ofHasher H) false op).toOption =
      (T.exec H op).map (Prod.map id ofTable) := by
  cases op with
  | insert key val =>
    have hlist := onList_ofTable T H key fun l hl => insert_ofList H key val (h l hl)
    rw [HashTable.exec, toOption_map, hlist, RgcFifa.HashTable.exec, RgcFifa.HashTable.insert,
      Option.map_map, Option.map_map]
    rfl
  | remove key =>
    have hlist := onList_ofTable T H key fun l _ => remove_ofList (l := l) H key
    rw [HashTable.exec, toOption_map, hlist, RgcFifa.HashTable.exec, RgcFifa.HashTable.remove,
      Option.map_map, Option.map_map]
    rfl
  | take key remove =>
    have hlist := onList_ofTable T H key fun l _ => take_ofList (l := l) H key remove
    rw [HashTable.exec, toOption_map, hlist, RgcFifa.HashTable.exec, RgcFifa.HashTable.take,
      Option.map_map, Option.map_map]
    rfl
  | reset =>
    have hreset : (ofTable T).hashLists.mapM (·.reset false) = .ok _ := mapM_reset_ofList T.hashLists
    rw [HashTable.exec, hreset]
    rfl

theorem exec_unallocated {op : HashOp K V} {p : HashReply V × RgcFifa.HashTable K V}
    (h : ∀ l ∈ T.hashLists, Unallocated l) (hp : T.exec H op = some p) :
    ∀ l ∈ p.2.hashLists, Unallocated l := by
  cases op with
  | insert key val =>
    obtain ⟨q, hq, rfl⟩ := Option.map_eq_some_iff.mp hp
    have hlists := onList_unallocated (f := (·.insert H key val)) (p := q) h
      (fun _ _ _ => insert_unallocated) hq
    exact hlists
  | remove key =>
    obtain ⟨q, hq, rfl⟩ := Option.map_eq_some_iff.mp hp
    have hlists := onList_unallocated (f := (·.remove H key)) (p := q) h
      (fun _ _ _ => remove_unallocated) hq
    exact hlists
  | take key remove =>
    obtain ⟨q, hq, rfl⟩ := Option.map_eq_some_iff.mp hp
    have hlists := onList_unallocated (f := (·.take H key remove)) (p := q) h
      (fun _ _ _ => take_unallocated) hq
    exact hlists
  | reset =>
    rw [← Option.some.inj hp]
    intro l hl
    obtain ⟨v, hv, rfl⟩ := List.mem_map.mp hl
    exact reset_unallocated (h v hv)

/-- Without hashes below zero and without the mutex the two models run alike: a call comes to an
end in both or in neither. -/
theorem run_ofTable (H : RgcFifa.Hasher K) (capacity : ℕ) (ops : List (HashOp K V)) :
    run (HashTable.next (ofHasher H) false) ops (HashTable.start capacity) =
      (run (fun op T => (T.exec H op).map Prod.snd) ops
        (RgcFifa.HashTable.start capacity)).map ofTable := by
  have hrun : ∀ T : RgcFifa.HashTable K V, (∀ l ∈ T.hashLists, Unallocated l) →
      run (HashTable.next (ofHasher H) false) ops (ofTable T) =
        (run (fun op T => (T.exec H op).map Prod.snd) ops T).map ofTable := by
    induction ops with
    | nil => exact fun _ _ => rfl
    | cons op ops ih =>
      intro T h
      rw [run, run, HashTable.next, exec_ofTable op h]
      cases hp : T.exec H op with
      | none => rfl
      | some p => exact ih p.2 (exec_unallocated h hp)
  have hstart : ofTable (RgcFifa.HashTable.start capacity) =
      (HashTable.start capacity : HashTable K V) := by
    rw [ofTable, RgcFifa.HashTable.start, List.map_replicate]
    rfl
  rw [← hstart]
  apply hrun
  intro l hl
  rw [List.eq_of_mem_replicate hl]
  exact fun _ => rfl

end Table

end RgcFifa.Signed
