import RgcFifa.HashList
import RgcFifa.Lib.Replies

/-! `HashTable`, an array of `HashList`s, against the partial map that it is meant to be. -/

namespace RgcFifa

/-- `_capacity` is the length of `hashLists`. -/
structure HashTable (K V : Type*) where
  hashLists : List (HashList K V)
  deriving DecidableEq, Repr

inductive HashOp (K V : Type*) where
  | insert (key : K) (val : V)
  | remove (key : K)
  | take (key : K) (remove : Bool)
  | reset

/-- What a call returns; `take` leaves a value only when it returns true. -/
inductive HashReply (V : Type*) where
  | inserted (ok : Bool)
  | removed (ok : Bool)
  | taken (val : Option V)
  | reset
  deriving DecidableEq, Repr

variable {K V : Type*}

section Exec

variable [DecidableEq K]

/-- The same call on a partial map. -/
def mapExec : HashOp K V → (K → Option V) → HashReply V × (K → Option V)
  | .insert key val, m =>
    match m key with
    | none => (.inserted true, Function.update m key (some val))
    | some _ => (.inserted false, m)
  | .remove key, m =>
    match m key with
    | none => (.removed false, m)
    | some _ => (.removed true, Function.update m key none)
  | .take key remove, m =>
    match m key with
    | none => (.taken none, m)
    | some v => (.taken (some v), if remove then Function.update m key none else m)
  | .reset, _ => (.reset, fun _ => none)

theorem mapExec_insert (key : K) (val : V) (m : K → Option V) : mapExec (.insert key val) m =
    (.inserted (m key).isNone, Function.update m key ((m key).or (some val))) := by
  have hself := Function.update_eq_self key m
  cases hk : m key with
  | none => simp [mapExec, hk]
  | some v =>
    rw [hk] at hself
    simp [mapExec, hk, hself]

theorem mapExec_remove (key : K) (m : K → Option V) : mapExec (.remove key) m =
    (.removed (m key).isSome, Function.update m key none) := by
  have hself := Function.update_eq_self key m
  cases hk : m key with
  | none =>
    rw [hk] at hself
    simp [mapExec, hk, hself]
  | some v => simp [mapExec, hk]

theorem mapExec_take (key : K) (remove : Bool) (m : K → Option V) :
    mapExec (.take key remove) m =
      (.taken (m key), if remove then Function.update m key none else m) := by
  have hself := Function.update_eq_self key m
  cases hk : m key with
  | none =>
    rw [hk] at hself
    simp [mapExec, hk, hself]
  | some v => simp [mapExec, hk]

end Exec

namespace HashTable

def start (capacity : ℕ) : HashTable K V := ⟨List.replicate capacity .empty⟩

abbrev capacity (t : HashTable K V) : ℕ := t.hashLists.length

/-- `_hashLists[hash % _capacity]`, which a table without lists does not have. -/
def listOf (H : Hasher K) (key : K) (t : HashTable K V) : Option (HashList K V) :=
  t.hashLists[H.doHash1 key % t.capacity]?

def setList (H : Hasher K) (key : K) (l : HashList K V) (t : HashTable K V) : HashTable K V :=
  ⟨t.hashLists.set (H.doHash1 key % t.capacity) l⟩

/-- A call on the list of the key. -/
def onList {ρ : Type*} (H : Hasher K) (key : K)
    (f : HashList K V → Option (ρ × HashList K V)) (t : HashTable K V) :
    Option (ρ × HashTable K V) :=
  (t.listOf H key).bind fun l => (f l).map fun (r, l) => (r, t.setList H key l)

section Ops

variable [DecidableEq K]

def insert (H : Hasher K) (key : K) (val : V) (t : HashTable K V) : Option (Bool × HashTable K V) :=
  t.onList H key (·.insert H key val)

def remove (H : Hasher K) (key : K) (t : HashTable K V) : Option (Bool × HashTable K V) :=
  t.onList H key (·.remove H key)

def take (H : Hasher K) (key : K) (remove : Bool) (t : HashTable K V) :
    Option (Option V × HashTable K V) :=
  t.onList H key (·.take H key remove)

def reset (t : HashTable K V) : HashTable K V := ⟨t.hashLists.map HashList.reset⟩

def exec (H : Hasher K) : HashOp K V → HashTable K V → Option (HashReply V × HashTable K V)
  | .insert key val, t => (t.insert H key val).map (Prod.map .inserted id)
  | .remove key, t => (t.remove H key).map (Prod.map .removed id)
  | .take key remove, t => (t.take H key remove).map (Prod.map .taken id)
  | .reset, t => some (.reset, t.reset)

/-- The list of the key is in a state in which the call does its work. -/
def Ok (H : Hasher K) : HashOp K V → HashTable K V → Prop
  | .insert key _, t => ∃ l ∈ t.listOf H key, l.InsertOk H key
  | .remove key, t => ∃ l ∈ t.listOf H key, l.RemoveOk H key
  | .take key remove, t => ∃ l ∈ t.listOf H key, l.TakeOk H key remove
  | .reset, _ => True

instance (H : Hasher K) : ∀ (op : HashOp K V) (t : HashTable K V), Decidable (Ok H op t)
  | .insert key _, t => inferInstanceAs (Decidable (∃ l ∈ t.listOf H key, l.InsertOk H key))
  | .remove key, t => inferInstanceAs (Decidable (∃ l ∈ t.listOf H key, l.RemoveOk H key))
  | .take key remove, t =>
      inferInstanceAs (Decidable (∃ l ∈ t.listOf H key, l.TakeOk H key remove))
  | .reset, _ => .isTrue trivial

def get (H : Hasher K) (t : HashTable K V) (key : K) : Option V :=
  (t.listOf H key).bind (·.get key)

end Ops

def Inv (H : Hasher K) (t : HashTable K V) : Prop := ∀ l ∈ t.hashLists, l.Inv H

variable {H : Hasher K} {t : HashTable K V} {l l' : HashList K V} {key : K}

theorem Inv.list (h : t.Inv H) (hl : t.listOf H key = some l) : l.Inv H :=
  h l (List.mem_of_getElem? hl)

theorem Inv.setList (h : t.Inv H) (hl' : l'.Inv H) (key : K) : (t.setList H key l').Inv H := by
  intro u hu
  rcases List.mem_or_eq_of_mem_set hu with hu | rfl
  · exact h u hu
  · exact hl'

theorem inv_start (H : Hasher K) (capacity : ℕ) : (start capacity : HashTable K V).Inv H := by
  intro l hl
  rw [List.eq_of_mem_replicate hl]
  exact HashList.inv_empty H

theorem onList_of_some {ρ : Type*} {f : HashList K V → Option (ρ × HashList K V)} {r : ρ}
    (hl : t.listOf H key = some l) (hf : f l = some (r, l')) :
    t.onList H key f = some (r, t.setList H key l') := by
  rw [onList, hl, Option.bind_some, hf, Option.map_some]

theorem onList_eq_some {ρ : Type*} {f : HashList K V → Option (ρ × HashList K V)} {r : ρ}
    {t' : HashTable K V} (h : t.onList H key f = some (r, t')) :
    ∃ l l', t.listOf H key = some l ∧ f l = some (r, l') := by
  obtain ⟨l, hl, h⟩ := Option.bind_eq_some_iff.mp h
  obtain ⟨⟨r', l'⟩, hf, he⟩ := Option.map_eq_some_iff.mp h
  obtain ⟨rfl, _⟩ := Prod.mk.inj he
  exact ⟨l, l', hl, hf⟩

section Refinement

variable [DecidableEq K]

theorem get_eq (hl : t.listOf H key = some l) : t.get H key = l.get key := by
  rw [get, hl, Option.bind_some]

theorem get_setList (hl : t.listOf H key = some l) {x : Option V}
    (hget : ∀ k, l'.get k = if k = key then x else l.get k) :
    (t.setList H key l').get H = Function.update (t.get H) key x := by
  obtain ⟨hlt, _⟩ := List.getElem?_eq_some_iff.mp hl
  have hcap : (t.setList H key l').capacity = t.capacity := List.length_set
  funext k
  rw [Function.update_apply]
  by_cases hi : H.doHash1 k % t.capacity = H.doHash1 key % t.capacity
  · have hlist : (t.setList H key l').listOf H k = some l' := by
      rw [listOf, hcap, hi]
      exact List.getElem?_set_self hlt
    have hold : t.listOf H k = some l := by rw [listOf, hi]; exact hl
    rw [get_eq hlist, hget, get_eq hold]
  · have hne : k ≠ key := fun hk => hi (by rw [hk])
    have hlist : (t.setList H key l').listOf H k = t.listOf H k := by
      rw [listOf, hcap]
      exact List.getElem?_set_ne (Ne.symm hi)
    rw [get, hlist, if_neg hne]
    rfl

theorem get_setList_self (hl : t.listOf H key = some l) (hget : ∀ k, l'.get k = l.get k) :
    (t.setList H key l').get H = t.get H := by
  have hself : ∀ k, l'.get k = if k = key then l.get key else l.get k := by
    intro k
    split_ifs with hk
    · rw [hk, hget]
    · exact hget k
  rw [get_setList hl hself, ← get_eq hl, Function.update_eq_self]

theorem get_start (H : Hasher K) (capacity : ℕ) :
    (start capacity : HashTable K V).get H = fun _ => none := by
  funext k
  cases hl : (start capacity : HashTable K V).listOf H k with
  | none => rw [get, hl]; rfl
  | some l =>
    rw [get_eq hl, List.eq_of_mem_replicate (List.mem_of_getElem? hl)]
    rfl

theorem Inv.reset (h : t.Inv H) : t.reset.Inv H ∧ t.reset.get H = fun _ => none := by
  constructor
  · intro l hl
    obtain ⟨u, hu, rfl⟩ := List.mem_map.mp hl
    exact (h u hu).reset.1
  · funext k
    cases hl : t.reset.listOf H k with
    | none => rw [get, hl]; rfl
    | some l =>
      obtain ⟨u, hu, rfl⟩ := List.mem_map.mp (List.mem_of_getElem? hl)
      rw [get_eq hl]
      exact (h u hu).reset.2 k

theorem exec_ok (op : HashOp K V) (h : t.Inv H) (hok : Ok H op t) :
    ∃ t', exec H op t = some ((mapExec op (t.get H)).1, t') ∧ t'.Inv H ∧
      t'.get H = (mapExec op (t.get H)).2 := by
  cases op with
  | insert key val =>
    obtain ⟨l, hl, hok⟩ := hok
    obtain ⟨l', hins, hinv, hget⟩ := (h.list hl).insert_ok hok val
    have hbind : ∀ k, l'.get k = if k = key then (l.get key).or (some val) else l.get k := by
      intro k
      rw [hget]
      by_cases hk : k = key
      · cases hv : l.get key <;> simp [hk, hv]
      · simp [hk]
    refine ⟨t.setList H key l', ?_, h.setList hinv key, ?_⟩
    · rw [exec, insert, onList_of_some hl hins, mapExec_insert, get_eq hl]
      rfl
    · rw [get_setList hl hbind, mapExec_insert, get_eq hl]
  | remove key =>
    obtain ⟨l, hl, hok⟩ := hok
    obtain ⟨l', hrem, hinv, hget⟩ := (h.list hl).remove_ok hok
    refine ⟨t.setList H key l', ?_, h.setList hinv key, ?_⟩
    · rw [exec, remove, onList_of_some hl hrem, mapExec_remove, get_eq hl]
      rfl
    · rw [get_setList hl hget, mapExec_remove]
  | take key remove =>
    obtain ⟨l, hl, hok⟩ := hok
    obtain ⟨l', htake, hinv, hget⟩ := (h.list hl).take_ok hok
    refine ⟨t.setList H key l', ?_, h.setList hinv key, ?_⟩
    · rw [exec, take, onList_of_some hl htake, mapExec_take, get_eq hl]
      rfl
    · rw [mapExec_take]
      cases remove with
      | false => exact get_setList_self hl (by simpa using hget)
      | true => exact get_setList hl (by simpa using hget)
  | reset => exact ⟨_, rfl, h.reset⟩

theorem exec_wrong (op : HashOp K V) (h : t.Inv H) (hok : ¬ Ok H op t) {r : HashReply V}
    {t' : HashTable K V} (hr : exec H op t = some (r, t')) : r ≠ (mapExec op (t.get H)).1 := by
  cases op with
  | insert key val =>
    obtain ⟨⟨ok, u⟩, hins, he⟩ := Option.map_eq_some_iff.mp hr
    obtain ⟨l, l', hl, hins⟩ := onList_eq_some hins
    have hne := (h.list hl).insert_wrong (fun hh => hok ⟨l, hl, hh⟩) hins
    obtain ⟨rfl, _⟩ := Prod.mk.inj he
    rw [mapExec_insert, get_eq hl]
    exact fun hh => hne (HashReply.inserted.inj hh)
  | remove key =>
    obtain ⟨⟨ok, u⟩, hrem, he⟩ := Option.map_eq_some_iff.mp hr
    obtain ⟨l, l', hl, hrem⟩ := onList_eq_some hrem
    have hne := (h.list hl).remove_wrong (fun hh => hok ⟨l, hl, hh⟩) hrem
    obtain ⟨rfl, _⟩ := Prod.mk.inj he
    rw [mapExec_remove, get_eq hl]
    exact fun hh => hne (HashReply.removed.inj hh)
  | take key remove =>
    obtain ⟨⟨val, u⟩, htake, he⟩ := Option.map_eq_some_iff.mp hr
    obtain ⟨l, l', hl, htake⟩ := onList_eq_some htake
    have hne := (h.list hl).take_wrong (fun hh => hok ⟨l, hl, hh⟩) htake
    obtain ⟨rfl, _⟩ := Prod.mk.inj he
    rw [mapExec_take, get_eq hl]
    exact fun hh => hne (HashReply.taken.inj hh)
  | reset => exact absurd trivial hok

theorem refines (H : Hasher K) :
    Replies.Refines (exec H) (mapExec (V := V)) (get H) (Inv H) (Ok H) where
  ok _ _ := exec_ok _
  wrong _ _ _ _ h hok hr := exec_wrong _ h hok hr

end Refinement

end HashTable

/-- Every call returns what it returns of the map exactly when every call finds the list of its
key in such a state. Then the table binds what the map binds, and growing changes no list. -/
theorem hashTable_replies_iff [DecidableEq K] (H : Hasher K) (capacity : ℕ)
    (ops : List (HashOp K V)) :
    (Replies.replies (HashTable.exec H) ops (HashTable.start capacity) =
        some (Replies.answers mapExec ops fun _ => none) ↔
      Transition.Always (Replies.next (HashTable.exec H)) (HashTable.Ok H) ops
        (HashTable.start capacity)) ∧
    (Transition.Always (Replies.next (HashTable.exec H)) (HashTable.Ok H) ops
        (HashTable.start capacity) →
      ∃ t, Transition.run (Replies.next (HashTable.exec H)) ops (HashTable.start capacity) = some t ∧
        t.get H = Replies.after mapExec ops (fun _ => none) ∧
        ∀ l ∈ t.hashLists, ∀ u, l.checkupSpace = some u → ∀ key, u.get key = l.get key) := by
  have hrefines := HashTable.refines (V := V) H
  have hinv := HashTable.inv_start (V := V) H capacity
  rw [← HashTable.get_start H capacity]
  refine ⟨hrefines.replies_iff ops hinv, fun hok => ?_⟩
  obtain ⟨t, ht, hI, hget⟩ := hrefines.run hinv hok
  refine ⟨t, ht, hget, fun l hl u hu => ?_⟩
  exact HashList.get_congr ((hI l hl).checkupSpace hu).2

/-- The hashes of `HashTableHasher` for keys that are not negative. -/
def HashTableHasher : Hasher ℕ := ⟨id, id⟩

theorem hashTable_binds : ∃ t, Transition.run (Replies.next (HashTable.exec HashTableHasher))
    [.insert 1 7, .insert 258 8, .take 258 true, .insert 258 9, .remove 1] (HashTable.start 257) =
      some t ∧ t.get HashTableHasher 258 = some 9 ∧ t.get HashTableHasher 1 = none := by
  obtain ⟨t, ht, hget, _⟩ := (hashTable_replies_iff HashTableHasher 257
    [.insert 1 7, .insert 258 8, .take 258 true, .insert 258 9, .remove 1]).2 (by decide +kernel)
  exact ⟨t, ht, by rw [hget]; rfl, by rw [hget]; rfl⟩

/-- The calls that find no list, or come to the corpse of key 0: the keys 0 and 4369 share a
list and their place in it. -/
theorem hashTable_differs :
    Replies.replies (HashTable.exec HashTableHasher) [HashOp.remove 5] (HashTable.start 257) ≠
      some (Replies.answers mapExec [HashOp.remove (V := ℕ) 5] fun _ => none) ∧
    Replies.replies (HashTable.exec HashTableHasher)
        [.insert 0 1, .insert 4369 2, .remove 0, .take 4369 false] (HashTable.start 257) =
      some [.inserted true, .inserted true, .removed true, .taken none] ∧
    Replies.answers mapExec [.insert 0 1, .insert 4369 2, .remove 0, .take 4369 false]
      (fun _ => none) = [.inserted true, .inserted true, .removed true, .taken (some 2)] ∧
    Replies.replies (HashTable.exec HashTableHasher)
        [.insert 0 1, .insert 4369 2, .remove 0, .insert 4369 3] (HashTable.start 257) =
      some [.inserted true, .inserted true, .removed true, .inserted true] ∧
    Replies.answers mapExec [.insert 0 1, .insert 4369 2, .remove 0, .insert 4369 3]
      (fun _ => none) = [.inserted true, .inserted true, .removed true, .inserted false] := by
  decide +kernel

end RgcFifa
