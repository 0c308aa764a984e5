import RgcFifa.HashOutcome

/-! Runs of a signed `HashTable`, in which every slot is to be one of the table, and of a signed
`HashList`, which is not to wait for its own mutex. -/

namespace RgcFifa.Signed

open Probing Transition Faulting

variable {K V : Type} {H : Hasher K} {useMutex : Bool}

namespace HashTable

variable {t : HashTable K V}

/-- The list that a hash leads to. -/
def bucket (hash : ℤ) (t : HashTable K V) : Option (HashList K V) :=
  if Lands hash t.capacity then t.hashLists[(hash.tmod t.capacity).toNat]? else none

/-- In `[0, capacity)`, also in the list that the hash leads to. -/
def KeyLands (hash : ℤ) (inner : HashList K V → Prop) (t : HashTable K V) : Prop :=
  Lands hash t.capacity ∧ ∀ l ∈ t.bucket hash, inner l

def OpLands (H : Hasher K) (useMutex : Bool) : HashOp K V → HashTable K V → Prop
  | .insert key val, t =>
      t.KeyLands (H.doHash1 key) (HashList.OpLands H useMutex (.insert key val))
  | .remove key, t => t.KeyLands (H.doHash1 key) (HashList.OpLands H useMutex (.remove key))
  | .take key remove, t =>
      t.KeyLands (H.doHash1 key) (HashList.OpLands H useMutex (.take key remove))
  | .reset, _ => True

/-- No list holds its mutex. -/
def Released (t : HashTable K V) : Prop := ∀ l ∈ t.hashLists, l.locked = false

theorem released_start (capacity : ℕ) : (start capacity : HashTable K V).Released := by
  intro l hl
  rw [List.eq_of_mem_replicate hl]
  rfl

theorem onList_outcome {ρ : Type} {hash : ℤ} {lands locks : HashList K V → Prop}
    {f : HashList K V → Except Fault (ρ × HashList K V)} (h : t.Released)
    (hf : ∀ l : HashList K V, l.locked = false →
      Outcome (lands l) (locks l) (fun r => r.2.locked = false) (f l)) :
    Outcome (t.KeyLands hash lands) (∃ l ∈ t.bucket hash, locks l) (fun r => r.2.Released)
      (t.onList hash f) := by
  by_cases hlands : Lands hash t.capacity
  · have hnonneg := (lands_iff.mp hlands).2
    have hmod : modulo hash t.capacity = .ok (hash.tmod t.capacity) := if_neg hlands.1
    have hpos : (0 : ℤ) < t.capacity := by exact_mod_cast Nat.pos_of_ne_zero hlands.1
    have hlt : (hash.tmod t.capacity).toNat < t.hashLists.length :=
      (Int.toNat_lt hnonneg).mpr (Int.tmod_lt_of_pos hash hpos)
    obtain ⟨l, hl⟩ : ∃ l, t.hashLists[(hash.tmod t.capacity).toNat]? = some l :=
      ⟨_, List.getElem?_eq_getElem hlt⟩
    have hmem : l ∈ t.hashLists := List.mem_of_getElem? hl
    have hbucket : t.bucket hash = some l := by rw [bucket, if_pos hlands, hl]
    have hkey : t.KeyLands hash lands ↔ lands l := by simp [KeyLands, hbucket, hlands]
    have hlocks : (∃ l ∈ t.bucket hash, locks l) ↔ locks l := by simp [hbucket]
    have hout := hf l (h l hmem)
    rw [hkey, hlocks, onList, hmod, ok_bind, if_pos hnonneg]
    simp only [hl]
    cases hr : f l with
    | ok r =>
      rw [hr] at hout
      rw [ok_bind]
      refine ⟨hout.1, hout.2.1, fun u hu => ?_⟩
      rcases List.mem_or_eq_of_mem_set hu with hu | rfl
      · exact h u hu
      · exact hout.2.2
    | error e =>
      rw [hr] at hout
      cases e <;> exact hout
  · have hnot : ¬ t.KeyLands hash lands := fun hh => hlands hh.1
    have hlocks : ¬ ∃ l ∈ t.bucket hash, locks l := by
      rw [bucket, if_neg hlands]
      simp
    rcases modulo_of_not_lands hlands with hmod | ⟨pos, hmod, hneg, hcap⟩
    · rw [onList, hmod, error_bind]
      exact ⟨hnot, hlocks⟩
    · rw [onList, hmod, ok_bind, if_neg (not_le.mpr hneg)]
      exact ⟨hnot, hlocks⟩

theorem mapM_reset {ls : List (HashList K V)} (h : ∀ l ∈ ls, l.locked = false) :
    ∃ us, ls.mapM (·.reset useMutex) = .ok us ∧ ∀ u ∈ us, u.locked = false := by
  induction ls with
  | nil => exact ⟨[], rfl, by simp⟩
  | cons l ls ih =>
    obtain ⟨hhead, htail⟩ := List.forall_mem_cons.mp h
    obtain ⟨u, hu, hlocked⟩ := HashList.reset_ok useMutex hhead
    obtain ⟨us, hus, hrest⟩ := ih htail
    refine ⟨u :: us, ?_, List.forall_mem_cons.mpr ⟨hlocked, hrest⟩⟩
    rw [List.mapM_cons, hu, ok_bind, hus]
    rfl

variable [DecidableEq K]

theorem exec_outcome (H : Hasher K) (useMutex : Bool) (op : HashOp K V) (h : t.Released) :
    ∃ locks, Outcome (OpLands H useMutex op t) locks (fun r => r.2.Released)
      (t.exec H useMutex op) := by
  cases op with
  | insert key val =>
    exact ⟨_, (onList_outcome h fun l => HashList.insert_outcome H useMutex key val).map
      fun _ hr => hr⟩
  | remove key =>
    exact ⟨_, (onList_outcome h fun l => HashList.remove_outcome H useMutex key).map
      fun _ hr => hr⟩
  | take key remove =>
    exact ⟨_, (onList_outcome h fun l => HashList.take_outcome H useMutex key remove).map
      fun _ hr => hr⟩
  | reset =>
    obtain ⟨us, hus, hlocked⟩ := @mapM_reset _ _ useMutex _ h
    refine ⟨False, ?_⟩
    rw [exec, hus, ok_bind]
    exact ⟨trivial, id, hlocked⟩

def next (H : Hasher K) (useMutex : Bool) (op : HashOp K V) (t : HashTable K V) :
    Option (HashTable K V) :=
  (t.exec H useMutex op).toOption.map Prod.snd

/-- No modulus by 0, and no slot outside of `[0, capacity)`. -/
def Defined (H : Hasher K) (useMutex : Bool) (op : HashOp K V) (t : HashTable K V) : Prop :=
  t.exec H useMutex op ≠ .error .modulus ∧ t.exec H useMutex op ≠ .error .index

theorem Released.next (h : t.Released) {op : HashOp K V} {u : HashTable K V}
    (hu : t.next H useMutex op = some u) : u.Released := by
  obtain ⟨locks, hout⟩ := exec_outcome H useMutex op h
  cases hr : t.exec H useMutex op with
  | ok r =>
    rw [HashTable.next, hr] at hu
    obtain rfl := Option.some.inj hu
    exact hout.returns hr
  | error e =>
    rw [HashTable.next, hr] at hu
    cases hu

end HashTable

namespace HashList

variable [DecidableEq K] {l : HashList K V}

def next (H : Hasher K) (useMutex : Bool) (op : HashOp K V) (l : HashList K V) :
    Option (HashList K V) :=
  (l.exec H useMutex op).toOption.map Prod.snd

/-- The mutex is not locked twice, and it is free when the call returns. -/
def Unlocks (H : Hasher K) (useMutex : Bool) (op : HashOp K V) (l : HashList K V) : Prop :=
  l.exec H useMutex op ≠ .error .deadlock ∧
    ∀ r u, l.exec H useMutex op = .ok (r, u) → u.locked = false

theorem next_locked (h : l.locked = false) {op : HashOp K V} {u : HashList K V}
    (hu : l.next H useMutex op = some u) : u.locked = false := by
  have hout := exec_outcome H useMutex op h
  cases hr : l.exec H useMutex op with
  | ok r =>
    rw [next, hr] at hu
    obtain rfl := Option.some.inj hu
    exact hout.returns hr
  | error e =>
    rw [next, hr] at hu
    cases hu

end HashList

/-- The slots of a run are slots of the table exactly when every hash lands that it takes a
remainder of. -/
theorem hashTable_defined_iff (useMutex : Bool) (capacity : ℕ) (ops : List (HashOp ℤ V)) :
    Always (HashTable.next HashTableHasher useMutex) (HashTable.Defined HashTableHasher useMutex) ops
        (HashTable.start capacity) ↔
      Always (HashTable.next HashTableHasher useMutex) (HashTable.OpLands HashTableHasher useMutex)
        ops (HashTable.start capacity) := by
  refine always_congr (I := HashTable.Released) (fun _ _ _ h => h.next) ?_
    (HashTable.released_start capacity)
  intro op t h
  obtain ⟨locks, hout⟩ := HashTable.exec_outcome HashTableHasher useMutex op h
  exact hout.lands_iff

/-- A list that has no entries yet, a key below 0 and a key below 0 that is a multiple of the
capacity of the table. -/
theorem hashTable_undefined :
    (HashTable.start 257 : HashTable ℤ ℕ).exec HashTableHasher true (.remove 5) =
      .error .modulus ∧
    (HashTable.start 257).exec HashTableHasher true (.insert (-1) 7) = .error .index ∧
    (HashTable.start 257).exec HashTableHasher true (.insert (2 ^ 32 - 1) 7) = .error .index ∧
    (HashTable.start 257).exec HashTableHasher true (.insert (-257) 7) = .error .index := by
  decide +kernel

/-- A run does not wait for its own mutex exactly when no list grows that has entries. -/
theorem hashList_mutex_iff [DecidableEq K] (H : Hasher K) (ops : List (HashOp K V)) :
    Always (HashList.next H true) (HashList.Unlocks H true) ops HashList.empty ↔
      Always (HashList.next H true) (fun op l => ¬ l.OpLocks true op) ops HashList.empty := by
  refine always_congr (I := fun l => l.locked = false) (fun _ _ _ h => HashList.next_locked h) ?_ rfl
  intro op l h
  have hout := HashList.exec_outcome H true op h
  rw [← hout.locks_iff]
  refine and_iff_left fun r u hr => ?_
  exact hout.returns hr

/-- The fifteenth entry finds 14 that have to move. -/
theorem hashList_locksOut : ∃ l, run (HashList.next HashTableHasher true)
    ((List.range 14).map fun key => .insert (key : ℤ) 7) HashList.empty = some l ∧
      l.exec HashTableHasher true (.insert 14 7) = .error .deadlock := by
  apply exists_run
  decide +kernel

end RgcFifa.Signed
