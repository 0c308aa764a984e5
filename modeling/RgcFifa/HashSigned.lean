import RgcFifa.HashTable

/-! `HashTable` and `HashList` with hashes that may be negative, as `%` leaves them. Every
division, every index and the mutex of a list are checked. -/

namespace RgcFifa

open Probing

/-- Why a call does not return. -/
inductive Fault where
  | modulus
  | index
  | overflow
  | step
  | deadlock
  deriving DecidableEq, Repr

namespace Signed

variable {ε K V : Type}

/-- `%` of an `int`, which has the sign of the dividend. -/
def modulo (x : ℤ) (capacity : ℕ) : Except Fault ℤ :=
  if capacity = 0 then .error .modulus else .ok (x.tmod capacity)

def slot (t : List (Cell ε)) (pos : ℤ) : Except Fault (Cell ε) :=
  if 0 ≤ pos ∧ pos < t.length then .ok (cell t pos.toNat) else .error .index

def store (t : List (Cell ε)) (pos : ℤ) (c : Cell ε) : Except Fault (List (Cell ε)) :=
  if 0 ≤ pos ∧ pos < t.length then .ok (t.set pos.toNat c) else .error .index

def int (x : ℤ) : Except Fault ℤ :=
  match toInt x with
  | some x => .ok x
  | none => .error .overflow

structure Hasher (K : Type) where
  doHash1 : K → ℤ
  doHash2 : K → ℤ

/-- `static_cast<int>` of a key, whatever its integer type. -/
def HashTableHasher : Hasher ℤ := ⟨(Int.bmod · (2 ^ 32)), (Int.bmod · (2 ^ 32))⟩

structure HashEntry (K V : Type) where
  hash : ℤ
  key : K
  value : V
  deriving DecidableEq, Repr

/-- `locked` is whether `_mutex` is held. -/
structure HashList (K V : Type) where
  entryList : List (Cell (HashEntry K V))
  count : ℤ
  locked : Bool
  deriving DecidableEq, Repr

namespace HashList

def empty : HashList K V := ⟨[], 0, false⟩

abbrev capacity (l : HashList K V) : ℕ := l.entryList.length

/-- A `FastMutex` is not recursive. -/
def lock (useMutex : Bool) (l : HashList K V) : Except Fault (HashList K V) :=
  if useMutex then
    if l.locked then .error .deadlock else .ok { l with locked := true }
  else .ok l

def unlock (useMutex : Bool) (l : HashList K V) : HashList K V :=
  if useMutex then { l with locked := false } else l

section Ops

variable [DecidableEq K]

/-- The loop that `remove` and `take` share, for `n` more rounds. -/
def search (hash : ℤ) (key : K) (l : HashList K V) :
    ℕ → ℤ → Except Fault (Option (ℤ × HashEntry K V))
  | 0, _ => .ok none
  | n + 1, pos => do
    match ← slot l.entryList pos with
    | .null => .ok none
    -- `continue` leaves `pos` as it is
    | .corpse => search hash key l n pos
    | .entry entry =>
        if entry.hash = hash ∧ entry.key = key then .ok (some (pos, entry))
        else search hash key l n (← modulo (pos + 1) l.capacity)

/-- `-- pos`, and round the ring below 0. -/
def before (capacity : ℕ) (pos : ℤ) : ℤ := if pos - 1 < 0 then capacity - 1 else pos - 1

/-- The loop over the corpses that end before an empty cell. -/
def clean (entryList : List (Cell (HashEntry K V))) :
    ℕ → ℤ → Except Fault (List (Cell (HashEntry K V)))
  | 0, _ => .ok entryList
  | n + 1, pos => do
    match ← slot entryList pos with
    | .corpse => clean (← store entryList pos .null) n (before entryList.length pos)
    | _ => .ok entryList

/-- What `remove` and `take` leave of a deleted entry. -/
def unlink (pos : ℤ) (entryList : List (Cell (HashEntry K V))) :
    Except Fault (List (Cell (HashEntry K V))) := do
  match ← slot entryList (← modulo (pos + 1) entryList.length) with
  | .null => clean (← store entryList pos .null) entryList.length (before entryList.length pos)
  | _ => store entryList pos .corpse

def remove (H : Hasher K) (useMutex : Bool) (key : K) (l : HashList K V) :
    Except Fault (Bool × HashList K V) := do
  let hash := H.doHash2 key
  let l ← l.lock useMutex
  match ← l.search hash key l.capacity (← modulo hash l.capacity) with
  | none => .ok (false, l.unlock useMutex)
  | some (pos, _) => do
    let count ← int (l.count - 1)
    let entryList ← unlink pos l.entryList
    .ok (true, unlock useMutex ⟨entryList, count, l.locked⟩)

def take (H : Hasher K) (useMutex : Bool) (key : K) (remove : Bool) (l : HashList K V) :
    Except Fault (Option V × HashList K V) := do
  let hash := H.doHash2 key
  let l ← l.lock useMutex
  match ← l.search hash key l.capacity (← modulo hash l.capacity) with
  | none => .ok (none, l.unlock useMutex)
  | some (pos, entry) =>
    if remove then do
      let count ← int (l.count - 1)
      let entryList ← unlink pos l.entryList
      let count ← int (count - 1)
      .ok (some entry.value, unlock useMutex ⟨entryList, count, l.locked⟩)
    else .ok (some entry.value, l.unlock useMutex)

def insertLoop (ent : HashEntry K V) (l : HashList K V) :
    ℕ → ℤ → Except Fault (Bool × HashList K V)
  | 0, _ => .ok (false, l)
  | n + 1, pos => do
    match ← slot l.entryList pos with
    | .entry entry =>
        if entry.hash = ent.hash ∧ entry.key = ent.key then .ok (false, l)
        else insertLoop ent l n (← modulo (pos + 1) l.capacity)
    | _ => do
        let entryList ← store l.entryList pos (.entry ent)
        .ok (true, ⟨entryList, l.count + 1, l.locked⟩)

def insertInternal (useMutex : Bool) (ent : HashEntry K V) (l : HashList K V) :
    Except Fault (Bool × HashList K V) := do
  let l ← l.lock useMutex
  let (ok, l) ← l.insertLoop ent l.capacity (← modulo ent.hash l.capacity)
  .ok (ok, l.unlock useMutex)

/-- The new list of `checkupSpace`, which the list itself is by then. -/
def rehash (useMutex : Bool) (capacity : ℕ) (l : HashList K V) : Except Fault (HashList K V) :=
  (entries l.entryList).foldlM (fun new entry => Prod.snd <$> new.insertInternal useMutex entry)
    (⟨List.replicate capacity .null, 0, l.locked⟩ : HashList K V)

/-- The list stays locked while the entries move. -/
def checkupSpace (useMutex : Bool) (l : HashList K V) : Except Fault (HashList K V) := do
  let space ← int (l.count + l.count >>> (2 : ℕ))
  if space ≥ l.capacity then do
    let l ← l.lock useMutex
    match stepSize.find? (l.capacity < ·) with
    | none => .error .step
    | some capacity => do
      let l ← l.rehash useMutex capacity
      .ok (l.unlock useMutex)
  else .ok l

def insert (H : Hasher K) (useMutex : Bool) (key : K) (value : V) (l : HashList K V) :
    Except Fault (Bool × HashList K V) := do
  let l ← l.checkupSpace useMutex
  l.insertInternal useMutex ⟨H.doHash2 key, key, value⟩

/-- The count stays. -/
def reset (useMutex : Bool) (l : HashList K V) : Except Fault (HashList K V) := do
  let l ← l.lock useMutex
  .ok (unlock useMutex { l with entryList := l.entryList.map fun _ => .null })

def exec (H : Hasher K) (useMutex : Bool) :
    HashOp K V → HashList K V → Except Fault (HashReply V × HashList K V)
  | .insert key val, l => Prod.map .inserted id <$> l.insert H useMutex key val
  | .remove key, l => Prod.map .removed id <$> l.remove H useMutex key
  | .take key remove, l => Prod.map .taken id <$> l.take H useMutex key remove
  | .reset, l => (HashReply.reset, ·) <$> l.reset useMutex

end Ops

end HashList

/-- `_capacity` is the length of `hashLists`. -/
structure HashTable (K V : Type) where
  hashLists : List (HashList K V)
  deriving DecidableEq, Repr

namespace HashTable

def start (capacity : ℕ) : HashTable K V := ⟨List.replicate capacity .empty⟩

abbrev capacity (t : HashTable K V) : ℕ := t.hashLists.length

/-- A call on `_hashLists[hash % _capacity]`. -/
def onList {ρ : Type} (hash : ℤ) (f : HashList K V → Except Fault (ρ × HashList K V))
    (t : HashTable K V) : Except Fault (ρ × HashTable K V) := do
  let i ← modulo hash t.capacity
  match if 0 ≤ i then t.hashLists[i.toNat]? else none with
  | none => .error .index
  | some l => do
    let (r, l) ← f l
    .ok (r, ⟨t.hashLists.set i.toNat l⟩)

variable [DecidableEq K]

def exec (H : Hasher K) (useMutex : Bool) :
    HashOp K V → HashTable K V → Except Fault (HashReply V × HashTable K V)
  | .insert key val, t =>
      Prod.map .inserted id <$> t.onList (H.doHash1 key) (·.insert H useMutex key val)
  | .remove key, t => Prod.map .removed id <$> t.onList (H.doHash1 key) (·.remove H useMutex key)
  | .take key remove, t =>
      Prod.map .taken id <$> t.onList (H.doHash1 key) (·.take H useMutex key remove)
  | .reset, t => do
      let hashLists ← t.hashLists.mapM (·.reset useMutex)
      .ok (.reset, ⟨hashLists⟩)

end HashTable

end Signed

end RgcFifa
