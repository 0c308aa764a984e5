import RgcFifa.Lib.Faulting
import Mathlib.Tactic

/-! The reference-counted objects and the smart pointers to them. An object may have smart pointers
as members, so a release may delete a whole part of the ownership graph. -/

namespace RgcFifa

/-- A smart pointer: the object that it is a member of, or none for a variable, and `_ptr`. -/
structure AutoPtr where
  owner : Option ℕ
  ptr : Option ℕ
  deriving DecidableEq, Repr

namespace RefCounting

inductive Fault where
  | deleted
  | destroyed
  | overflow
  deriving DecidableEq, Repr

/-- The bounds of `AtomicCounter::ValueType`, an `int`. -/
def counterMin : ℤ := -2 ^ 31

def counterMax : ℤ := 2 ^ 31 - 1

/-- Every object made so far, with its `_counter` until it is deleted, every smart pointer constructed
so far, until it is destroyed, and the references that plain pointers own. -/
structure Heap where
  counters : List (Option ℤ)
  ptrs : List (Option AutoPtr)
  raws : List ℕ
  deriving DecidableEq, Repr

namespace Heap

def start : Heap := ⟨[], [], []⟩

def counter (h : Heap) (o : ℕ) : Option ℤ := h.counters.getD o none

def find (h : Heap) (i : ℕ) : Option AutoPtr := h.ptrs.getD i none

def setCounter (h : Heap) (o : ℕ) (c : Option ℤ) : Heap := { h with counters := h.counters.set o c }

def setPtr (h : Heap) (i : ℕ) (a : Option AutoPtr) : Heap := { h with ptrs := h.ptrs.set i a }

/-- The members of an object in the order in which its destructor destroys them. -/
def members (h : Heap) (o : ℕ) : List ℕ :=
  ((List.range h.ptrs.length).filter fun i => (h.find i).any fun a => a.owner = some o).reverse

/-- What a release still has to do: `release()` of an object, the destructor of a smart pointer, and
freeing an object whose members are destroyed. -/
inductive Task where
  | release (o : ℕ)
  | destruct (i : ℕ)
  | free (o : ℕ)
  deriving DecidableEq, Repr

/-- An upper bound for the releases that may still be made. -/
def total (h : Heap) : ℕ := (h.counters.map fun c => (c.getD 0).toNat).sum

def alive (h : Heap) : ℕ := h.ptrs.countP Option.isSome

theorem sum_set_add (l : List (Option ℤ)) {o : ℕ} {c : Option ℤ} (h : l[o]? = some c) (d : Option ℤ) :
    ((l.set o d).map fun c => (c.getD 0).toNat).sum + (c.getD 0).toNat
      = (l.map fun c => (c.getD 0).toNat).sum + (d.getD 0).toNat := by
  induction l generalizing o with
  | nil => simp at h
  | cons b l ih =>
    cases o with
    | zero =>
      simp only [List.getElem?_cons_zero, Option.some.injEq] at h
      subst h
      simp only [List.set_cons_zero, List.map_cons, List.sum_cons]
      omega
    | succ o =>
      have hrest := ih (by simpa using h)
      simp only [List.set_cons_succ, List.map_cons, List.sum_cons]
      omega

theorem getElem?_counters {h : Heap} {o : ℕ} {c : ℤ} (hc : h.counter o = some c) :
    h.counters[o]? = some (some c) := by
  simp only [counter, List.getD_eq_getElem?_getD] at hc
  cases hget : h.counters[o]? with
  | none => simp [hget] at hc
  | some d =>
    rw [hget] at hc
    exact congrArg some hc

theorem getElem?_ptrs {h : Heap} {i : ℕ} {a : AutoPtr} (ha : h.find i = some a) :
    h.ptrs[i]? = some (some a) := by
  simp only [find, List.getD_eq_getElem?_getD] at ha
  cases hget : h.ptrs[i]? with
  | none => simp [hget] at ha
  | some b =>
    rw [hget] at ha
    exact congrArg some ha

theorem total_setCounter {h : Heap} {o : ℕ} {c : ℤ} (hc : h.counter o = some c) (d : Option ℤ) :
    (h.setCounter o d).total + c.toNat = h.total + (d.getD 0).toNat :=
  sum_set_add h.counters (getElem?_counters hc) d

theorem alive_setPtr {h : Heap} {i : ℕ} {a : AutoPtr} (ha : h.find i = some a) :
    (h.setPtr i none).alive < h.alive := by
  obtain ⟨hi, hget⟩ := List.getElem?_eq_some_iff.mp (getElem?_ptrs ha)
  have hpos : 0 < h.ptrs.countP Option.isSome :=
    List.countP_pos_iff.mpr ⟨h.ptrs[i], List.getElem_mem hi, by simp [hget]⟩
  simp only [alive, setPtr, List.countP_set hi, hget, Option.isSome_some, Option.isSome_none, if_true,
    Bool.false_eq_true, if_false]
  omega

/-- `free` of an object never adds to the measure. -/
theorem total_free_le (h : Heap) (o : ℕ) : (h.setCounter o none).total ≤ h.total := by
  cases hc : h.counter o with
  | some c =>
    have := total_setCounter hc none
    simp at this
    omega
  | none =>
    have hsame : h.counters.set o none = h.counters := by
      apply List.ext_getElem?
      intro i
      simp only [List.getElem?_set]
      by_cases hi : o = i
      · subst hi
        simp only [counter, List.getD_eq_getElem?_getD] at hc
        by_cases hlt : o < h.counters.length
        · simp only [List.getElem?_eq_getElem hlt, Option.getD_some] at hc
          simp [hlt, hc]
        · simp [hlt]
      · simp [hi]
    simp [total, setCounter, hsame]

/-- The tasks in order; a deletion puts those of the object before the others. -/
def run (ts : List Task) (h : Heap) : Except Fault Heap :=
  match ts with
  | [] => .ok h
  | .release o :: ts =>
    match hc : h.counter o with
    | none => .error .deleted
    | some c =>
      if c = counterMin then .error .overflow
      else if c - 1 = 0 then
        run ((h.members o).map .destruct ++ .free o :: ts) (h.setCounter o (some (c - 1)))
      else run ts (h.setCounter o (some (c - 1)))
  | .destruct i :: ts =>
    match ha : h.find i with
    | none => .error .destroyed
    | some a =>
      match a.ptr with
      | none => run ts (h.setPtr i none)
      | some o => run (.release o :: ts) (h.setPtr i none)
  | .free o :: ts => run ts (h.setCounter o none)
termination_by (h.total, h.alive, ts.length)
decreasing_by
  · have := total_setCounter hc (some (c - 1))
    simp at this
    exact Prod.Lex.left _ _ (by omega)
  · have htotal := total_setCounter hc (some (c - 1))
    simp at htotal
    rcases Nat.lt_or_ge (h.setCounter o (some (c - 1))).total h.total with hlt | hge
    · exact Prod.Lex.left _ _ hlt
    · have heq : (h.setCounter o (some (c - 1))).total = h.total := by omega
      rw [heq]
      exact Prod.Lex.right _ (Prod.Lex.right _ (by simp))
  · exact Prod.Lex.right _ (Prod.Lex.left _ _ (alive_setPtr ha))
  · exact Prod.Lex.right _ (Prod.Lex.left _ _ (alive_setPtr ha))
  · rcases (total_free_le h o).lt_or_eq with hlt | heq
    · exact Prod.Lex.left _ _ hlt
    · rw [heq]
      exact Prod.Lex.right _ (Prod.Lex.right _ (by simp))

theorem run_release (o : ℕ) (ts : List Task) (h : Heap) :
    run (.release o :: ts) h = match h.counter o with
      | none => .error .deleted
      | some c =>
        if c = counterMin then .error .overflow
        else if c - 1 = 0 then
          run ((h.members o).map .destruct ++ .free o :: ts) (h.setCounter o (some (c - 1)))
        else run ts (h.setCounter o (some (c - 1))) := by
  rw [run]
  cases h.counter o <;> rfl

theorem run_destruct (i : ℕ) (ts : List Task) (h : Heap) :
    run (.destruct i :: ts) h = match h.find i with
      | none => .error .destroyed
      | some a =>
        match a.ptr with
        | none => run ts (h.setPtr i none)
        | some o => run (.release o :: ts) (h.setPtr i none) := by
  rw [run]
  cases h.find i with
  | none => rfl
  | some a => rfl

/-- `if (_ptr) _ptr->release();` -/
def release (h : Heap) : Option ℕ → Except Fault Heap
  | none => .ok h
  | some o => run [.release o] h

/-- `if (_ptr) _ptr->duplicate();` -/
def duplicate (h : Heap) : Option ℕ → Except Fault Heap
  | none => .ok h
  | some o =>
    match h.counter o with
    | none => .error .deleted
    | some c =>
      if c = counterMax then .error .overflow
      else .ok (h.setCounter o (some (c + 1)))

/-- `_ptr` of a smart pointer; a destroyed one has none. -/
def get (h : Heap) (p : ℕ) : Except Fault (Option ℕ) :=
  match h.find p with
  | none => .error .destroyed
  | some a => .ok a.ptr

def set (h : Heap) (p : ℕ) (x : Option ℕ) : Except Fault Heap :=
  match h.find p with
  | none => .error .destroyed
  | some a => .ok (h.setPtr p (some { a with ptr := x }))

/-- A variable, constructed with the pointer. -/
def push (h : Heap) (x : Option ℕ) : Heap := { h with ptrs := h.ptrs ++ [some ⟨none, x⟩] }

/-- A plain pointer gives its reference up. -/
def forget (h : Heap) : Option ℕ → Heap
  | none => h
  | some o => { h with raws := h.raws.erase o }

/-- `new C`: the counter is one, and the members are null. -/
def new (h : Heap) (fields : ℕ) : Heap where
  counters := h.counters ++ [some 1]
  ptrs := h.ptrs ++ List.replicate fields (some ⟨some h.counters.length, none⟩)
  raws := h.raws ++ [h.counters.length]

/-- `AutoPtr(C* ptr)` -/
def construct (h : Heap) (x : Option ℕ) : Heap := (h.forget x).push x

/-- `AutoPtr(C* ptr, bool shared)` with `shared`, also what `cast` and `unsafeCast` return. -/
def constructShared (h : Heap) (x : Option ℕ) : Except Fault Heap := (h.push x).duplicate x

/-- `AutoPtr(const AutoPtr& ptr)`, of the same class or of another. -/
def copy (h : Heap) (q : ℕ) : Except Fault Heap := do
  let x ← h.get q
  (h.push x).duplicate x

/-- `~AutoPtr()` -/
def destruct (h : Heap) (p : ℕ) : Except Fault Heap := run [.destruct p] h

/-- `assign(C* ptr)`: an equal pointer is not taken over. -/
def assignPtr (h : Heap) (p : ℕ) (x : Option ℕ) : Except Fault Heap := do
  let old ← h.get p
  if old = x then .ok h
  else
    let h ← h.release old
    let h ← h.set p x
    .ok (h.forget x)

/-- `assign(C* ptr, bool shared)` with `shared` -/
def assignShared (h : Heap) (p : ℕ) (x : Option ℕ) : Except Fault Heap := do
  let old ← h.get p
  if old = x then .ok h
  else
    let h ← h.release old
    let h ← h.set p x
    h.duplicate x

/-- `assign(const AutoPtr& ptr)`: the old object is released before the other pointer is read. -/
def assign (h : Heap) (p q : ℕ) : Except Fault Heap :=
  if p = q then .ok h
  else do
    let old ← h.get p
    let h ← h.release old
    let x ← h.get q
    let h ← h.set p x
    h.duplicate x

/-- `assign(const AutoPtr<Other>& ptr)`: nothing to do if the pointers are equal. -/
def assignOther (h : Heap) (p q : ℕ) : Except Fault Heap := do
  let old ← h.get p
  let x ← h.get q
  if x = old then .ok h
  else
    let h ← h.release old
    let x ← h.get q
    let h ← h.set p x
    h.duplicate x

def swap (h : Heap) (p q : ℕ) : Except Fault Heap := do
  let x ← h.get p
  let y ← h.get q
  let h ← h.set p y
  h.set q x

/-- `duplicate()`: the plain pointer returned owns a reference. -/
def duplicateRaw (h : Heap) (q : ℕ) : Except Fault Heap := do
  let x ← h.get q
  let h ← h.duplicate x
  .ok { h with raws := h.raws ++ x.toList }

/-- `release()` through a plain pointer -/
def releaseRaw (h : Heap) (o : ℕ) : Except Fault Heap := (h.forget (some o)).release (some o)

end Heap

end RefCounting

end RgcFifa
