import RgcFifa.ReaderEquiv

/-! Any number of `Stream` objects, and what they have in common: out of range `data<T>` refers to a
static object, one for each type, and what is written to it stays there. -/

namespace RgcFifa

open ByteWords Transition

/-- What `data<T>` refers to: the static object, or bytes of the buffer. -/
inductive DataRef where
  | tmp
  | element

/-- `none` where a sum that wraps passes for one in range. -/
def Stream.dataRef (k : Scalar) (offset : ℕ) (st : Stream) : Option DataRef :=
  if (offset + k.sizeof) % 2 ^ 64 > st.size then some .tmp
  else if offset + k.sizeof ≤ st.size then some .element
  else none

def Stream.assignAt (offset : ℕ) (bs : List UInt8) (st : Stream) : Stream :=
  { st with buf := st.buf.take offset ++ bs ++ st.buf.drop (offset + bs.length) }

/-- What an operation returns, or leaves in the object it is given. -/
def StreamOp.returned : StreamOp → Stream → Option Returned
  | read len, st => (st.read len.toNat).map fun r => .copied r.ret r.copied
  | get junk d, st => (st.get junk d.1).map fun p => .datum p.1
  | _, _ => some .nothing

structure Streams where
  stream : ℕ → Stream
  tmp : (k : Scalar) → BitVec (8 * k.sizeof)

namespace Streams

def start : Streams := ⟨fun _ => ⟨[], 0⟩, fun _ => 0⟩

def set (i : ℕ) (st : Stream) (s : Streams) : Streams :=
  { s with stream := Function.update s.stream i st }

/-- `data<T>(offset)`, read. -/
def peek (i : ℕ) (k : Scalar) (offset : ℕ) (s : Streams) : Option (BitVec (8 * k.sizeof)) :=
  ((s.stream i).dataRef k offset).map fun
    | .tmp => s.tmp k
    | .element => BitVec.ofNat _ (leNat (((s.stream i).buf.drop offset).take k.sizeof))

/-- `data<T>(offset) = v`. -/
def poke (i : ℕ) (k : Scalar) (offset : ℕ) (v : BitVec (8 * k.sizeof)) (s : Streams) :
    Option Streams :=
  ((s.stream i).dataRef k offset).map fun
    | .tmp => { s with tmp := Function.update s.tmp k v }
    | .element => s.set i ((s.stream i).assignAt offset (le k.sizeof v.toNat))

def eos (i : ℕ) (s : Streams) : Option Streams :=
  s.poke i .UInt16 0 (UInt64.ofNat (s.stream i).size - 10).toUInt16.toBitVec

end Streams

/-- The operations, each with the streams that it is called on. `put` is the `operator<<` that is
given a stream. -/
inductive StreamsOp where
  | on (i : ℕ) (op : StreamOp)
  | construct (i : ℕ) (b : Buffer)
  | copy (i j : ℕ)
  | put (i j : ℕ)
  | peek (i : ℕ) (k : Scalar) (offset : UInt64)
  | poke (i : ℕ) (k : Scalar) (offset : UInt64) (v : BitVec (8 * k.sizeof))

namespace StreamsOp

/-- The streams that an operation uses. -/
def names : StreamsOp → List ℕ
  | on i _ | construct i _ | peek i _ _ | poke i _ _ _ => [i]
  | copy i j | put i j => [i, j]

/-- A stream that is appended to itself is undefined. -/
def call : StreamsOp → Streams → Option (Returned × Streams)
  | on i .eos, s => (s.eos i).map fun t => (.nothing, t)
  | on i op, s => (op.returned (s.stream i)).bind fun v =>
      (op.step (s.stream i)).map fun st => (v, s.set i st)
  | construct i b, s => some (.nothing, s.set i ⟨b, 0⟩)
  | copy i j, s => some (.nothing, s.set i (s.stream j))
  | put i j, s =>
      if i = j then none
      else some (.nothing, s.set i ((s.stream i).put (.bytes (s.stream j).buf)))
  | peek i k offset, s => (s.peek i k offset.toNat).map fun v => (.word k v, s)
  | poke i k offset v, s => (s.poke i k offset.toNat v).map fun t => (.nothing, t)

def step (op : StreamsOp) (s : Streams) : Option Streams := (op.call s).map Prod.snd

/-- What the operations return, up to one that is undefined. -/
def results : List StreamsOp → Streams → List Returned
  | [], _ => []
  | op :: ops, s =>
    match op.call s with
    | none => []
    | some (v, t) => v :: results ops t

end StreamsOp

namespace Streams

open StreamsOp (results)

variable {s t : Streams} {i j : ℕ} {k : Scalar} {offset : ℕ}

/-- The bytes at the offset are not all in the buffer. -/
def Far (i : ℕ) (k : Scalar) (offset : ℕ) (s : Streams) : Prop :=
  (s.stream i).size < offset + k.sizeof

instance (i : ℕ) (k : Scalar) (offset : ℕ) (s : Streams) : Decidable (s.Far i k offset) :=
  inferInstanceAs (Decidable (_ < _))

/-- A sum that wraps does not come out small enough to pass for one in range. -/
def Unwrapped (i : ℕ) (k : Scalar) (offset : ℕ) (s : Streams) : Prop :=
  offset + k.sizeof < 2 ^ 64 ∨ (s.stream i).size < (offset + k.sizeof) % 2 ^ 64

/-- A write to `i` at the offset changes nothing that is returned later by the other streams, nor
by any stream if it is out of range, and no peek but at the bytes that it writes. -/
def Framed (i : ℕ) (k : Scalar) (offset : ℕ) (s : Streams) (o : Option Streams) : Prop :=
  ∃ t, o = some t ∧
    (∀ later : List StreamsOp, (s.Far i k offset ∨ ∀ op ∈ later, i ∉ op.names) →
      results later t = results later s) ∧
    ∀ k' offset', (offset' + k'.sizeof ≤ offset ∨ offset + k.sizeof ≤ offset' ∨
      s.Far i k' offset') → t.peek i k' offset' = s.peek i k' offset'

end Streams

namespace StreamsOp

/-- Out of range zero is read, and a write is not seen where it has no business. -/
def Inert : StreamsOp → Streams → Prop
  | peek i k offset, s => s.Far i k offset.toNat → s.peek i k offset.toNat = some 0
  | poke i k offset v, s => s.Framed i k offset.toNat (s.poke i k offset.toNat v)
  | on i .eos, s => s.Framed i .UInt16 0 (s.eos i)
  | _, _ => True

/-- Nothing but zero is written out of range. -/
def Harmless : StreamsOp → Streams → Prop
  | peek i k offset, s => s.Unwrapped i k offset.toNat
  | poke i k offset v, s => s.Unwrapped i k offset.toNat ∧ (s.Far i k offset.toNat → v = 0)
  | on i .eos, s => 2 ≤ (s.stream i).size
  | _, _ => True

end StreamsOp

namespace Stream

variable {st : Stream} {k : Scalar} {offset : ℕ}

theorem dataRef_far (hfar : st.size < offset + k.sizeof)
    (hwrap : offset + k.sizeof < 2 ^ 64 ∨ st.size < (offset + k.sizeof) % 2 ^ 64) :
    st.dataRef k offset = some .tmp := by
  have hgt : (offset + k.sizeof) % 2 ^ 64 > st.size := by
    rcases hwrap with hlt | hgt
    · rwa [Nat.mod_eq_of_lt hlt]
    · exact hgt
  rw [dataRef, if_pos hgt]

theorem dataRef_near (hmax : st.size ≤ maxSize) (hnear : offset + k.sizeof ≤ st.size) :
    st.dataRef k offset = some .element := by
  rw [maxSize] at hmax
  rw [dataRef, if_neg (by omega), if_pos hnear]

theorem dataRef_wraps (hmax : st.size ≤ maxSize)
    (hwrap : ¬ (offset + k.sizeof < 2 ^ 64 ∨ st.size < (offset + k.sizeof) % 2 ^ 64)) :
    st.dataRef k offset = none := by
  rw [maxSize] at hmax
  rw [dataRef, if_neg (by omega), if_neg (by omega)]

theorem near_of_dataRef (h : st.dataRef k offset = some .element) :
    offset + k.sizeof ≤ st.size := by
  rw [dataRef] at h
  split_ifs at h with hgt hle
  · cases h
  · exact hle

theorem dataRef_congr {su : Stream} (h : st.size = su.size) :
    st.dataRef k offset = su.dataRef k offset := by
  rw [dataRef, dataRef, h]

theorem size_assignAt {bs : List UInt8} (hle : offset + bs.length ≤ st.size) :
    (st.assignAt offset bs).size = st.size := by
  rw [size] at hle
  simp [size, assignAt]
  omega

theorem assignAt_zero (bs : List UInt8) (st : Stream) :
    st.assignAt 0 bs = { st with buf := bs ++ st.buf.drop bs.length } := by
  simp [assignAt]

theorem take_drop_assignAt_self {bs : List UInt8} (hle : offset + bs.length ≤ st.size) :
    ((st.assignAt offset bs).buf.drop offset).take bs.length = bs := by
  rw [size] at hle
  have hlen : (st.buf.take offset).length = offset := by
    rw [List.length_take]
    omega
  rw [assignAt, List.append_assoc, List.drop_left' hlen, List.take_left]

/-- Bytes beside those that are written. -/
theorem take_drop_assignAt {bs : List UInt8} {p n : ℕ} (hle : offset + bs.length ≤ st.size)
    (hap : p + n ≤ offset ∨ offset + bs.length ≤ p) :
    ((st.assignAt offset bs).buf.drop p).take n = (st.buf.drop p).take n := by
  rw [size] at hle
  apply List.ext_getElem?
  intro m
  by_cases hm : m < n
  · rw [List.getElem?_take_of_lt hm, List.getElem?_take_of_lt hm, List.getElem?_drop,
      List.getElem?_drop, assignAt]
    rcases hap with hbefore | hafter
    · have hlen : p + m < (st.buf.take offset).length := by
        rw [List.length_take]
        omega
      rw [List.append_assoc, List.getElem?_append_left hlen, List.getElem?_take_of_lt (by omega)]
    · have hlen : (st.buf.take offset ++ bs).length = offset + bs.length := by
        rw [List.length_append, List.length_take]
        omega
      rw [List.getElem?_append_right (by omega), hlen, List.getElem?_drop]
      congr 1
      omega
  · rw [List.getElem?_eq_none, List.getElem?_eq_none]
    · rw [List.length_take]
      omega
    · rw [List.length_take]
      omega

theorem size_appendAll_le {bss : List (List UInt8)} (h : st.size ≤ maxSize) :
    (st.appendAll bss).size ≤ maxSize := by
  induction bss generalizing st with
  | nil => exact h
  | cons b bss ih =>
    rw [appendAll]
    split_ifs with hle
    · apply ih
      rwa [size_append]
    · exact h

theorem size_prepend_le {b : List UInt8} (h : st.size ≤ maxSize) :
    (st.prepend b).size ≤ maxSize := by
  rw [prepend]
  split_ifs with hle
  · rw [size, List.length_append, Nat.add_comm]
    exact hle
  · exact h

theorem buf_read {n : ℕ} {r : ReadCall Stream} (h : st.read n = some r) : r.next.buf = st.buf := by
  rw [Stream.read] at h
  split_ifs at h
  all_goals
    simp only [Option.some.injEq] at h
    simp only [← h]

theorem buf_readInto {old bs : List UInt8} {t : Stream} (h : st.readInto old = some (bs, t)) :
    t.buf = st.buf := by
  simp only [Stream.readInto, Option.map_eq_some_iff, Prod.mk.injEq] at h
  obtain ⟨r, hr, -, ht⟩ := h
  rw [← ht, buf_read hr]

theorem buf_getString {junk : UInt16} {v : List UInt8} {t : Stream}
    (h : st.getString junk = some (v, t)) : t.buf = st.buf := by
  simp only [Stream.getString, Option.bind_eq_some_iff, Option.ite_none_right_eq_some,
    Option.some.injEq, Prod.mk.injEq] at h
  obtain ⟨⟨bs, u⟩, hread, -, -, ht⟩ := h
  have hbuf := congrArg buf ht
  dsimp only at hbuf
  rw [← hbuf, buf_readInto hread]

theorem buf_get {junk : UInt32} {d v : Datum} {t : Stream} (h : st.get junk d = some (v, t)) :
    t.buf = st.buf := by
  cases d with
  | string w =>
    simp only [Stream.get, Option.map_eq_some_iff, Prod.mk.injEq] at h
    obtain ⟨⟨x, u⟩, hread, -, ht⟩ := h
    rw [← ht, buf_getString hread]
  | _ =>
    simp only [Stream.get, Option.map_eq_some_iff, Prod.mk.injEq] at h
    obtain ⟨⟨x, u⟩, hread, -, ht⟩ := h
    rw [← ht, buf_readInto hread]

end Stream

/-- No operation makes a buffer larger than a vector can be. -/
theorem StreamOp.size_step_le {op : StreamOp} {st t : Stream} (hmax : st.size ≤ maxSize)
    (h : op.step st = some t) : t.size ≤ maxSize := by
  cases op with
  | remove s n => exact (size_remove_le h).trans hmax
  | read len =>
    obtain ⟨r, hr, rfl⟩ := Option.map_eq_some_iff.mp h
    rwa [Stream.size, Stream.buf_read hr]
  | get junk d =>
    obtain ⟨⟨v, u⟩, hget, rfl⟩ := Option.map_eq_some_iff.mp h
    rwa [Stream.size, Stream.buf_get hget]
  | append b =>
    obtain rfl := Option.some.inj h
    exact Stream.size_appendAll_le hmax
  | prepend b =>
    obtain rfl := Option.some.inj h
    exact Stream.size_prepend_le hmax
  | append_zero len =>
    obtain rfl := Option.some.inj h
    exact Stream.size_append_zero_le hmax
  | pop_front n =>
    obtain rfl := Option.some.inj h
    exact Stream.size_pop_front_le.trans hmax
  | put f =>
    obtain rfl := Option.some.inj h
    exact Stream.size_appendAll_le hmax
  | eos =>
    obtain rfl := Option.some.inj h
    rwa [Stream.size_eos]
  | back n =>
    obtain rfl := Option.some.inj h
    rw [Stream.back]
    split_ifs
    · exact hmax
    · exact hmax
  | clear =>
    obtain rfl := Option.some.inj h
    exact Nat.zero_le _
  | reset | skip n =>
    obtain rfl := Option.some.inj h
    exact hmax

namespace Streams

variable {s t : Streams} {i j : ℕ} {k : Scalar} {offset : ℕ} {st su : Stream}

@[simp] theorem stream_set (i : ℕ) (st : Stream) (s : Streams) : (s.set i st).stream i = st :=
  Function.update_self ..

@[simp] theorem stream_set_ne (st : Stream) (s : Streams) (h : j ≠ i) :
    (s.set i st).stream j = s.stream j :=
  Function.update_of_ne h _ _

theorem set_comm (st su : Stream) (s : Streams) (h : j ≠ i) :
    (s.set i st).set j su = (s.set j su).set i st := by
  rw [set, set, set, set, Function.update_comm h]

theorem peek_set (st : Stream) (s : Streams) (h : j ≠ i) :
    (s.set i st).peek j k offset = s.peek j k offset := by
  rw [peek, peek, stream_set_ne st s h]
  rfl

theorem poke_set (v : BitVec (8 * k.sizeof)) (st : Stream) (s : Streams) (h : j ≠ i) :
    (s.set i st).poke j k offset v = (s.poke j k offset v).map (set i st) := by
  rw [poke, poke, stream_set_ne st s h, Option.map_map]
  cases (s.stream j).dataRef k offset with
  | none => rfl
  | some r =>
    cases r with
    | tmp => rfl
    | element => exact congrArg some (set_comm st _ s h)

theorem eos_set (st : Stream) (s : Streams) (h : j ≠ i) :
    (s.set i st).eos j = (s.eos j).map (set i st) := by
  rw [eos, eos, stream_set_ne st s h]
  exact poke_set _ st s h

end Streams

namespace StreamsOp

variable {s t : Streams} {i j : ℕ} {op : StreamsOp}

/-- A stream that an operation does not use can be changed before it or after it. -/
theorem call_set (st : Stream) (s : Streams) (hop : i ∉ op.names) :
    op.call (s.set i st) = (op.call s).map fun p => (p.1, p.2.set i st) := by
  cases op with
  | on j op =>
    have hj : j ≠ i := by simpa [names, eq_comm] using hop
    cases op with
    | eos =>
      simp only [call, Streams.eos_set st s hj, Option.map_map, Function.comp_def]
    | _ =>
      simp only [call, Streams.stream_set_ne st s hj, Option.map_bind, Option.map_map,
        Function.comp_def, Streams.set_comm st _ s hj]
  | construct j b =>
    have hj : j ≠ i := by simpa [names, eq_comm] using hop
    simp only [call, Option.map_some, Streams.set_comm st _ s hj]
  | copy j l =>
    have hj : j ≠ i ∧ l ≠ i := by simpa [names, eq_comm] using hop
    simp only [call, Option.map_some, Streams.stream_set_ne st s hj.2, Streams.set_comm st _ s hj.1]
  | put j l =>
    have hj : j ≠ i ∧ l ≠ i := by simpa [names, eq_comm] using hop
    simp only [call, Streams.stream_set_ne st s hj.1, Streams.stream_set_ne st s hj.2,
      Streams.set_comm st _ s hj.1]
    split_ifs <;> rfl
  | peek j k offset =>
    have hj : j ≠ i := by simpa [names, eq_comm] using hop
    simp only [call, Streams.peek_set st s hj, Option.map_map, Function.comp_def]
  | poke j k offset v =>
    have hj : j ≠ i := by simpa [names, eq_comm] using hop
    simp only [call, Streams.poke_set v st s hj, Option.map_map, Function.comp_def]

theorem results_set (st : Stream) (s : Streams) {ops : List StreamsOp}
    (hops : ∀ op ∈ ops, i ∉ op.names) : results ops (s.set i st) = results ops s := by
  induction ops generalizing s with
  | nil => rfl
  | cons op ops ih =>
    obtain ⟨hop, hops⟩ := List.forall_mem_cons.mp hops
    rw [results, results, call_set st s hop]
    cases op.call s with
    | none => rfl
    | some p => exact congrArg (p.1 :: ·) (ih p.2 hops)

end StreamsOp

namespace Streams

open StreamsOp (results)

variable {s t : Streams} {i : ℕ} {k : Scalar} {offset : UInt64}

/-- The static objects are as they were at the start. -/
structure Zeroed (s : Streams) : Prop where
  tmp_eq : ∀ k, s.tmp k = 0
  size_le : ∀ i, (s.stream i).size ≤ maxSize

theorem Zeroed.set (h : s.Zeroed) {st : Stream} (hst : st.size ≤ maxSize) : (s.set i st).Zeroed where
  tmp_eq := h.tmp_eq
  size_le j := by
    by_cases hj : j = i
    · subst j
      rwa [stream_set]
    · rw [stream_set_ne st s hj]
      exact h.size_le j

/-- Nothing changes when zero is written to a static object. -/
theorem Zeroed.update_tmp (h : s.Zeroed) (k : Scalar) :
    { s with tmp := Function.update s.tmp k 0 } = s := by
  rw [← h.tmp_eq k, Function.update_eq_self]

theorem not_far : ¬ s.Far i k offset.toNat ↔ offset.toNat + k.sizeof ≤ (s.stream i).size :=
  Nat.not_lt

/-- While the static objects are zero, the buffer is all that matters. -/
theorem Zeroed.peek_eq (h : s.Zeroed) (i : ℕ) (k : Scalar) (offset : ℕ) :
    s.peek i k offset = (s.stream i).data k offset := by
  rw [peek, Stream.dataRef, Stream.data]
  split_ifs
  · exact congrArg some (h.tmp_eq k)
  · rfl
  · rfl

theorem peek_far {offset : ℕ} (hfar : s.Far i k offset) (hwrap : s.Unwrapped i k offset) :
    s.peek i k offset = some (s.tmp k) := by
  rw [peek, Stream.dataRef_far hfar hwrap, Option.map_some]

theorem peek_wraps {offset : ℕ} (hmax : (s.stream i).size ≤ maxSize)
    (hwrap : ¬ s.Unwrapped i k offset) : s.peek i k offset = none := by
  rw [peek, Stream.dataRef_wraps hmax hwrap, Option.map_none]

theorem poke_far {offset : ℕ} (v : BitVec (8 * k.sizeof)) (hfar : s.Far i k offset)
    (hwrap : s.Unwrapped i k offset) :
    s.poke i k offset v = some { s with tmp := Function.update s.tmp k v } := by
  rw [poke, Stream.dataRef_far hfar hwrap, Option.map_some]

theorem poke_near {offset : ℕ} (v : BitVec (8 * k.sizeof)) (hmax : (s.stream i).size ≤ maxSize)
    (hnear : offset + k.sizeof ≤ (s.stream i).size) :
    s.poke i k offset v = some (s.set i ((s.stream i).assignAt offset (le k.sizeof v.toNat))) := by
  rw [poke, Stream.dataRef_near hmax hnear, Option.map_some]

theorem poke_wraps {offset : ℕ} (v : BitVec (8 * k.sizeof)) (hmax : (s.stream i).size ≤ maxSize)
    (hwrap : ¬ s.Unwrapped i k offset) : s.poke i k offset v = none := by
  rw [poke, Stream.dataRef_wraps hmax hwrap, Option.map_none]

/-- Where there is room for the length, `eos` is what it is to the stream alone. -/
theorem Zeroed.eos_eq (h : s.Zeroed) (hle : 2 ≤ (s.stream i).size) :
    s.eos i = some (s.set i (s.stream i).eos) := by
  have hnear : 0 + Scalar.UInt16.sizeof ≤ (s.stream i).size := hle
  refine (poke_near _ (h.size_le i) hnear).trans ?_
  rw [Stream.eos, Stream.setLength, if_neg (Nat.not_lt.mpr hle), Stream.assignAt_zero, length_le]
  rfl

/-- What is written is read again, in range and out of it. -/
theorem Zeroed.peek_poke (h : s.Zeroed) (v : BitVec (8 * k.sizeof))
    (hwrap : s.Unwrapped i k offset.toNat) :
    (s.poke i k offset.toNat v).bind (peek i k offset.toNat) = some v := by
  by_cases hfar : s.Far i k offset.toNat
  · rw [poke_far v hfar hwrap, Option.bind_some]
    have hstill : Far i k offset.toNat { s with tmp := Function.update s.tmp k v } := hfar
    rw [peek_far hstill hwrap]
    exact congrArg some (Function.update_self ..)
  · have hnear := not_far.mp hfar
    have hlen : offset.toNat + (le k.sizeof v.toNat).length ≤ (s.stream i).size := by
      rwa [length_le]
    have hbytes := Stream.take_drop_assignAt_self hlen
    have hlt : v.toNat < 256 ^ k.sizeof := by
      have hv := v.isLt
      rwa [pow_mul] at hv
    rw [length_le] at hbytes
    rw [poke_near v (h.size_le i) hnear, Option.bind_some, peek, stream_set,
      Stream.dataRef_congr (Stream.size_assignAt hlen), Stream.dataRef_near (h.size_le i) hnear,
      Option.map_some]
    dsimp only
    rw [hbytes, leNat_le_of_lt hlt, BitVec.ofNat_toNat, BitVec.setWidth_eq]

/-- A write in range is not read where its bytes are not. -/
theorem peek_assignAt {bs : List UInt8} {p q : ℕ} (hle : p + bs.length ≤ (s.stream i).size)
    (hap : q + k.sizeof ≤ p ∨ p + bs.length ≤ q ∨ s.Far i k q) :
    (s.set i ((s.stream i).assignAt p bs)).peek i k q = s.peek i k q := by
  rw [peek, peek, stream_set, Stream.dataRef_congr (Stream.size_assignAt hle)]
  cases href : (s.stream i).dataRef k q with
  | none => rfl
  | some r =>
    cases r with
    | tmp => rfl
    | element =>
      have hbeside : q + k.sizeof ≤ p ∨ p + bs.length ≤ q := by
        rcases hap with hbefore | hafter | hfar
        · exact .inl hbefore
        · exact .inr hafter
        · exact absurd hfar (Nat.not_lt.mpr (Stream.near_of_dataRef href))
      rw [Option.map_some, Option.map_some]
      exact congrArg (fun bs => some (BitVec.ofNat _ (leNat bs)))
        (Stream.take_drop_assignAt hle hbeside)

theorem Zeroed.peek_iff (h : s.Zeroed) :
    (s.Far i k offset.toNat → s.peek i k offset.toNat = some 0) ↔ s.Unwrapped i k offset.toNat := by
  have hmax := h.size_le i
  constructor
  · intro hpeek
    by_contra hwrap
    have hfar : s.Far i k offset.toNat := by
      rw [maxSize] at hmax
      rw [Unwrapped] at hwrap
      rw [Far]
      omega
    have hsome := hpeek hfar
    rw [peek_wraps (h.size_le i) hwrap] at hsome
    cases hsome
  · intro hwrap hfar
    rw [peek_far hfar hwrap, h.tmp_eq]

theorem Zeroed.framed_poke (h : s.Zeroed) {v : BitVec (8 * k.sizeof)}
    (hwrap : s.Unwrapped i k offset.toNat) (hzero : s.Far i k offset.toNat → v = 0) :
    s.Framed i k offset.toNat (s.poke i k offset.toNat v) := by
  by_cases hfar : s.Far i k offset.toNat
  · rw [poke_far v hfar hwrap, hzero hfar]
    exact ⟨_, congrArg some (h.update_tmp k), fun _ _ => rfl, fun _ _ _ => rfl⟩
  · have hnear := not_far.mp hfar
    rw [poke_near v (h.size_le i) hnear]
    refine ⟨_, rfl, ?_, ?_⟩
    · intro later hlater
      exact StreamsOp.results_set _ s (hlater.resolve_left hfar)
    · intro k' offset' hap
      apply peek_assignAt
      · rwa [length_le]
      · rwa [length_le]

theorem Zeroed.of_framed (h : s.Zeroed) {v : BitVec (8 * k.sizeof)}
    (hf : s.Framed i k offset.toNat (s.poke i k offset.toNat v)) :
    s.Unwrapped i k offset.toNat ∧ (s.Far i k offset.toNat → v = 0) := by
  obtain ⟨t, ht, hlater, -⟩ := hf
  have hwrap : s.Unwrapped i k offset.toNat := by
    by_contra hwrap
    rw [poke_wraps v (h.size_le i) hwrap] at ht
    cases ht
  refine ⟨hwrap, ?_⟩
  intro hfar
  -- The same peek after the write and without it.
  have hsame := hlater [.peek i k offset] (.inl hfar)
  have hnew := h.peek_poke v hwrap
  have hold := peek_far hfar hwrap
  rw [ht, Option.bind_some] at hnew
  simp only [StreamsOp.results, StreamsOp.call, hnew, hold, h.tmp_eq, Option.map_some] at hsame
  simpa using hsame

theorem Zeroed.framed_iff (h : s.Zeroed) (v : BitVec (8 * k.sizeof)) :
    s.Framed i k offset.toNat (s.poke i k offset.toNat v) ↔
      s.Unwrapped i k offset.toNat ∧ (s.Far i k offset.toNat → v = 0) := by
  constructor
  · intro hf
    exact h.of_framed hf
  · rintro ⟨hwrap, hzero⟩
    exact h.framed_poke hwrap hzero

/-- The length that `eos` writes is not zero where there is no room for it. -/
theorem Zeroed.framed_eos_iff (h : s.Zeroed) :
    s.Framed i .UInt16 0 (s.eos i) ↔ 2 ≤ (s.stream i).size := by
  have hiff : s.Framed i .UInt16 (0 : UInt64).toNat (s.eos i) ↔ _ := h.framed_iff _
  refine hiff.trans ?_
  constructor
  · rintro ⟨-, hzero⟩
    by_contra hlt
    have hv : (UInt64.ofNat (s.stream i).size - 10).toUInt16 = 0 :=
      UInt16.toBitVec_inj.mp (hzero (Nat.not_le.mp hlt))
    have hsize : (s.stream i).size = 0 ∨ (s.stream i).size = 1 := by omega
    rcases hsize with hsize | hsize
    · rw [hsize] at hv
      cases hv
    · rw [hsize] at hv
      cases hv
  · intro hle
    refine ⟨.inl (by decide), fun hfar => ?_⟩
    exact absurd hfar (Nat.not_lt.mpr hle)

end Streams

namespace StreamsOp

variable {op : StreamsOp} {s t : Streams}

theorem inert_iff (h : s.Zeroed) : op.Inert s ↔ op.Harmless s := by
  cases op with
  | on i op =>
    cases op with
    | eos => exact h.framed_eos_iff
    | _ => exact Iff.rfl
  | peek i k offset => exact h.peek_iff
  | poke i k offset v => exact h.framed_iff v
  | _ => exact Iff.rfl

theorem zeroed_poke {i : ℕ} {k : Scalar} {offset : UInt64} {v : BitVec (8 * k.sizeof)}
    (h : s.Zeroed) (hwrap : s.Unwrapped i k offset.toNat) (hzero : s.Far i k offset.toNat → v = 0)
    (hstep : s.poke i k offset.toNat v = some t) : t.Zeroed := by
  by_cases hfar : s.Far i k offset.toNat
  · rw [Streams.poke_far v hfar hwrap, hzero hfar, h.update_tmp] at hstep
    obtain rfl := Option.some.inj hstep
    exact h
  · have hnear := Streams.not_far.mp hfar
    have hlen : offset.toNat + (le k.sizeof v.toNat).length ≤ (s.stream i).size := by
      rwa [length_le]
    rw [Streams.poke_near v (h.size_le i) hnear] at hstep
    obtain rfl := Option.some.inj hstep
    exact h.set ((Stream.size_assignAt hlen).trans_le (h.size_le i))

theorem zeroed_step (h : s.Zeroed) (hop : op.Harmless s) (hstep : op.step s = some t) :
    t.Zeroed := by
  obtain ⟨⟨v, u⟩, hcall, rfl⟩ := Option.map_eq_some_iff.mp hstep
  cases op with
  | on i op =>
    cases op with
    | eos =>
      obtain ⟨u', hpoke, hpair⟩ := Option.map_eq_some_iff.mp hcall
      obtain ⟨-, rfl⟩ := Prod.mk.inj hpair
      have hnear : ¬ s.Far i .UInt16 (0 : UInt64).toNat := Nat.not_lt.mpr hop
      have hword : s.poke i .UInt16 (0 : UInt64).toNat _ = some u' := hpoke
      refine zeroed_poke h (.inl (by decide)) ?_ hword
      exact fun hfar => absurd hfar hnear
    | _ =>
      simp only [call, Option.bind_eq_some_iff, Option.map_eq_some_iff, Prod.mk.injEq] at hcall
      obtain ⟨w, -, st, hst, -, rfl⟩ := hcall
      exact h.set (StreamOp.size_step_le (h.size_le i) hst)
  | construct i b =>
    obtain ⟨-, rfl⟩ := Prod.mk.inj (Option.some.inj hcall)
    exact h.set b.2
  | copy i j =>
    obtain ⟨-, rfl⟩ := Prod.mk.inj (Option.some.inj hcall)
    exact h.set (h.size_le j)
  | put i j =>
    rw [call] at hcall
    split_ifs at hcall
    obtain ⟨-, rfl⟩ := Prod.mk.inj (Option.some.inj hcall)
    exact h.set (Stream.size_appendAll_le (h.size_le i))
  | peek i k offset =>
    obtain ⟨w, -, hpair⟩ := Option.map_eq_some_iff.mp hcall
    obtain ⟨-, rfl⟩ := Prod.mk.inj hpair
    exact h
  | poke i k offset w =>
    obtain ⟨u', hpoke, hpair⟩ := Option.map_eq_some_iff.mp hcall
    obtain ⟨-, rfl⟩ := Prod.mk.inj hpair
    exact zeroed_poke h hop.1 hop.2 hpoke

end StreamsOp

theorem zeroed_start : Streams.start.Zeroed where
  tmp_eq _ := rfl
  size_le _ := Nat.zero_le _

theorem stream_peeks_iff (ops : List StreamsOp) :
    Always StreamsOp.step StreamsOp.Inert ops Streams.start ↔
      Always StreamsOp.step StreamsOp.Harmless ops Streams.start := by
  apply always_congr_of _ _ zeroed_start
  · intro op s t h hinert hstep
    exact StreamsOp.zeroed_step h ((StreamsOp.inert_iff h).mp hinert) hstep
  · intro op s h
    exact StreamsOp.inert_iff h

/-- `eos` of an empty stream, and then what another one reads where it has nothing. -/
theorem stream_peeks_seen :
    ¬ Always StreamsOp.step StreamsOp.Inert [.on 0 .eos, .peek 1 .UInt16 0] Streams.start := by
  rintro ⟨-, hrest⟩
  obtain ⟨hzero, -⟩ := hrest _ rfl
  have hread := hzero (by decide)
  revert hread
  decide

end RgcFifa
