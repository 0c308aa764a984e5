import RgcFifa.Serialize
import RgcFifa.Stream

/-! The rest of `Common/Stream.h`: the operations on the buffer, the cursor, and the overloads of
`operator<<` and `operator>>`. Sizes are `size_t`, and sums of them wrap. -/

namespace RgcFifa

open ByteWords

/-- The `T` of `operator<<` for `std::vector<T>`, which `UInt8` does not come to; and a
`std::vector<bool>` has no elements to point to. -/
abbrev ElemType := { k : Scalar // k ≠ .UInt8 ∧ k ≠ .bool }

abbrev ElemType.Val (k : ElemType) : Type := BitVec (8 * k.1.sizeof)

def ElemType.sizeof (k : ElemType) : ℕ := k.1.sizeof

def ElemType.encode (k : ElemType) (v : List k.Val) : List UInt8 :=
  v.flatMap fun x => le k.sizeof x.toNat

@[simp] theorem ElemType.length_encode (k : ElemType) (v : List k.Val) :
    (k.encode v).length = k.sizeof * v.length := by
  induction v with
  | nil => rfl
  | cons x v ih =>
    rw [encode] at ih
    rw [encode, List.flatMap_cons, List.length_append, length_le, List.length_cons, ih]
    ring

/-- An object that `operator>>` reads into, and what it holds. A `std::vector<T>` of other than bytes
is none: its overload passes `&v[0]`, a `T *`, where `read` takes a `UInt8 *`, and does not compile. -/
inductive Datum where
  | scalar (k : Scalar) (v : BitVec (8 * k.sizeof))
  | string (v : List UInt8)
  | bytes (v : List UInt8)

/-- What `operator<<` writes. A `char *` may be null. -/
inductive Field where
  | scalar (k : Scalar) (v : BitVec (8 * k.sizeof))
  | string (v : List UInt8)
  | chars (v : Option (List UInt8))
  | vector (k : ElemType) (v : List k.Val)
  | bytes (v : List UInt8)

/-- The bytes that `operator<<` appends, one call after the other. -/
def Field.appends : Field → List (List UInt8)
  | scalar k v => [le k.sizeof v.toNat]
  | string v => [le 2 (UInt16.ofNat v.length).toNat, v]
  | chars none => [le 2 0]
  | chars (some v) =>
      let len := UInt16.ofNat v.length
      [le 2 len.toNat, v.take len.toNat]
  | vector k v =>
      let n := UInt32.ofNat v.length
      [le 4 n.toNat, (k.encode v).take (k.sizeof * n.toNat)]
  | bytes v => [v]

/-- A call of `read`: what it returns, and the bytes it has copied. -/
structure ReadCall (σ : Type) where
  ret : ℤ
  copied : List UInt8
  next : σ

/-- An object of which the first bytes are copied over. -/
def overwrite (old copied : List UInt8) : List UInt8 := copied ++ old.drop copied.length

/-- `max_size()`; what would make the vector longer throws and changes nothing. -/
def maxSize : ℕ := 2 ^ 63 - 1

namespace Stream

def left (st : Stream) : ℕ := (st.size + 2 ^ 64 - st.pos) % 2 ^ 64

def reset (st : Stream) : Stream := { st with pos := 0 }

def clear (st : Stream) : Stream := { st with buf := [] }.reset

def pop_front (n : ℕ) (st : Stream) : Stream :=
  if n ≥ st.size then { st with buf := [] } else { st with buf := st.buf.drop n }

/-- `none` where `erase` is given a range that is none. -/
def remove (s n : ℕ) (st : Stream) : Option Stream :=
  if s ≥ st.size then some st
  else
    let n := if (s + n) % 2 ^ 64 > st.size then st.size - s else n
    if s + n ≤ st.size then some { st with buf := st.buf.take s ++ st.buf.drop (s + n) } else none

def append_zero (len : ℕ) (st : Stream) : Stream :=
  if len > 0 then
    let n := (st.size + len) % 2 ^ 64
    if n ≤ maxSize then { st with buf := st.buf.take n ++ List.replicate (n - st.size) 0 } else st
  else st

/-- The calls of `append` and `_buf.insert` in turn, up to one that throws. -/
def appendAll : List (List UInt8) → Stream → Stream
  | [], st => st
  | b :: bs, st => if st.size + b.length ≤ maxSize then appendAll bs (st.append b) else st

def prepend (b : List UInt8) (st : Stream) : Stream :=
  if st.size + b.length ≤ maxSize then { st with buf := b ++ st.buf } else st

/-- `none` where the bytes to be copied are not all in the buffer. -/
def read (len : ℕ) (st : Stream) : Option (ReadCall Stream) :=
  let len := if (st.pos + len) % 2 ^ 64 > st.size then st.left else len
  if len = 0 then some ⟨0, [], st⟩
  else if st.pos + len ≤ st.size then
    some ⟨Int.bmod len (2 ^ 32), (st.buf.drop st.pos).take len, { st with pos := st.pos + len }⟩
  else none

def readInto (old : List UInt8) (st : Stream) : Option (List UInt8 × Stream) :=
  (st.read old.length).map fun r => (overwrite old r.copied, r.next)

/-- `operator>>(std::string &)`; `junk` is what the local `l` is before it is read. -/
def getString (junk : UInt16) (st : Stream) : Option (List UInt8 × Stream) :=
  (st.readInto (le 2 junk.toNat)).bind fun (bs, st) =>
    let l := UInt16.ofNat (leNat bs)
    let lft := UInt32.ofNat st.left
    let l := if l.toUInt32 > lft then lft.toUInt16 else l
    if l = 0 ∨ st.pos + l.toNat ≤ st.size then
      some ((st.buf.drop st.pos).take l.toNat, { st with pos := st.pos + l.toNat })
    else none

/-- The overloads of `operator>>` that compile. -/
def get (junk : UInt32) : Datum → Stream → Option (Datum × Stream)
  | .scalar k v, st => (st.readInto (le k.sizeof v.toNat)).map fun (bs, st) =>
      (.scalar k (BitVec.ofNat _ (leNat bs)), st)
  | .string _, st => (st.getString junk.toUInt16).map fun (v, st) => (.string v, st)
  | .bytes v, st => (st.readInto v).map fun (v, st) => (.bytes v, st)

/-- The overloads of `operator<<`. -/
def put (f : Field) (st : Stream) : Stream := st.appendAll f.appends

/-- `operator+=`. -/
def skip (n : UInt32) (st : Stream) : Stream :=
  let pos := (st.pos + n.toNat) % 2 ^ 64
  { st with pos := if pos > st.size then st.size else pos }

/-- `operator-=`. -/
def back (n : UInt32) (st : Stream) : Stream :=
  if st.pos < n.toNat then { st with pos := 0 } else { st with pos := st.pos - n.toNat }

def seek (p : ℕ) (st : Stream) : Stream := { st with pos := p }

@[simp] theorem seek_seek (p q : ℕ) (st : Stream) : (st.seek p).seek q = st.seek q := rfl

@[simp] theorem pos_seek (p : ℕ) (st : Stream) : (st.seek p).pos = p := rfl

@[simp] theorem size_seek (p : ℕ) (st : Stream) : (st.seek p).size = st.size := rfl

variable {st : Stream} {bs rest : List UInt8}

/-- A cursor that is not past the end. -/
structure InBounds (st : Stream) : Prop where
  pos_le : st.pos ≤ st.size
  size_le : st.size ≤ maxSize

theorem InBounds.left_eq (h : st.InBounds) : st.left = st.size - st.pos := by
  have hpos := h.pos_le
  have hmax := h.size_le
  rw [left, maxSize] at *
  omega

/-- Unless the sum wraps, what is there is read. -/
theorem InBounds.read {len : ℕ} (h : st.InBounds) (hlen : st.pos + len < 2 ^ 64) :
    st.read len = some ⟨Int.bmod (min len st.left : ℕ) (2 ^ 32),
      (st.buf.drop st.pos).take (min len st.left), st.seek (st.pos + min len st.left)⟩ := by
  have hleft := h.left_eq
  have hpos := h.pos_le
  have hclamp : (if (st.pos + len) % 2 ^ 64 > st.size then st.left else len) = min len st.left := by
    rw [Nat.mod_eq_of_lt hlen]
    split_ifs <;> omega
  rw [Stream.read, hclamp]
  split_ifs with hzero hle
  · rw [hzero]
    rfl
  · rfl
  · omega

theorem InBounds.seek_min (h : st.InBounds) (len : ℕ) :
    (st.seek (st.pos + min len st.left)).InBounds := by
  have hleft := h.left_eq
  have hpos := h.pos_le
  refine ⟨?_, h.size_le⟩
  rw [pos_seek, size_seek]
  omega

theorem InBounds.readInto {old : List UInt8} (h : st.InBounds) (hlen : old.length ≤ maxSize) :
    ∃ bs, bs.length = old.length ∧
      st.readInto old = some (bs, st.seek (st.pos + min old.length st.left)) := by
  have hpos := h.pos_le
  have hmax := h.size_le
  have hleft := h.left_eq
  have hfit : st.pos + old.length < 2 ^ 64 := by
    rw [maxSize] at hlen hmax
    omega
  refine ⟨_, ?_, by rw [Stream.readInto, h.read hfit]; rfl⟩
  rw [overwrite, List.length_append, List.length_drop, List.length_take, List.length_drop]
  rw [size] at hpos hleft
  omega

/-- The unread bytes of such a stream. -/
structure Ahead (st : Stream) (bs : List UInt8) : Prop extends InBounds st where
  drop_eq : st.buf.drop st.pos = bs

theorem Ahead.pos_add (h : Ahead st bs) : st.pos + bs.length = st.size := by
  have hlen := congrArg List.length h.drop_eq
  have hpos := h.pos_le
  rw [List.length_drop] at hlen
  simp only [size] at hpos ⊢
  omega

theorem Ahead.left_eq (h : Ahead st bs) : st.left = bs.length := by
  have hadd := h.pos_add
  rw [h.toInBounds.left_eq]
  omega

theorem Ahead.seek (h : Ahead st (bs ++ rest)) : Ahead (st.seek (st.pos + bs.length)) rest where
  pos_le := by
    have hadd := h.pos_add
    rw [List.length_append] at hadd
    rw [pos_seek, size_seek]
    omega
  size_le := h.size_le
  drop_eq := by
    change st.buf.drop (st.pos + bs.length) = rest
    rw [← List.drop_drop, h.drop_eq, List.drop_left]

theorem Ahead.read (h : Ahead st (bs ++ rest)) : st.read bs.length =
    some ⟨Int.bmod bs.length (2 ^ 32), bs, st.seek (st.pos + bs.length)⟩ := by
  have hadd := h.pos_add
  have hmax := h.size_le
  rw [List.length_append] at hadd
  rw [maxSize] at hmax
  have hmin : min bs.length st.left = bs.length := by
    rw [h.left_eq, List.length_append]
    omega
  rw [h.toInBounds.read (by omega), hmin, h.drop_eq, List.take_left]

/-- As many bytes as the object has are there to be read. -/
theorem Ahead.readInto (h : Ahead st (bs ++ rest)) (old : List UInt8)
    (hold : old.length = bs.length) :
    st.readInto old = some (bs, st.seek (st.pos + bs.length)) := by
  rw [Stream.readInto, hold, h.read, Option.map_some, overwrite, ← hold, List.drop_length,
    List.append_nil]

/-- All bytes of the object are there. -/
theorem InBounds.readInto_full (old : List UInt8) (h : st.InBounds)
    (hle : st.pos + old.length ≤ st.size) :
    st.readInto old =
      some ((st.buf.drop st.pos).take old.length, st.seek (st.pos + old.length)) := by
  have hahead : Ahead st ((st.buf.drop st.pos).take old.length ++
      (st.buf.drop st.pos).drop old.length) := ⟨h, (List.take_append_drop _ _).symm⟩
  have hlen : ((st.buf.drop st.pos).take old.length).length = old.length := by
    rw [List.length_take, List.length_drop]
    rw [size] at hle
    omega
  have hread := hahead.readInto old hlen.symm
  rwa [hlen] at hread

/-- The count of a string, cut down to 32 bits of what is left. -/
def textLength (l left : ℕ) : ℕ := min l (left % 2 ^ 32)

theorem Ahead.getString {l : ℕ} (junk : UInt16) (h : Ahead st (le 2 l ++ bs)) (hl : l < 65536) :
    st.getString junk = some (bs.take (textLength l bs.length),
      st.seek (st.pos + 2 + textLength l bs.length)) := by
  have hcount := h.readInto (le 2 junk.toNat) (by simp)
  have hbs := h.seek
  have hleft := hbs.left_eq
  have hadd := hbs.pos_add
  rw [length_le] at hcount hbs hleft hadd
  rw [pos_seek, size_seek] at hadd
  have hnum : leNat (le 2 l) = l := leNat_le_of_lt (by omega)
  have htext : (if (UInt16.ofNat l).toUInt32 > UInt32.ofNat bs.length then
      (UInt32.ofNat bs.length).toUInt16 else UInt16.ofNat l).toNat = textLength l bs.length := by
    have hlNat : (UInt16.ofNat l).toNat = l := UInt16.toNat_ofNat_of_lt' hl
    simp only [gt_iff_lt, UInt32.lt_iff_toNat_lt, UInt16.toNat_toUInt32, hlNat,
      UInt32.toNat_ofNat', textLength]
    split_ifs with hlt
    · rw [UInt32.toNat_toUInt16, UInt32.toNat_ofNat']
      omega
    · rw [hlNat]
      omega
  have hle : textLength l bs.length ≤ bs.length := (min_le_right _ _).trans (Nat.mod_le _ _)
  rw [Stream.getString, hcount, Option.bind_some]
  simp only [hnum, hleft, htext]
  rw [if_pos (.inr (by rw [pos_seek, size_seek]; omega)), hbs.drop_eq]
  rfl

/-- The clamped length of a string is one that is there. -/
theorem clamp_le (l : UInt16) (left : ℕ) :
    (if l.toUInt32 > UInt32.ofNat left then (UInt32.ofNat left).toUInt16 else l).toNat ≤ left := by
  have hle : (UInt32.ofNat left).toNat ≤ left := by
    rw [UInt32.toNat_ofNat']
    exact Nat.mod_le _ _
  split_ifs with hlt
  · rw [UInt32.toNat_toUInt16]
    exact (Nat.mod_le _ _).trans hle
  · have hl := UInt32.le_iff_toNat_le.mp (UInt32.not_lt.mp hlt)
    rw [UInt16.toNat_toUInt32] at hl
    exact hl.trans hle

end Stream

end RgcFifa
