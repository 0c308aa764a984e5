import RgcFifa.StreamOps

/-! `Common/BinaryReader.h`: a reader over bytes that belong to someone else. It is written apart
from `Stream`, and does what a stream over the same bytes does. -/

namespace RgcFifa

open ByteWords

structure BinaryReader where
  buf : List UInt8
  pos : ℕ := 0
  deriving DecidableEq

namespace BinaryReader

def size (rd : BinaryReader) : ℕ := rd.buf.length

def left (rd : BinaryReader) : ℕ := (rd.size + 2 ^ 64 - rd.pos) % 2 ^ 64

def reset (rd : BinaryReader) : BinaryReader := { rd with pos := 0 }

/-- `none` where the bytes to be copied are not all in the buffer. -/
def read (len : ℕ) (rd : BinaryReader) : Option (ReadCall BinaryReader) :=
  let len := if (rd.pos + len) % 2 ^ 64 > rd.size then rd.left else len
  if len = 0 then some ⟨0, [], rd⟩
  else if rd.pos + len ≤ rd.size then
    some ⟨Int.bmod len (2 ^ 32), (rd.buf.drop rd.pos).take len, { rd with pos := rd.pos + len }⟩
  else none

def readInto (old : List UInt8) (rd : BinaryReader) : Option (List UInt8 × BinaryReader) :=
  (rd.read old.length).map fun r => (overwrite old r.copied, r.next)

/-- `operator>>(std::string &)`, which copies nothing when there is nothing to copy. -/
def getString (junk : UInt16) (rd : BinaryReader) : Option (List UInt8 × BinaryReader) :=
  (rd.readInto (le 2 junk.toNat)).bind fun (bs, rd) =>
    let l := UInt16.ofNat (leNat bs)
    let lft := UInt32.ofNat rd.left
    let l := if l.toUInt32 > lft then lft.toUInt16 else l
    if l > 0 then
      if rd.pos + l.toNat ≤ rd.size then
        some ((rd.buf.drop rd.pos).take l.toNat, { rd with pos := rd.pos + l.toNat })
      else none
    else some ([], rd)

/-- The overloads of `operator>>` that compile, as for a stream. -/
def get (junk : UInt32) : Datum → BinaryReader → Option (Datum × BinaryReader)
  | .scalar k v, rd => (rd.readInto (le k.sizeof v.toNat)).map fun (bs, rd) =>
      (.scalar k (BitVec.ofNat _ (leNat bs)), rd)
  | .string _, rd => (rd.getString junk.toUInt16).map fun (v, rd) => (.string v, rd)
  | .bytes v, rd => (rd.readInto v).map fun (v, rd) => (.bytes v, rd)

/-- `operator+=`. -/
def skip (n : UInt32) (rd : BinaryReader) : BinaryReader :=
  let pos := (rd.pos + n.toNat) % 2 ^ 64
  { rd with pos := if pos > rd.size then rd.size else pos }

/-- `operator-=`. -/
def back (n : UInt32) (rd : BinaryReader) : BinaryReader :=
  if rd.pos < n.toNat then { rd with pos := 0 } else { rd with pos := rd.pos - n.toNat }

/-- `data<T>`; out of range it is the function's static object. -/
def data (k : Scalar) (offset : ℕ) (rd : BinaryReader) : Option (BitVec (8 * k.sizeof)) :=
  if (offset + k.sizeof) % 2 ^ 64 > rd.size then some 0
  else if offset + k.sizeof ≤ rd.size then
    some (BitVec.ofNat _ (leNat ((rd.buf.drop offset).take k.sizeof)))
  else none

/-- A stream over the same bytes, at the same place. -/
def stream (rd : BinaryReader) : Stream := ⟨rd.buf, rd.pos⟩

end BinaryReader

/-- What a reader returns, with the stream in its place. -/
def onStream {α : Type} (p : α × BinaryReader) : α × Stream := (p.1, p.2.stream)

namespace BinaryReader

variable {rd : BinaryReader}

@[simp] theorem size_stream (rd : BinaryReader) : rd.stream.size = rd.size := rfl

@[simp] theorem pos_stream (rd : BinaryReader) : rd.stream.pos = rd.pos := rfl

@[simp] theorem left_stream (rd : BinaryReader) : rd.stream.left = rd.left := rfl

theorem read_stream (len : ℕ) (rd : BinaryReader) :
    rd.stream.read len = (rd.read len).map fun r => ⟨r.ret, r.copied, r.next.stream⟩ := by
  have hclamp : (if (rd.stream.pos + len) % 2 ^ 64 > rd.stream.size then rd.stream.left else len) =
      if (rd.pos + len) % 2 ^ 64 > rd.size then rd.left else len := rfl
  simp only [Stream.read, hclamp, BinaryReader.read]
  generalize (if (rd.pos + len) % 2 ^ 64 > rd.size then rd.left else len) = len
  by_cases hzero : len = 0
  · simp only [hzero, if_true, Option.map_some]
  · rw [if_neg hzero, if_neg hzero]
    by_cases hle : rd.pos + len ≤ rd.size
    · have hle' : rd.stream.pos + len ≤ rd.stream.size := hle
      rw [if_pos hle, if_pos hle', Option.map_some]
      dsimp only [stream]
    · have hle' : ¬ rd.stream.pos + len ≤ rd.stream.size := hle
      rw [if_neg hle, if_neg hle', Option.map_none]

theorem readInto_stream (old : List UInt8) (rd : BinaryReader) :
    rd.stream.readInto old = (rd.readInto old).map onStream := by
  rw [Stream.readInto, BinaryReader.readInto, read_stream, Option.map_map, Option.map_map]
  rfl

/-- The address of the byte at the end is only formed by one of them, and it copies none. -/
theorem text_stream (l : UInt16) (rd : BinaryReader) :
    (if l = 0 ∨ rd.stream.pos + l.toNat ≤ rd.stream.size then
        some ((rd.stream.buf.drop rd.stream.pos).take l.toNat,
          { rd.stream with pos := rd.stream.pos + l.toNat })
      else none) =
    Option.map onStream (if l > 0 then
        if rd.pos + l.toNat ≤ rd.size then
          some ((rd.buf.drop rd.pos).take l.toNat, { rd with pos := rd.pos + l.toNat })
        else none
      else some ([], rd)) := by
  by_cases hzero : l = 0
  · subst hzero
    simp [stream, onStream]
  · have hpos : l > 0 := UInt16.pos_iff_ne_zero.mpr hzero
    rw [if_pos hpos]
    generalize l.toNat = len
    by_cases hle : rd.pos + len ≤ rd.size
    · have hle' : rd.stream.pos + len ≤ rd.stream.size := hle
      rw [if_pos hle, if_pos (.inr hle'), Option.map_some]
      rfl
    · have hle' : ¬ (l = 0 ∨ rd.stream.pos + len ≤ rd.stream.size) := not_or_intro hzero hle
      rw [if_neg hle, if_neg hle', Option.map_none]

theorem getString_stream (junk : UInt16) (rd : BinaryReader) :
    rd.stream.getString junk = (rd.getString junk).map onStream := by
  rw [Stream.getString, BinaryReader.getString, readInto_stream]
  cases hread : rd.readInto (le 2 junk.toNat) with
  | none => rfl
  | some r =>
    rw [Option.map_some, Option.bind_some, Option.bind_some]
    exact text_stream _ r.2

theorem get_stream (junk : UInt32) (d : Datum) (rd : BinaryReader) :
    rd.stream.get junk d = (rd.get junk d).map onStream := by
  cases d with
  | scalar k v =>
    rw [Stream.get, BinaryReader.get, readInto_stream, Option.map_map, Option.map_map]
    rfl
  | string v =>
    rw [Stream.get, BinaryReader.get, getString_stream, Option.map_map, Option.map_map]
    rfl
  | bytes v =>
    rw [Stream.get, BinaryReader.get, readInto_stream, Option.map_map, Option.map_map]
    rfl

end BinaryReader

end RgcFifa
