import RgcFifa.BinaryReader
import RgcFifa.StreamCursor

/-! A `Stream` that is only read and a `BinaryReader`, over the same bytes and with the same calls. -/

namespace RgcFifa

open ByteWords Transition

/-- `data<T>`; out of range it is the function's static object. -/
def Stream.data (k : Scalar) (offset : ℕ) (st : Stream) : Option (BitVec (8 * k.sizeof)) :=
  if (offset + k.sizeof) % 2 ^ 64 > st.size then some 0
  else if offset + k.sizeof ≤ st.size then
    some (BitVec.ofNat _ (leNat ((st.buf.drop offset).take k.sizeof)))
  else none

/-- The calls. Both readers are given the same object, and each has locals of its own. -/
inductive ReaderOp where
  | read (len : UInt64)
  | get (junk junk' : UInt32) (d : { d : Datum // d.Sized })
  | skip (n : UInt32)
  | back (n : UInt32)
  | reset
  | data (k : Scalar) (offset : UInt64)

/-- What a call returns, or leaves in the object it is given. -/
inductive Returned where
  | nothing
  | copied (ret : ℤ) (bs : List UInt8)
  | datum (d : Datum)
  | word (k : Scalar) (v : BitVec (8 * k.sizeof))

namespace ReaderOp

def onStream : ReaderOp → Stream → Option (Returned × Stream)
  | read len, st => (st.read len.toNat).map fun r => (.copied r.ret r.copied, r.next)
  | get junk _ d, st => (st.get junk d.1).map fun (v, st) => (.datum v, st)
  | skip n, st => some (.nothing, st.skip n)
  | back n, st => some (.nothing, st.back n)
  | reset, st => some (.nothing, st.reset)
  | data k offset, st => (st.data k offset.toNat).map fun v => (.word k v, st)

def onReader : ReaderOp → BinaryReader → Option (Returned × BinaryReader)
  | read len, rd => (rd.read len.toNat).map fun r => (.copied r.ret r.copied, r.next)
  | get _ junk d, rd => (rd.get junk d.1).map fun (v, rd) => (.datum v, rd)
  | skip n, rd => some (.nothing, rd.skip n)
  | back n, rd => some (.nothing, rd.back n)
  | reset, rd => some (.nothing, rd.reset)
  | data k offset, rd => (rd.data k offset.toNat).map fun v => (.word k v, rd)

/-- The same call on both. -/
def step (op : ReaderOp) (s : Stream × BinaryReader) : Option (Stream × BinaryReader) :=
  (op.onStream s.1).bind fun (_, st) => (op.onReader s.2).map fun (_, rd) => (st, rd)

/-- Both return the same, and are at the same place in the buffer. -/
def Agree (op : ReaderOp) (s : Stream × BinaryReader) : Prop :=
  ∃ v st rd, op.onStream s.1 = some (v, st) ∧ op.onReader s.2 = some (v, rd) ∧
    st.pos = rd.pos ∧ st.left = rd.left ∧ st.pos ≤ st.size

/-- A sum that wraps does not come out small enough to pass for one in range. -/
def InRange : ReaderOp → Stream × BinaryReader → Prop
  | read len, (st, _) => st.pos + len.toNat < 2 ^ 64
  | data k offset, (st, _) =>
      offset.toNat + k.sizeof < 2 ^ 64 ∨ st.size < (offset.toNat + k.sizeof) % 2 ^ 64
  | _, _ => True

end ReaderOp

namespace Stream

variable {st : Stream}

theorem data_eq_none_iff {k : Scalar} {offset : ℕ} (hmax : st.size ≤ maxSize) :
    st.data k offset = none ↔
      ¬ (offset + k.sizeof < 2 ^ 64 ∨ st.size < (offset + k.sizeof) % 2 ^ 64) := by
  rw [maxSize] at hmax
  rw [data]
  split_ifs with hgt hle
  · exact iff_of_false (by simp) fun hn => hn (.inr hgt)
  · exact iff_of_false (by simp) fun hn => hn (.inl (by omega))
  · exact iff_of_true rfl (by omega)

/-- A length of which a byte is missing does not matter. -/
theorem InBounds.getString_short (junk : UInt16) (h : st.InBounds) (hlt : st.size < st.pos + 2) :
    st.getString junk = some ([], st.seek st.size) := by
  have hpos := h.pos_le
  have hleft := h.left_eq
  have hsize : (le 2 junk.toNat).length ≤ maxSize := by
    rw [length_le]
    decide
  obtain ⟨bs, -, hread⟩ := h.readInto hsize
  have hend : st.pos + min (le 2 junk.toNat).length st.left = st.size := by
    rw [length_le]
    omega
  rw [hend] at hread
  have hzero : (st.seek st.size).left = 0 := by
    rw [(h.seek le_rfl).left_eq, size_seek, pos_seek, Nat.sub_self]
  have hlen := clamp_le (UInt16.ofNat (leNat bs)) (st.seek st.size).left
  rw [Stream.getString, hread, Option.bind_some]
  dsimp only
  rw [if_pos (.inr (by rw [pos_seek, size_seek]; omega))]
  have hnone := Nat.le_zero.mp (hlen.trans_eq hzero)
  rw [hnone, List.take_zero]
  rfl

/-- What the local was before does not matter. -/
theorem InBounds.getString_junk (junk junk' : UInt16) (h : st.InBounds) :
    st.getString junk = st.getString junk' := by
  by_cases hlt : st.size < st.pos + 2
  · rw [h.getString_short junk hlt, h.getString_short junk' hlt]
  · have hle := Nat.not_lt.mp hlt
    rw [Stream.getString, Stream.getString, h.readInto_full _ (by rwa [length_le]),
      h.readInto_full _ (by rwa [length_le]), length_le, length_le]

theorem InBounds.get_junk {d : Datum} (junk junk' : UInt32) (h : st.InBounds) :
    st.get junk d = st.get junk' d := by
  cases d with
  | string v =>
    have hsame := h.getString_junk junk.toUInt16 junk'.toUInt16
    rw [Stream.get, Stream.get, hsame]
  | _ => rfl

end Stream

namespace BinaryReader

variable {rd : BinaryReader}

theorem data_stream (k : Scalar) (offset : ℕ) : rd.stream.data k offset = rd.data k offset := rfl

theorem back_stream (n : UInt32) : rd.stream.back n = (rd.back n).stream := by
  rw [Stream.back, back]
  by_cases hlt : rd.pos < n.toNat
  · have hlt' : rd.stream.pos < n.toNat := hlt
    rw [if_pos hlt, if_pos hlt']
    rfl
  · have hlt' : ¬ rd.stream.pos < n.toNat := hlt
    rw [if_neg hlt, if_neg hlt']
    rfl

end BinaryReader

namespace ReaderOp

variable {op : ReaderOp} {st t : Stream} {rd : BinaryReader}

theorem onStream_stream (h : rd.stream.InBounds) :
    op.onStream rd.stream = (op.onReader rd).map RgcFifa.onStream := by
  cases op with
  | read len =>
    rw [onStream, onReader, BinaryReader.read_stream, Option.map_map, Option.map_map]
    rfl
  | get junk junk' d =>
    rw [onStream, onReader, h.get_junk junk junk', BinaryReader.get_stream, Option.map_map,
      Option.map_map]
    rfl
  | skip n => rfl
  | back n =>
    rw [onStream, onReader, BinaryReader.back_stream]
    rfl
  | reset => rfl
  | data k offset =>
    rw [onStream, onReader, BinaryReader.data_stream, Option.map_map]
    rfl

theorem exists_onStream (h : st.InBounds) (hin : op.InRange (st, rd)) :
    ∃ v t, op.onStream st = some (v, t) ∧ t.InBounds := by
  cases op with
  | read len =>
    rw [onStream, h.read hin]
    exact ⟨_, _, rfl, h.seek_min _⟩
  | get junk junk' d =>
    obtain ⟨v, t, hget, ht⟩ := h.get junk d.2
    rw [onStream, hget]
    exact ⟨_, t, rfl, ht⟩
  | skip n => exact ⟨_, _, rfl, h.skip n⟩
  | back n => exact ⟨_, _, rfl, h.back n⟩
  | reset => exact ⟨_, _, rfl, h.seek (Nat.zero_le _)⟩
  | data k offset =>
    cases hdata : st.data k offset.toNat with
    | none => exact absurd hin ((Stream.data_eq_none_iff h.size_le).mp hdata)
    | some v =>
      rw [onStream, hdata]
      exact ⟨_, st, rfl, h⟩

theorem onStream_eq_none (h : st.InBounds) (hin : ¬ op.InRange (st, rd)) :
    op.onStream st = none := by
  cases op with
  | read len =>
    rw [onStream, h.read_wraps len.toNat_lt (Nat.not_lt.mp hin), Option.map_none]
  | data k offset =>
    rw [onStream, (Stream.data_eq_none_iff h.size_le).mpr hin, Option.map_none]
  | _ => exact absurd trivial hin

theorem agree_iff (h : rd.stream.InBounds) :
    op.Agree (rd.stream, rd) ↔ op.InRange (rd.stream, rd) := by
  constructor
  · rintro ⟨v, t, rd', hst, -⟩
    by_contra hin
    rw [onStream_eq_none h hin] at hst
    cases hst
  · intro hin
    obtain ⟨v, t, hst, ht⟩ := exists_onStream h hin
    obtain ⟨⟨w, rd'⟩, hrd, hpair⟩ := Option.map_eq_some_iff.mp ((onStream_stream h).symm.trans hst)
    obtain ⟨rfl, rfl⟩ := Prod.mk.inj hpair
    exact ⟨w, _, rd', hst, hrd, rfl, rfl, ht.pos_le⟩

theorem step_next {s' : Stream × BinaryReader} (h : rd.stream.InBounds)
    (hin : op.InRange (rd.stream, rd)) (hstep : op.step (rd.stream, rd) = some s') :
    s'.1 = s'.2.stream ∧ s'.1.InBounds := by
  obtain ⟨v, t, hst, ht⟩ := exists_onStream h hin
  obtain ⟨⟨w, rd'⟩, hrd, hpair⟩ := Option.map_eq_some_iff.mp ((onStream_stream h).symm.trans hst)
  obtain ⟨rfl, rfl⟩ := Prod.mk.inj hpair
  have hnext : op.step (rd.stream, rd) = some (rd'.stream, rd') := by
    rw [step, hst, Option.bind_some]
    dsimp only
    rw [hrd, Option.map_some]
  obtain rfl := Option.some.inj (hnext.symm.trans hstep)
  exact ⟨rfl, ht⟩

end ReaderOp

theorem reader_equiv_iff (b : Buffer) (ops : List ReaderOp) :
    Always ReaderOp.step ReaderOp.Agree ops (⟨b, 0⟩, ⟨b, 0⟩) ↔
      Always ReaderOp.step ReaderOp.InRange ops (⟨b, 0⟩, ⟨b, 0⟩) := by
  have hstart : Stream.InBounds ⟨b, 0⟩ := ⟨Nat.zero_le _, b.2⟩
  apply always_congr_of (I := fun s => s.1 = s.2.stream ∧ s.1.InBounds) _ _ ⟨rfl, hstart⟩
  · rintro op ⟨st, rd⟩ s' ⟨hsame, h⟩ hagree hstep
    obtain rfl : st = rd.stream := hsame
    exact ReaderOp.step_next h ((ReaderOp.agree_iff h).mp hagree) hstep
  · rintro op ⟨st, rd⟩ ⟨hsame, h⟩
    obtain rfl : st = rd.stream := hsame
    exact ReaderOp.agree_iff h

/-- From the second of two bytes on, all that is left is asked for, by the largest length. -/
theorem reader_equiv_wraps :
    ¬ Always ReaderOp.step ReaderOp.Agree [.skip 1, .read 0xFFFFFFFFFFFFFFFF]
      (⟨[1, 2], 0⟩, ⟨[1, 2], 0⟩) := by
  rintro ⟨-, hrest⟩
  obtain ⟨⟨v, st, rd, hst, -⟩, -⟩ := hrest _ rfl
  have hnone : (Stream.read (0xFFFFFFFFFFFFFFFF : UInt64).toNat ⟨[1, 2], 1⟩) = none := by decide
  have hread := congrArg (Option.map fun r => (Returned.copied r.ret r.copied, r.next)) hnone
  cases hread.symm.trans hst

end RgcFifa
