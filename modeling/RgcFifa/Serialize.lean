import RgcFifa.Lib.ByteWords
import RgcFifa.Lib.Memory

/-! `S11NTraits` and the `MSG_SllN` macros. Each trait has three functions: `Size`, `Serialize`,
which appends to a buffer and returns a number, and `Unserialize`, which returns the number of
bytes consumed or `-1`. -/

namespace RgcFifa

open ByteWords

/-- The types whose object representation is copied. -/
inductive Scalar where
  | bool | wchar_t | Int8 | Int16 | Int32 | Int64 | UInt8 | UInt16 | UInt32 | UInt64
  | float | double | pointer
  deriving DecidableEq, Repr

/-- `sizeof`, which also covers the floating-point types. -/
def Scalar.sizeof : Scalar → ℕ
  | .bool | .Int8 | .UInt8 => 1
  | .Int16 | .UInt16 => 2
  | .wchar_t | .Int32 | .UInt32 | .float => 4
  | .Int64 | .UInt64 | .double | .pointer => 8

theorem Scalar.sizeof_le (k : Scalar) : 1 ≤ k.sizeof ∧ k.sizeof ≤ 8 := by
  cases k <;> decide

mutual

/-- The types with traits. An `Array` is given by the size of its elements and their number. -/
inductive Ty where
  | scalar (k : Scalar)
  | array (sizeofElem : ℕ+) (size : ℕ)
  | string
  | vector (elem : Ty)
  | struct (members : Members)

/-- The members of `S11N_TRAITS_n` and `MSG_SllN_n`, in order. -/
inductive Members where
  | nil
  | cons (t : Ty) (ms : Members)

end

mutual

/-- The values. A scalar is its bits, and an array its bytes. -/
def Ty.Val : Ty → Type
  | .scalar k => BitVec (8 * k.sizeof)
  | .array e n => { data : List UInt8 // data.length = e * n }
  | .string => List UInt8
  | .vector t => List t.Val
  | .struct ms => ms.Val

def Members.Val : Members → Type
  | .nil => Unit
  | .cons t ms => t.Val × ms.Val

end

def Members.length : Members → ℕ
  | .nil => 0
  | .cons _ ms => ms.length + 1

mutual

def Ty.Size : (t : Ty) → t.Val → UInt32
  | .scalar k, _ => UInt32.ofNat k.sizeof
  | .array e n, _ => UInt32.ofNat (e * n)
  | .string, (s : List UInt8) => UInt32.ofNat (s.length + 2)
  | .vector t, (v : List t.Val) => v.foldl (fun size x => size + t.Size x) 2
  | .struct ms, v => ms.Size v 0

def Members.Size : (ms : Members) → ms.Val → UInt32 → UInt32
  | .nil, _, len => len
  | .cons t ms, (v, vs), len => ms.Size vs (len + t.Size v)

end

/-- What `Serialize` returns, and what it appends to the buffer. -/
structure Serialized where
  ret : UInt32
  bytes : List UInt8
  deriving DecidableEq, Repr

/-- The loop over the elements of a vector, whose accumulator has 16 bits. -/
def serializeElems {α : Type} (f : α → Serialized) : List α → UInt16 → UInt16 × List UInt8
  | [], l => (l, [])
  | x :: xs, l =>
    let r := f x
    let q := serializeElems f xs (l.toUInt32 + r.ret).toUInt16
    (q.1, r.bytes ++ q.2)

mutual

def Ty.Serialize : (t : Ty) → t.Val → Serialized
  | .scalar k, (v : BitVec (8 * k.sizeof)) => ⟨UInt32.ofNat k.sizeof, le k.sizeof v.toNat⟩
  | .array e n, v => ⟨UInt32.ofNat (e * n), v.1⟩
  | .string, (s : List UInt8) =>
      let l := UInt16.ofNat s.length
      ⟨UInt32.ofNat (l.toNat + 2), le 2 l.toNat ++ if l > 0 then s else []⟩
  | .vector t, (v : List t.Val) =>
      let l := UInt16.ofNat v.length
      let r := serializeElems t.Serialize v 2
      ⟨r.1.toUInt32, le 2 l.toNat ++ r.2⟩
  | .struct ms, v => ms.Serialize v 0

def Members.Serialize : (ms : Members) → ms.Val → UInt32 → Serialized
  | .nil, _, len => ⟨len, []⟩
  | .cons t ms, (v, vs), len =>
      let r := t.Serialize v
      let q := ms.Serialize vs (len + r.ret)
      ⟨q.ret, r.bytes ++ q.bytes⟩

end

/-- A call of `Unserialize`: what it returns, the value it has built, the memory it has read,
as addresses and sizes, and the differences of sizes it has passed on. -/
structure Unserialized (α : Type) where
  ret : UInt32
  value : Option α
  touched : List (ℕ × ℕ)
  left : List (UInt32 × UInt32)

def unserializeElems {α : Type} (f : ℕ → UInt32 → Unserialized α) (buffer : ℕ) (size : UInt32) :
    ℕ → UInt32 → Unserialized (List α)
  | 0, consumeSize => ⟨consumeSize, some [], [], []⟩
  | count + 1, consumeSize =>
      let r := f (buffer + consumeSize.toNat) (size - consumeSize)
      if r.ret = -1 then ⟨-1, none, r.touched, (size, consumeSize) :: r.left⟩
      else
        let q := unserializeElems f buffer size count (consumeSize + r.ret)
        ⟨q.ret, r.value.bind fun x => q.value.map (x :: ·), r.touched ++ q.touched,
          (size, consumeSize) :: (r.left ++ q.left)⟩

mutual

def Ty.Unserialize : (t : Ty) → Memory → ℕ → UInt32 → Unserialized t.Val
  | .scalar k, m, buffer, size =>
      if k.sizeof > size.toNat then ⟨-1, none, [], []⟩
      else ⟨UInt32.ofNat k.sizeof, some (BitVec.ofNat _ (leNat (m.read buffer k.sizeof))),
        [(buffer, k.sizeof)], []⟩
  | .array e n, m, buffer, size =>
      if n > size.toNat then ⟨-1, none, [], []⟩
      else ⟨UInt32.ofNat (e * n), some ⟨m.read buffer (e * n), m.length_read _ _⟩,
        [(buffer, e * n)], []⟩
  | .string, m, buffer, size =>
      if size < 2 then ⟨-1, none, [], []⟩
      else
        let l := UInt16.ofNat (leNat (m.read buffer 2))
        if size < l.toUInt32 + 2 then ⟨-1, none, [(buffer, 2)], []⟩
        else ⟨UInt32.ofNat (2 + l.toNat), some (m.read (buffer + 2) l.toNat),
          [(buffer, 2), (buffer + 2, l.toNat)], []⟩
  | .vector t, m, buffer, size =>
      if size < 2 then ⟨-1, none, [], []⟩
      else
        let l := UInt16.ofNat (leNat (m.read buffer 2))
        if l > 1024 then ⟨-1, none, [(buffer, 2)], []⟩
        else
          let r := unserializeElems (fun b s => t.Unserialize m b s) buffer size l.toNat 2
          ⟨r.ret, r.value, (buffer, 2) :: r.touched, r.left⟩
  | .struct ms, m, buffer, size => ms.Unserialize m buffer size 0

/-- `SllN_TRAITS_MEMBER` for each member. -/
def Members.Unserialize : (ms : Members) → Memory → ℕ → UInt32 → UInt32 → Unserialized ms.Val
  | .nil, _, _, _, len => ⟨len, some (), [], []⟩
  | .cons t ms, m, buffer, size, len =>
      let r := t.Unserialize m (buffer + len.toNat) (size - len)
      if r.ret = -1 then ⟨-1, none, r.touched, (size, len) :: r.left⟩
      else
        let q := ms.Unserialize m buffer size (len + r.ret)
        ⟨q.ret, r.value.bind fun v => q.value.map (v, ·), r.touched ++ q.touched,
          (size, len) :: (r.left ++ q.left)⟩

end

def Members.sizeOfFirst : ℕ → (ms : Members) → ms.Val → UInt32 → UInt32
  | 0, _, _, len => len
  | _ + 1, .nil, _, len => len
  | n + 1, .cons t ms, (v, vs), len => ms.sizeOfFirst n vs (len + t.Size v)

/-- A class with one of the macros `MSG_SllN_0` to `MSG_SllN_12`. -/
structure Message where
  members : Members
  arity : members.length ≤ 12

abbrev Message.Val (msg : Message) : Type := msg.members.Val

/-- In `MSG_SllN_12` the statement ends before the last member. -/
def Message.Size (msg : Message) (v : msg.Val) : UInt32 :=
  msg.members.sizeOfFirst (if msg.members.length = 12 then 11 else msg.members.length) v 0

def Message.Serialize (msg : Message) (v : msg.Val) : Serialized := msg.members.Serialize v 0

def Message.Unserialize (msg : Message) (m : Memory) (buffer : ℕ) (size : UInt32) :
    Unserialized msg.Val :=
  msg.members.Unserialize m buffer size 0

theorem toNat_leNat_two (m : Memory) (b : ℕ) :
    (UInt16.ofNat (leNat (m.read b 2))).toNat = leNat (m.read b 2) := by
  have hlt := leNat_lt (m.read b 2)
  rw [m.length_read] at hlt
  exact UInt16.toNat_ofNat_of_lt' hlt

theorem toNat_two : (2 : UInt32).toNat = 2 := rfl

theorem toNat_toUInt32_add_two (l : UInt16) : (l.toUInt32 + 2).toNat = l.toNat + 2 := by
  have hlt := l.toNat_lt
  rw [UInt32.toNat_add, UInt16.toNat_toUInt32, toNat_two, Nat.mod_eq_of_lt (by omega)]

end RgcFifa
