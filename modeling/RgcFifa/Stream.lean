import RgcFifa.Lib.ByteWords

/-! The output side of `Common/Stream.h`: the ten-byte frame header, appended
fields, and the length that `Stream::eos` writes last. -/

namespace RgcFifa

structure Stream where
  buf : List UInt8
  pos : ℕ := 0
  deriving DecidableEq

namespace Stream

def ofHeader (cmd : UInt32) (target source : UInt16) : Stream where
  buf := [0, 0, (cmd >>> 24).toUInt8, ((cmd >>> 16) &&& 0xFF).toUInt8,
    ((cmd >>> 8) &&& 0xFF).toUInt8, (cmd &&& 0xFF).toUInt8,
    (target >>> 8).toUInt8, (target &&& 0xFF).toUInt8,
    (source >>> 8).toUInt8, (source &&& 0xFF).toUInt8]

def size (st : Stream) : ℕ := st.buf.length

def append (st : Stream) (b : List UInt8) : Stream := { st with buf := st.buf ++ b }

/-- `operator<<(const T &)` at `T = UInt16`: the object's own bytes. -/
def putUInt16 (st : Stream) (v : UInt16) : Stream := st.append (ByteWords.le 2 v.toNat)

/-- `operator<<(const char *)`: a 16-bit length and that many characters. -/
def putChars (st : Stream) (v : List UInt8) : Stream :=
  let len := UInt16.ofNat v.length
  (st.putUInt16 len).append (v.take len.toNat)

/-- `data<UInt16>() = v`. Short streams write to the function's static object. -/
def setLength (st : Stream) (v : UInt16) : Stream :=
  if 2 > st.size then st
  else { st with buf := ByteWords.le 2 v.toNat ++ st.buf.drop 2 }

/-- `Stream::eos`. The length is computed in `size_t` and narrowed to 16 bits. -/
def eos (st : Stream) : Stream := st.setLength (UInt64.ofNat st.size - 10).toUInt16

@[simp] theorem size_ofHeader (cmd : UInt32) (target source : UInt16) :
    (ofHeader cmd target source).size = 10 := rfl

@[simp] theorem size_append (st : Stream) (b : List UInt8) :
    (st.append b).size = st.size + b.length := by
  simp [size, append]

theorem append_append (st : Stream) (b c : List UInt8) :
    (st.append b).append c = st.append (b ++ c) := by
  simp [append]

@[simp] theorem size_setLength (st : Stream) (v : UInt16) : (st.setLength v).size = st.size := by
  by_cases h : 2 > st.size
  · simp [setLength, h]
  · have hl : 2 ≤ st.buf.length := Nat.not_lt.mp h
    simp only [setLength, h, if_false]
    simp only [size, List.length_append, ByteWords.length_le, List.length_drop]
    omega

@[simp] theorem size_eos (st : Stream) : st.eos.size = st.size := size_setLength st _

theorem eosLength {n : ℕ} (h : 10 ≤ n) :
    (UInt64.ofNat n - 10).toUInt16.toNat = (n - 10) % 65536 := by
  have h10 : (10 : UInt64).toNat = 10 := rfl
  rw [UInt64.toNat_toUInt16, UInt64.toNat_sub, UInt64.toNat_ofNat', h10]
  omega

theorem buf_eos (cmd : UInt32) (target source : UInt16) (body : List UInt8) :
    ((ofHeader cmd target source).append body).eos.buf =
      ByteWords.le 2 (body.length % 65536) ++ (ofHeader cmd target source).buf.drop 2 ++ body := by
  have hs : ((ofHeader cmd target source).append body).size = 10 + body.length := by simp
  have hd : ((ofHeader cmd target source).append body).buf.drop 2 =
      (ofHeader cmd target source).buf.drop 2 ++ body := rfl
  rw [eos, setLength, if_neg (by omega), eosLength (by omega), hs, hd, Nat.add_sub_cancel_left,
    List.append_assoc]

end Stream

end RgcFifa
