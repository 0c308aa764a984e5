import RgcFifa.Lib.Fips180

/-! The SHA-1 engine. It takes its input in pieces, keeps what does not fill a block in its data
buffer, and gives the digest of everything since it was last reset. The host is little-endian. -/

namespace RgcFifa.SHA1Engine

open Fips180 (Word Hash)

def f1 (x y z : Word) : Word := (x &&& y) ||| (~~~x &&& z)

def f2 (x y z : Word) : Word := x ^^^ y ^^^ z

def f3 (x y z : Word) : Word := (x &&& y) ||| (x &&& z) ||| (y &&& z)

def f4 (x y z : Word) : Word := x ^^^ y ^^^ z

def K1 : Word := 0x5A827999

def K2 : Word := 0x6ED9EBA1

def K3 : Word := 0x8F1BBCDC

def K4 : Word := 0xCA62C1D6

/-- Rotation, as two shifts. -/
def S (n : ℕ) (X : Word) : Word := X <<< n ||| X >>> (32 - n)

/-- `W[count]`, from the words before it. -/
def expand (W : List Word) (count : ℕ) : List Word :=
  W ++ [S 1 (W.getD (count - 3) 0 ^^^ W.getD (count - 8) 0 ^^^ W.getD (count - 14) 0
    ^^^ W.getD (count - 16) 0)]

def subRound (f : Word → Word → Word → Word) (K : Word) (W : List Word) (r : Hash) (count : ℕ) :
    Hash where
  a := S 5 r.a + f r.b r.c r.d + r.e + W.getD count 0 + K
  b := r.a
  c := S 30 r.b
  d := r.c
  e := r.d

def subRound1 : List Word → Hash → ℕ → Hash := subRound f1 K1

def subRound2 : List Word → Hash → ℕ → Hash := subRound f2 K2

def subRound3 : List Word → Hash → ℕ → Hash := subRound f3 K3

def subRound4 : List Word → Hash → ℕ → Hash := subRound f4 K4

/-- The digest after one block of sixteen words. -/
def transform (digest : Hash) (data : List Word) : Hash :=
  let W := (List.range' 16 64).foldl expand data
  let r := (List.range' 0 20).foldl (subRound1 W) digest
  let r := (List.range' 20 20).foldl (subRound2 W) r
  let r := (List.range' 40 20).foldl (subRound3 W) r
  let r := (List.range' 60 20).foldl (subRound4 W) r
  ⟨digest.a + r.a, digest.b + r.b, digest.c + r.c, digest.d + r.d, digest.e + r.e⟩

/-- The words that the host sees in a buffer of bytes. -/
def hostWords : List UInt8 → List Word
  | a :: b :: c :: d :: l => Fips180.word d c b a :: hostWords l
  | _ => []

def hostBytes (ws : List Word) : List UInt8 := ws.flatMap fun w => ByteWords.le 4 w.toNat

def reverseWord (w : Word) : Word :=
  let value := w <<< 16 ||| w >>> 16
  (value &&& 0xFF00FF00) >>> 8 ||| (value &&& 0x00FF00FF) <<< 8

def byteReverse (buffer : List UInt8) (byteCount : ℕ) : List UInt8 :=
  hostBytes ((hostWords (buffer.take (byteCount / 4 * 4))).map reverseWord)
    ++ buffer.drop (byteCount / 4 * 4)

def memset (buffer : List UInt8) (start n : ℕ) : List UInt8 :=
  buffer.take start ++ List.replicate n 0 ++ buffer.drop (start + n)

theorem length_hostBytes (ws : List Word) : (hostBytes ws).length = 4 * ws.length := by
  induction ws with
  | nil => rfl
  | cons w ws ih =>
    simp [hostBytes] at ih ⊢
    omega

theorem length_hostWords (l : List UInt8) : (hostWords l).length = l.length / 4 := by
  induction l using hostWords.induct with
  | case1 a b c d l ih =>
    simp only [hostWords, List.length_cons, ih]
    omega
  | case2 l hshort =>
    match l, hshort with
    | [], _ => simp [hostWords]
    | [_], _ => simp [hostWords]
    | [_, _], _ => simp [hostWords]
    | [_, _, _], _ => simp [hostWords]
    | a :: b :: c :: d :: l, h => exact (h a b c d l rfl).elim

theorem length_byteReverse {buffer : List UInt8} {byteCount : ℕ} (h : byteCount ≤ buffer.length) :
    (byteReverse buffer byteCount).length = buffer.length := by
  simp [byteReverse, length_hostBytes, length_hostWords]
  omega

structure Context where
  digest : Hash
  countLo : Word
  countHi : Word
  data : List UInt8
  slop : ℕ
  size : data.length = 64
  room : slop < 64

def reset : Context where
  digest := ⟨0x67452301, 0xEFCDAB89, 0x98BADCFE, 0x10325476, 0xC3D2E1F0⟩
  countLo := 0
  countHi := 0
  data := List.replicate 64 0
  slop := 0
  size := by simp
  room := by simp

/-- One byte of the input: it goes into the buffer, and a full buffer is transformed. -/
def process (s : Context) (byte : UInt8) : Context :=
  let data := s.data.set s.slop byte
  have hdata : data.length = 64 := by simp [data, s.size]
  if h : s.slop + 1 = 64 then
    let data' := byteReverse data 64
    { s with
      digest := transform s.digest (hostWords data')
      data := data'
      slop := 0
      size := by simp [data', length_byteReverse, hdata]
      room := by simp }
  else
    { s with
      data := data
      slop := s.slop + 1
      size := hdata
      room := by have := s.room; omega }

/-- The bit count, in two words with the carry between them. -/
def addCount (s : Context) (count : Word) : Context :=
  let s := if s.countLo + count <<< 3 < s.countLo then { s with countHi := s.countHi + 1 } else s
  { s with
    countLo := s.countLo + count <<< 3
    countHi := s.countHi + count >>> 29 }

def updateImpl (s : Context) (buffer : List UInt8) (count : Word) : Context :=
  (buffer.take count.toNat).foldl process (addCount s count)

/-- `update` of a string: its size is cut to 32 bits. -/
def update (s : Context) (data : List UInt8) : Context :=
  updateImpl s data (BitVec.ofNat 32 data.length)

def updateChar (s : Context) (data : UInt8) : Context := updateImpl s [data] 1

def hash (digest : Hash) : List UInt8 :=
  (List.range 20).map fun count =>
    UInt8.ofNat (([digest.a, digest.b, digest.c, digest.d, digest.e].getD (count >>> 2) 0)
      >>> (8 * (3 - (count &&& 3)))).toNat

/-- The digest of what came in, from the padded buffer. The engine is reset after it. -/
def digest (s : Context) : List UInt8 × Context :=
  let count := (s.countLo >>> 3 &&& 0x3F).toNat
  let data := s.data.set count 0x80
  let count := count + 1
  let (digest, data) :=
    if 56 < count then
      let data := byteReverse (memset data count (64 - count)) 64
      (transform s.digest (hostWords data), memset data 0 56)
    else (s.digest, memset data count (56 - count))
  let data := hostWords (byteReverse data 64)
  let data := (data.set 14 s.countHi).set 15 s.countLo
  (hash (transform digest data), reset)

/-! ### One block -/

theorem S_eq_rotateLeft {n : ℕ} (hn : n < 32) (X : Word) : S n X = X.rotateLeft n := by
  simp [S, BitVec.rotateLeft_def, Nat.mod_eq_of_lt hn]

theorem f1_eq_ch : f1 = Fips180.ch := by
  funext x y z
  ext i hi
  simp only [f1, Fips180.ch, BitVec.getElem_or, BitVec.getElem_and, BitVec.getElem_xor,
    BitVec.getElem_not]
  cases x[i] <;> simp

theorem f3_eq_maj : f3 = Fips180.maj := by
  funext x y z
  ext i hi
  simp only [f3, Fips180.maj, BitVec.getElem_or, BitVec.getElem_and, BitVec.getElem_xor]
  cases x[i] <;> cases y[i] <;> simp

/-- The table of words is the schedule, as far as it is filled. -/
theorem expand_eq_schedule {data : List Word} (hdata : data.length = 16) (n : ℕ) :
    (List.range' 16 n).foldl expand data = (List.range (16 + n)).map (Fips180.schedule data) := by
  induction n with
  | zero =>
    apply List.ext_getElem
    · simp [hdata]
    · intro i hi hi'
      have hlt : i < 16 := by simpa using hi'
      simp [Fips180.schedule_of_lt data hlt, hdata, hlt]
  | succ n ih =>
    have hget {i : ℕ} (hi : 0 < i ∧ i ≤ 16) :
        ((List.range (16 + n)).map (Fips180.schedule data)).getD (16 + n - i) 0
          = Fips180.schedule data (16 + n - i) := by
      have hlt : 16 + n - i < 16 + n := by omega
      simp [List.getD_eq_getElem?_getD, hlt]
    rw [List.range'_concat, List.foldl_append, ih]
    simp only [List.foldl_cons, List.foldl_nil, expand, one_mul, ← add_assoc, List.range_succ,
      List.map_append, List.map_cons, List.map_nil]
    rw [hget (by decide), hget (by decide), hget (by decide), hget (by decide),
      S_eq_rotateLeft (by decide), Fips180.schedule_of_le data (by omega : 16 ≤ 16 + n)]

/-- A row of twenty rounds with one function and one constant. -/
theorem subRounds_eq {f : Word → Word → Word → Word} {K : Word} {W : List Word} {w : ℕ → Word}
    {start : ℕ} (hf : ∀ t, start ≤ t → t < start + 20 → Fips180.f t = f ∧ Fips180.k t = K)
    (hW : ∀ t < 80, W.getD t 0 = w t) (hstart : start + 20 ≤ 80) (r : Hash) :
    (List.range' start 20).foldl (subRound f K W) r
      = (List.range' start 20).foldl (Fips180.round w) r := by
  apply List.foldl_ext
  intro r t ht
  have hmem := List.mem_range'_1.mp ht
  obtain ⟨hft, hkt⟩ := hf t hmem.1 hmem.2
  simp only [subRound, Fips180.round, hft, hkt, hW t (by omega), S_eq_rotateLeft (by decide : 5 < 32),
    S_eq_rotateLeft (by decide : 30 < 32), Fips180.Hash.mk.injEq, and_true]
  ac_rfl

theorem transform_eq_compress (h : Hash) {data : List Word} (hdata : data.length = 16) :
    transform h data = Fips180.compress h data := by
  have hW : ∀ t < 80, ((List.range' 16 64).foldl expand data).getD t 0 = Fips180.schedule data t := by
    intro t ht
    rw [expand_eq_schedule hdata]
    simp [List.getD_eq_getElem?_getD, ht]
  have hrange : List.range 80
      = List.range' 0 20 ++ List.range' 20 20 ++ List.range' 40 20 ++ List.range' 60 20 := by decide
  have h1 (t : ℕ) (_ : 0 ≤ t) (ht : t < 0 + 20) : Fips180.f t = f1 ∧ Fips180.k t = K1 := by
    simp [Fips180.f, Fips180.k, show t < 20 by omega, f1_eq_ch, K1]
  have h2 (t : ℕ) (hl : 20 ≤ t) (ht : t < 20 + 20) : Fips180.f t = f2 ∧ Fips180.k t = K2 := by
    have hl : ¬ t < 20 := by omega
    constructor
    · simp [Fips180.f, hl, show t < 40 by omega]
      rfl
    · simp [Fips180.k, hl, show t < 40 by omega, K2]
  have h3 (t : ℕ) (hl : 40 ≤ t) (ht : t < 40 + 20) : Fips180.f t = f3 ∧ Fips180.k t = K3 := by
    have hl : ¬ t < 40 := by omega
    have hl' : ¬ t < 20 := by omega
    simp [Fips180.f, Fips180.k, hl, hl', show t < 60 by omega, f3_eq_maj, K3]
  have h4 (t : ℕ) (hl : 60 ≤ t) (ht : t < 60 + 20) : Fips180.f t = f4 ∧ Fips180.k t = K4 := by
    have hl : ¬ t < 60 := by omega
    have hl' : ¬ t < 40 := by omega
    have hl'' : ¬ t < 20 := by omega
    constructor
    · simp [Fips180.f, hl, hl', hl'']
      rfl
    · simp [Fips180.k, hl, hl', hl'', K4]
  simp only [transform, subRound1, subRound2, subRound3, subRound4, Fips180.compress, Fips180.Hash.add,
    hrange, List.foldl_append, subRounds_eq h1 hW (by decide), subRounds_eq h2 hW (by decide),
    subRounds_eq h3 hW (by decide), subRounds_eq h4 hW (by decide)]

/-! ### The bytes of the buffer -/

theorem hostWords_hostBytes (ws : List Word) : hostWords (hostBytes ws) = ws := by
  induction ws with
  | nil => simp [hostBytes, hostWords]
  | cons w ws ih =>
    have hw : Fips180.word (UInt8.ofNat (w.toNat / 256 / 256 / 256)) (UInt8.ofNat (w.toNat / 256 / 256))
        (UInt8.ofNat (w.toNat / 256)) (UInt8.ofNat w.toNat) = w := by
      have hlt := w.isLt
      apply BitVec.eq_of_toNat_eq
      simp only [Fips180.toNat_word, ByteWords.beNat, ByteWords.leNat, List.reverse_cons,
        List.reverse_nil, List.nil_append, List.cons_append, UInt8.toNat_ofNat']
      omega
    have hcons : hostBytes (w :: ws) = ByteWords.le 4 w.toNat ++ hostBytes ws := rfl
    simp only [hcons, ByteWords.le, List.cons_append, List.nil_append, hostWords, hw, ih]

theorem reverseWord_word (a b c d : UInt8) :
    reverseWord (Fips180.word d c b a) = Fips180.word a b c d := by
  apply BitVec.eq_of_getLsbD_eq
  intro i hi
  have hlt : i < 32 := hi
  simp only [reverseWord, BitVec.getLsbD_or, BitVec.getLsbD_and, BitVec.getLsbD_shiftLeft,
    BitVec.getLsbD_ushiftRight, Fips180.getLsbD_word]
  interval_cases i <;> simp

theorem map_reverseWord (l : List UInt8) : (hostWords l).map reverseWord = Fips180.words l := by
  induction l using hostWords.induct with
  | case1 a b c d l ih => simp [hostWords, Fips180.words, reverseWord_word, ih]
  | case2 l hshort => simp [hostWords, Fips180.words]

/-- After the reversal the host sees the words of the standard. -/
theorem hostWords_byteReverse {data : List UInt8} (hdata : data.length = 64) :
    hostWords (byteReverse data 64) = Fips180.words data := by
  have htake : data.take 64 = data := List.take_of_length_le (by omega)
  have hdrop : data.drop 64 = [] := List.drop_of_length_le (by omega)
  simp only [byteReverse, Nat.reduceDiv, Nat.reduceMul, htake, hdrop, List.append_nil,
    map_reverseWord, hostWords_hostBytes]

theorem hash_eq_bytes (h : Hash) : hash h = h.bytes := by
  simp [hash, Fips180.Hash.bytes, List.range_succ, ByteWords.be, ByteWords.le,
    Nat.shiftRight_eq_div_pow, Nat.div_div_eq_div_mul]

/-- A full buffer, transformed. -/
theorem transform_byteReverse (h : Hash) {data : List UInt8} (hdata : data.length = 64) :
    transform h (hostWords (byteReverse data 64)) = Fips180.compressBytes h data := by
  rw [hostWords_byteReverse hdata, transform_eq_compress]
  · rfl
  · simp [Fips180.length_words, hdata]

/-! ### The engine and its input -/

/-- The engine has taken `m` in since it was reset. -/
structure Absorbed (m : List UInt8) (s : Context) : Prop where
  blocks : (s.digest, s.data.take s.slop)
    = BlockHash.absorb Fips180.compressBytes 64 (Fips180.initial, []) m
  count : 2 ^ 32 * s.countHi.toNat + s.countLo.toNat = 8 * m.length % 2 ^ 64

theorem absorbed_reset : Absorbed [] reset where
  blocks := rfl
  count := rfl

theorem Absorbed.slop_eq {m : List UInt8} {s : Context} (h : Absorbed m s) :
    s.slop = m.length % 64 := by
  have hroom := s.room
  have hsize := s.size
  have hlen := BlockHash.length_absorb (f := Fips180.compressBytes) (b := 64) (by decide)
    Fips180.initial m
  rw [← h.blocks] at hlen
  simp only [List.length_take] at hlen
  omega

theorem take_set_slop (s : Context) (byte : UInt8) :
    (s.data.set s.slop byte).take (s.slop + 1) = s.data.take s.slop ++ [byte] := by
  have hlt : s.slop < s.data.length := by
    rw [s.size]
    exact s.room
  rw [List.set_eq_take_append_cons_drop]
  simp [hlt, List.take_append, Nat.min_eq_left hlt.le]

theorem process_push (s : Context) (byte : UInt8) :
    ((process s byte).digest, (process s byte).data.take (process s byte).slop)
      = BlockHash.push Fips180.compressBytes 64 (s.digest, s.data.take s.slop) byte := by
  have hroom := s.room
  have hlen : (s.data.take s.slop).length = s.slop := by
    simp [s.size]
    omega
  by_cases hfull : s.slop + 1 = 64
  · have hdata : s.data.set s.slop byte = s.data.take s.slop ++ [byte] := by
      rw [← take_set_slop, hfull, List.take_of_length_le (by simp [s.size])]
    have hblock : (s.data.take s.slop ++ [byte]).length = 64 := by simp [← hdata, s.size]
    simp [process, hfull, BlockHash.push, hlen, hdata, transform_byteReverse s.digest hblock]
  · simp [process, hfull, BlockHash.push, hlen, take_set_slop]

theorem process_count (s : Context) (byte : UInt8) :
    (process s byte).countHi = s.countHi ∧ (process s byte).countLo = s.countLo := by
  by_cases hfull : s.slop + 1 = 64
  · simp [process, hfull]
  · simp [process, hfull]

theorem foldl_process (l : List UInt8) (s : Context) :
    ((l.foldl process s).digest, (l.foldl process s).data.take (l.foldl process s).slop)
        = BlockHash.absorb Fips180.compressBytes 64 (s.digest, s.data.take s.slop) l
      ∧ (l.foldl process s).countHi = s.countHi ∧ (l.foldl process s).countLo = s.countLo := by
  induction l generalizing s with
  | nil => simp [BlockHash.absorb]
  | cons byte l ih =>
    obtain ⟨hblocks, hhi, hlo⟩ := ih (process s byte)
    obtain ⟨hhi', hlo'⟩ := process_count s byte
    rw [process_push] at hblocks
    simp [BlockHash.absorb, hblocks, hhi, hlo, hhi', hlo']

/-- The two words count the bits modulo 2⁶⁴: the low word wraps exactly when it becomes less. -/
theorem addCount_toNat (s : Context) (n : Word) :
    2 ^ 32 * (addCount s n).countHi.toNat + (addCount s n).countLo.toNat
      = (2 ^ 32 * s.countHi.toNat + s.countLo.toNat + 8 * n.toNat) % 2 ^ 64 := by
  have hn := n.isLt
  have hlo := s.countLo.isLt
  have hhi := s.countHi.isLt
  have hone : (1 : Word).toNat = 1 := rfl
  by_cases hcarry : s.countLo + n <<< 3 < s.countLo
  · simp only [addCount, hcarry, if_true]
    simp only [BitVec.lt_def, BitVec.toNat_add, BitVec.toNat_shiftLeft, BitVec.toNat_ushiftRight,
      Nat.shiftLeft_eq, Nat.shiftRight_eq_div_pow, hone] at hcarry ⊢
    omega
  · simp only [addCount, hcarry, if_false]
    simp only [BitVec.lt_def, BitVec.toNat_add, BitVec.toNat_shiftLeft, BitVec.toNat_ushiftRight,
      Nat.shiftLeft_eq, Nat.shiftRight_eq_div_pow] at hcarry ⊢
    omega

theorem addCount_rest (s : Context) (n : Word) : (addCount s n).digest = s.digest
    ∧ (addCount s n).data = s.data ∧ (addCount s n).slop = s.slop := by
  by_cases hcarry : s.countLo + n <<< 3 < s.countLo
  · simp [addCount, hcarry]
  · simp [addCount, hcarry]

theorem Absorbed.updateImpl {m : List UInt8} {s : Context} (h : Absorbed m s) {l : List UInt8}
    {n : Word} (hn : n.toNat ≤ l.length) : Absorbed (m ++ l.take n.toNat) (updateImpl s l n) := by
  obtain ⟨hdigest, hdata, hslop⟩ := addCount_rest s n
  obtain ⟨hblocks, hhi, hlo⟩ := foldl_process (l.take n.toNat) (addCount s n)
  rw [hdigest, hdata, hslop, h.blocks] at hblocks
  constructor
  · rw [BlockHash.absorb_append, ← hblocks]
    rfl
  · have hcount := addCount_toNat s n
    have hlen : (l.take n.toNat).length = n.toNat := by
      simp
      omega
    simp only [SHA1Engine.updateImpl, hhi, hlo, List.length_append, hlen]
    rw [hcount, h.count]
    omega

/-- What one call feeds to the engine. The size of a string is a 32-bit number. -/
theorem Absorbed.update {m : List UInt8} {s : Context} (h : Absorbed m s) (l : List UInt8) :
    Absorbed (m ++ l.take (l.length % 2 ^ 32)) (update s l) := by
  have hn : (BitVec.ofNat 32 l.length).toNat ≤ l.length := by
    rw [BitVec.toNat_ofNat]
    exact Nat.mod_le _ _
  simpa [SHA1Engine.update] using h.updateImpl hn

theorem Absorbed.updateChar {m : List UInt8} {s : Context} (h : Absorbed m s) (byte : UInt8) :
    Absorbed (m ++ [byte]) (updateChar s byte) := by
  simpa [SHA1Engine.updateChar] using h.updateImpl (l := [byte]) (n := 1) (by simp)

/-- The place of the first padding byte. -/
theorem Absorbed.countLo_slop {m : List UInt8} {s : Context} (h : Absorbed m s) :
    (s.countLo >>> 3 &&& 0x3F).toNat = s.slop := by
  have hslop := h.slop_eq
  have hcount := h.count
  have hmask : (s.countLo >>> 3 &&& 0x3F).toNat = s.countLo.toNat / 8 % 64 := by
    have h63 : (0x3F : Word).toNat = 2 ^ 6 - 1 := rfl
    rw [BitVec.toNat_and, h63, Nat.and_two_pow_sub_one_eq_mod, BitVec.toNat_ushiftRight,
      Nat.shiftRight_eq_div_pow]
  omega

/-- The words of a buffer whose last eight bytes are replaced by the bit count. -/
theorem lengthWords_eq {x rest : List UInt8} (hx : x.length = 56) (hrest : rest.length = 8)
    {hi lo : Word} {n : ℕ} (hn : 2 ^ 32 * hi.toNat + lo.toNat = 8 * n % 2 ^ 64) :
    ((Fips180.words (x ++ rest)).set 14 hi).set 15 lo
      = Fips180.words (x ++ ByteWords.be 8 (8 * n)) := by
  have hlen : (Fips180.words x).length = 14 := by simp [Fips180.length_words, hx]
  have hlo := lo.isLt
  have hhi' : BitVec.ofNat 32 (8 * n / 2 ^ 32) = hi := by
    apply BitVec.eq_of_toNat_eq
    rw [BitVec.toNat_ofNat]
    omega
  have hlo' : BitVec.ofNat 32 (8 * n) = lo := by
    apply BitVec.eq_of_toNat_eq
    rw [BitVec.toNat_ofNat]
    omega
  rw [Fips180.words_append (by simp [hx]), Fips180.words_append (by simp [hx]),
    Fips180.words_be_eight, hhi', hlo']
  match hw : Fips180.words rest with
  | [u, v] => simp [hlen]
  | [] | [_] | _ :: _ :: _ :: _ =>
    have hwl := Fips180.length_words rest
    simp [hw, hrest] at hwl

/-- The buffer after the first padding byte and `z` zeros. -/
theorem memset_pad (s : Context) (z : ℕ) :
    memset (s.data.set s.slop 0x80) (s.slop + 1) z
      = (s.data.take s.slop ++ 0x80 :: List.replicate z 0) ++ s.data.drop (s.slop + 1 + z) := by
  rw [memset, take_set_slop, List.drop_set_of_lt (by omega)]
  simp

/-- The last block: its words are those of the padded message. -/
theorem transform_last (h : Hash) {x rest : List UInt8} (hx : x.length = 56) (hrest : rest.length = 8)
    {hi lo : Word} {n : ℕ} (hn : 2 ^ 32 * hi.toNat + lo.toNat = 8 * n % 2 ^ 64) :
    transform h (((hostWords (byteReverse (x ++ rest) 64)).set 14 hi).set 15 lo)
      = Fips180.compressBytes h (x ++ ByteWords.be 8 (8 * n)) := by
  rw [hostWords_byteReverse (by simp [hx, hrest]), lengthWords_eq hx hrest hn, transform_eq_compress]
  · rfl
  · simp [Fips180.length_words, hx]

theorem Absorbed.digest {m : List UInt8} {s : Context} (h : Absorbed m s) :
    (digest s).1 = Fips180.sha1 m := by
  have hroom := s.room
  have hsize := s.size
  have htake : (s.data.take s.slop).length = s.slop := by
    simp
    omega
  have hsha : Fips180.sha1 m = (BlockHash.fold Fips180.compressBytes 64
      ((s.data.take s.slop ++ (0x80 :: List.replicate ((119 - s.slop) % 64) 0
        ++ ByteWords.be 8 (8 * m.length))).length / 64) s.digest
      (s.data.take s.slop ++ (0x80 :: List.replicate ((119 - s.slop) % 64) 0
        ++ ByteWords.be 8 (8 * m.length)))).bytes := by
    rw [Fips180.sha1, Fips180.pad, BlockHash.fold_absorb (by decide), ← h.blocks, h.slop_eq]
  rw [hsha]
  by_cases hlong : 56 < s.slop + 1
  · -- the length does not fit behind the input: two blocks
    have hz : (119 - s.slop) % 64 = (63 - s.slop) + 56 := by omega
    have hblock : (s.data.take s.slop ++ 0x80 :: List.replicate (63 - s.slop) 0).length = 64 := by
      simp
      omega
    have hrest : s.data.drop (s.slop + 1 + (63 - s.slop)) = [] := List.drop_of_length_le (by omega)
    have hsplit : s.data.take s.slop ++ (0x80 :: List.replicate ((119 - s.slop) % 64) 0
          ++ ByteWords.be 8 (8 * m.length))
        = (s.data.take s.slop ++ 0x80 :: List.replicate (63 - s.slop) 0)
          ++ (List.replicate 56 0 ++ ByteWords.be 8 (8 * m.length)) := by
      simp [hz, List.replicate_add]
    have hlast : (List.replicate 56 0 ++ ByteWords.be 8 (8 * m.length)).length = 64 := by simp
    have hlen : ((s.data.take s.slop ++ 0x80 :: List.replicate (63 - s.slop) 0)
        ++ (List.replicate 56 0 ++ ByteWords.be 8 (8 * m.length))).length / 64 = 2 := by
      rw [List.length_append, hblock, hlast]
    have hmemset : 64 - (s.slop + 1) = 63 - s.slop := by omega
    have hzeros (data : List UInt8) : memset data 0 56 = List.replicate 56 0 ++ data.drop 56 := by
      simp [memset]
    have hrev : (byteReverse (s.data.take s.slop ++ 0x80 :: List.replicate (63 - s.slop) 0) 64).length
        = _ := length_byteReverse hblock.ge
    rw [hsplit, hlen, BlockHash.fold_block hblock, BlockHash.fold_one hlast]
    simp only [SHA1Engine.digest, h.countLo_slop, hlong, if_true, hmemset, memset_pad, hrest,
      List.append_nil, transform_byteReverse s.digest hblock, hzeros, hash_eq_bytes]
    rw [transform_last _ (by simp) (by simp [hrev, hblock]) h.count]
  · have hz : (119 - s.slop) % 64 = 55 - s.slop := by omega
    have hx : (s.data.take s.slop ++ 0x80 :: List.replicate (55 - s.slop) 0).length = 56 := by
      simp
      omega
    have hrest : (s.data.drop (s.slop + 1 + (55 - s.slop))).length = 8 := by
      simp
      omega
    have hpad : s.data.take s.slop ++ (0x80 :: List.replicate ((119 - s.slop) % 64) 0
          ++ ByteWords.be 8 (8 * m.length))
        = (s.data.take s.slop ++ 0x80 :: List.replicate (55 - s.slop) 0)
          ++ ByteWords.be 8 (8 * m.length) := by
      simp [hz]
    have hlen : ((s.data.take s.slop ++ 0x80 :: List.replicate (55 - s.slop) 0)
        ++ ByteWords.be 8 (8 * m.length)).length = 64 := by
      rw [List.length_append, hx, ByteWords.length_be]
    have hmemset : 56 - (s.slop + 1) = 55 - s.slop := by omega
    rw [hpad, hlen, BlockHash.fold_one hlen]
    simp only [SHA1Engine.digest, h.countLo_slop, hlong, if_false, hmemset, memset_pad,
      transform_last s.digest hx hrest h.count, hash_eq_bytes]

/-! ### Runs of the engine -/

inductive Call where
  | data (buffer : List UInt8) (length : Word) (readable : length.toNat ≤ buffer.length)
  | string (data : List UInt8)
  | char (data : UInt8)
  | reset
  | digest

/-- The engine after a call, with the digest that the call gives. -/
def call (s : Context) : Call → Context × Option (List UInt8)
  | .data buffer length _ => (updateImpl s buffer length, none)
  | .string data => (update s data, none)
  | .char data => (updateChar s data, none)
  | .reset => (reset, none)
  | .digest => ((digest s).2, some (digest s).1)

def digests (s : Context) : List Call → List (List UInt8)
  | [] => []
  | c :: cs => (call s c).2.toList ++ digests (call s c).1 cs

/-- The input since the last reset, after a call. -/
def fed (m : List UInt8) : Call → List UInt8
  | .data buffer length _ => m ++ buffer.take length.toNat
  | .string data => m ++ data.take (data.length % 2 ^ 32)
  | .char data => m ++ [data]
  | .reset | .digest => []

/-- The digests that the standard gives for the same calls. -/
def expected (m : List UInt8) : List Call → List (List UInt8)
  | [] => []
  | .digest :: cs => Fips180.sha1 m :: expected [] cs
  | c :: cs => expected (fed m c) cs

theorem Absorbed.call {m : List UInt8} {s : Context} (h : Absorbed m s) (c : Call) :
    Absorbed (fed m c) (call s c).1 := by
  cases c with
  | data buffer length readable => exact h.updateImpl readable
  | string data => exact h.update data
  | char data => exact h.updateChar data
  | reset => exact absorbed_reset
  | digest => exact absorbed_reset

theorem Absorbed.digests {m : List UInt8} {s : Context} (h : Absorbed m s) (cs : List Call) :
    digests s cs = expected m cs := by
  induction cs generalizing m s with
  | nil => rfl
  | cons c cs ih =>
    have hrest := ih (h.call c)
    cases c with
    | digest =>
      simp only [fed] at hrest
      simp [SHA1Engine.digests, expected, SHA1Engine.call, ← hrest, h.digest]
    | data _ _ _ | string _ | char _ | reset =>
      simp only [SHA1Engine.digests, expected, ← hrest]
      rfl

/-- However the input is cut into calls, and whatever the engine did before, each digest is the
SHA-1 of what came in since the last digest or reset. -/
theorem digests_eq_sha1 (cs : List Call) : digests reset cs = expected [] cs :=
  absorbed_reset.digests cs

/-- In every state that calls lead to, the two words of the bit count and the fill of the buffer
are those of the whole input, and the registers hold its full blocks. -/
theorem context_of_calls (cs : List Call) :
    let s := cs.foldl (fun s c => (call s c).1) reset
    let m := cs.foldl fed []
    2 ^ 32 * s.countHi.toNat + s.countLo.toNat = 8 * m.length % 2 ^ 64
      ∧ s.slop = m.length % 64
      ∧ s.data.take s.slop = m.drop (64 * (m.length / 64))
      ∧ s.digest = BlockHash.fold Fips180.compressBytes 64 (m.length / 64) Fips180.initial m := by
  have hrun (cs : List Call) (s : Context) (m : List UInt8) (h : Absorbed m s) :
      Absorbed (cs.foldl fed m) (cs.foldl (fun s c => (call s c).1) s) := by
    induction cs generalizing s m with
    | nil => exact h
    | cons c cs ih => exact ih _ _ (h.call c)
  have h := hrun cs reset [] absorbed_reset
  have hblocks := h.blocks
  rw [BlockHash.absorb_eq (by decide)] at hblocks
  obtain ⟨hdigest, hdata⟩ := Prod.mk.inj hblocks
  exact ⟨h.count, h.slop_eq, hdata, hdigest⟩

/-! ### The text of a digest -/

def digits : List Char := "0123456789abcdef".toList

def digestToHex (bytes : List UInt8) : List Char :=
  bytes.flatMap fun c : UInt8 =>
    [digits.getD ((c >>> 4) &&& 0xF).toNat ' ', digits.getD (c &&& 0xF).toNat ' ']

def hexValue (c : Char) : ℕ := digits.idxOf c

def ofHex : List Char → List UInt8
  | hi :: lo :: text => UInt8.ofNat (16 * hexValue hi + hexValue lo) :: ofHex text
  | _ => []

theorem ofHex_digestToHex (bytes : List UInt8) : ofHex (digestToHex bytes) = bytes := by
  have hbyte : ∀ n < 256,
      UInt8.ofNat (16 * hexValue (digits.getD ((UInt8.ofNat n >>> 4) &&& 0xF).toNat ' ')
        + hexValue (digits.getD (UInt8.ofNat n &&& 0xF).toNat ' ')) = UInt8.ofNat n := by
    decide +kernel
  induction bytes with
  | nil => simp [digestToHex, ofHex]
  | cons c bytes ih =>
    have hc := hbyte c.toNat c.toNat_lt
    simp only [UInt8.ofNat_toNat] at hc
    simp only [digestToHex] at ih
    simp only [digestToHex, List.flatMap_cons, List.cons_append, List.nil_append, ofHex, hc, ih]

end RgcFifa.SHA1Engine
