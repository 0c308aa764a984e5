import RgcFifa.Lib.BlockHash
import RgcFifa.Lib.ByteWords

/-! SHA-1 as the standard has it: the words of a block are big-endian, the schedule is given by
its recurrence, and a message is padded to whole blocks with its length in bits at the end. -/

namespace Fips180

abbrev Word := BitVec 32

@[ext] structure Hash where
  (a b c d e : Word)
  deriving DecidableEq, Repr

def ch (x y z : Word) : Word := (x &&& y) ^^^ (~~~x &&& z)

def parity (x y z : Word) : Word := x ^^^ y ^^^ z

def maj (x y z : Word) : Word := (x &&& y) ^^^ (x &&& z) ^^^ (y &&& z)

def f (t : ℕ) : Word → Word → Word → Word :=
  if t < 20 then ch else if t < 40 then parity else if t < 60 then maj else parity

def k (t : ℕ) : Word :=
  if t < 20 then 0x5A827999 else if t < 40 then 0x6ED9EBA1
  else if t < 60 then 0x8F1BBCDC else 0xCA62C1D6

def schedule (block : List Word) (t : ℕ) : Word :=
  if t < 16 then block.getD t 0
  else (schedule block (t - 3) ^^^ schedule block (t - 8) ^^^ schedule block (t - 14)
    ^^^ schedule block (t - 16)).rotateLeft 1

def round (w : ℕ → Word) (r : Hash) (t : ℕ) : Hash where
  a := r.a.rotateLeft 5 + f t r.b r.c r.d + r.e + k t + w t
  b := r.a
  c := r.b.rotateLeft 30
  d := r.c
  e := r.d

def Hash.add (h r : Hash) : Hash := ⟨h.a + r.a, h.b + r.b, h.c + r.c, h.d + r.d, h.e + r.e⟩

def compress (h : Hash) (block : List Word) : Hash :=
  h.add ((List.range 80).foldl (round (schedule block)) h)

def word (a b c d : UInt8) : Word := a.toBitVec ++ b.toBitVec ++ c.toBitVec ++ d.toBitVec

def words : List UInt8 → List Word
  | a :: b :: c :: d :: l => word a b c d :: words l
  | _ => []

def initial : Hash := ⟨0x67452301, 0xEFCDAB89, 0x98BADCFE, 0x10325476, 0xC3D2E1F0⟩

/-- A one bit, zeros up to 56 modulo 64, and the number of bits in eight bytes. -/
def pad (m : List UInt8) : List UInt8 :=
  m ++ (0x80 :: List.replicate ((119 - m.length % 64) % 64) 0 ++ ByteWords.be 8 (8 * m.length))

def Hash.bytes (h : Hash) : List UInt8 :=
  [h.a, h.b, h.c, h.d, h.e].flatMap fun w => ByteWords.be 4 w.toNat

def compressBytes (h : Hash) (block : List UInt8) : Hash := compress h (words block)

def sha1 (m : List UInt8) : List UInt8 :=
  (BlockHash.fold compressBytes 64 ((pad m).length / 64) initial (pad m)).bytes

theorem schedule_of_lt (block : List Word) {t : ℕ} (ht : t < 16) :
    schedule block t = block.getD t 0 := by
  rw [schedule]
  simp [ht]

theorem schedule_of_le (block : List Word) {t : ℕ} (ht : 16 ≤ t) :
    schedule block t = (schedule block (t - 3) ^^^ schedule block (t - 8) ^^^ schedule block (t - 14)
      ^^^ schedule block (t - 16)).rotateLeft 1 := by
  rw [schedule]
  simp [show ¬ t < 16 by omega]

theorem words_append {l : List UInt8} (hl : 4 ∣ l.length) (m : List UInt8) :
    words (l ++ m) = words l ++ words m := by
  induction l using words.induct with
  | case1 a b c d l ih =>
    have hd : 4 ∣ l.length := by
      simp only [List.length_cons] at hl
      omega
    simp [words, ih hd]
  | case2 l hshort =>
    cases l with
    | nil => simp [words]
    | cons a l =>
      obtain ⟨n, hn⟩ := hl
      match l, hn with
      | [], hn => simp only [List.length_cons, List.length_nil] at hn; omega
      | [_], hn => simp only [List.length_cons, List.length_nil] at hn; omega
      | [_, _], hn => simp only [List.length_cons, List.length_nil] at hn; omega
      | b :: c :: d :: l, _ => exact (hshort a b c d l rfl).elim

theorem length_words (l : List UInt8) : (words l).length = l.length / 4 := by
  induction l using words.induct with
  | case1 a b c d l ih =>
    simp only [words, List.length_cons, ih]
    omega
  | case2 l hshort =>
    match l, hshort with
    | [], _ => simp [words]
    | [_], _ => simp [words]
    | [_, _], _ => simp [words]
    | [_, _, _], _ => simp [words]
    | a :: b :: c :: d :: l, h => exact (h a b c d l rfl).elim

theorem toNat_word (a b c d : UInt8) : (word a b c d).toNat = ByteWords.beNat [a, b, c, d] := by
  have hb := b.toNat_lt
  have hc := c.toNat_lt
  have hd := d.toNat_lt
  simp only [word, BitVec.toNat_append, UInt8.toNat_toBitVec]
  rw [← Nat.shiftLeft_add_eq_or_of_lt hd, ← Nat.shiftLeft_add_eq_or_of_lt hc,
    ← Nat.shiftLeft_add_eq_or_of_lt hb]
  simp only [Nat.shiftLeft_eq, ByteWords.beNat, ByteWords.leNat, List.reverse_cons, List.reverse_nil,
    List.nil_append, List.cons_append]
  omega

theorem getLsbD_word (a b c d : UInt8) (i : ℕ) : (word a b c d).getLsbD i =
    if i < 8 then d.toBitVec.getLsbD i else if i < 16 then c.toBitVec.getLsbD (i - 8)
    else if i < 24 then b.toBitVec.getLsbD (i - 16) else a.toBitVec.getLsbD (i - 24) := by
  simp only [word]
  rw [BitVec.getLsbD_append, BitVec.getLsbD_append, BitVec.getLsbD_append]
  by_cases h : i < 8
  · simp [h]
  · by_cases h' : i < 16
    · simp [h, h', show i - 8 < 8 by omega]
    · have hc : ¬ i - 8 < 8 := by omega
      have hb : i - 16 < 8 ↔ i < 24 := by omega
      simp [h, h', hc, hb, show i - 8 - 8 = i - 16 by omega, show i - 16 - 8 = i - 24 by omega]

theorem words_be_four (n : ℕ) : words (ByteWords.be 4 n) = [BitVec.ofNat 32 n] := by
  have h : word (UInt8.ofNat (n / 256 / 256 / 256)) (UInt8.ofNat (n / 256 / 256))
      (UInt8.ofNat (n / 256)) (UInt8.ofNat n) = BitVec.ofNat 32 n := by
    apply BitVec.eq_of_toNat_eq
    simp only [toNat_word, ByteWords.beNat, ByteWords.leNat, List.reverse_cons, List.reverse_nil,
      List.nil_append, List.cons_append, UInt8.toNat_ofNat', BitVec.toNat_ofNat]
    omega
  simp [ByteWords.be, ByteWords.le, words, h]

/-- The eight bytes of the length are two words of the last block. -/
theorem words_be_eight (n : ℕ) :
    words (ByteWords.be 8 n) = [BitVec.ofNat 32 (n / 2 ^ 32), BitVec.ofNat 32 n] := by
  have hsplit : ByteWords.be 8 n = ByteWords.be 4 (n / 2 ^ 32) ++ ByteWords.be 4 n := by
    simp [ByteWords.be, ByteWords.le, Nat.div_div_eq_div_mul]
  rw [hsplit, words_append (by simp), words_be_four, words_be_four]
  rfl

theorem length_bytes (h : Hash) : h.bytes.length = 20 := by
  simp [Hash.bytes]

end Fips180
