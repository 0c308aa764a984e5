import RgcFifa.Lib.CanonicalCode
import RgcFifa.Lib.LsbBits

/-! The deflate format, as what an encoder may write: literals and matches under two canonical
codes, the description of these codes in front of a dynamic block, and blocks of three kinds. The
encoder is free in its choice of matches, of code lengths and of how it describes them. -/

namespace DeflateFormat

open CanonicalCode LsbBits

def lengthExtra : List ℕ :=
  [0, 0, 0, 0, 0, 0, 0, 0, 1, 1, 1, 1, 2, 2, 2, 2, 3, 3, 3, 3, 4, 4, 4, 4, 5, 5, 5, 5, 0]

def lengthBase : List ℕ :=
  [3, 4, 5, 6, 7, 8, 9, 10, 11, 13, 15, 17, 19, 23, 27, 31, 35, 43, 51, 59, 67, 83, 99, 115, 131, 163,
    195, 227, 258]

def distExtra : List ℕ :=
  [0, 0, 0, 0, 1, 1, 2, 2, 3, 3, 4, 4, 5, 5, 6, 6, 7, 7, 8, 8, 9, 9, 10, 10, 11, 11, 12, 12, 13, 13]

def distBase : List ℕ :=
  [1, 2, 3, 4, 5, 7, 9, 13, 17, 25, 33, 49, 65, 97, 129, 193, 257, 385, 513, 769, 1025, 1537, 2049,
    3073, 4097, 6145, 8193, 12289, 16385, 24577]

/-! ### Literals and matches -/

/-- A match is a length symbol and a distance symbol, each with its extra bits. -/
inductive Token where
  | literal (b : UInt8)
  | copy (len lenExtra dist distExtra : ℕ)
  deriving DecidableEq, Repr

/-- The two codes of a block, as the code lengths of their symbols. -/
structure Codes where
  lit : List ℕ
  dist : List ℕ
  deriving DecidableEq, Repr

/-- `n` bytes, each the one `dist` before it. The match may overlap what it writes. -/
def copyBack (dist : ℕ) : ℕ → List UInt8 → List UInt8
  | 0, out => out
  | n + 1, out => copyBack dist n (out ++ [out.getD (out.length - dist) 0])

def expand (out : List UInt8) : Token → List UInt8
  | .literal b => out ++ [b]
  | .copy len ext dist ext' => copyBack (distBase.getD dist 0 + ext') (lengthBase.getD len 0 + ext) out

def tokenBits (c : Codes) : Token → List Bool
  | .literal b => code c.lit b.toNat
  | .copy len ext dist ext' => code c.lit (257 + len) ++ lsb (lengthExtra.getD len 0) ext
      ++ code c.dist dist ++ lsb (distExtra.getD dist 0) ext'

/-- The symbols have codes, the extra bits hold their values, and a match begins in what is out. -/
def Token.Valid (c : Codes) (out : List UInt8) : Token → Prop
  | .literal b => c.lit.getD b.toNat 0 ≠ 0
  | .copy len ext dist ext' => (len < 29 ∧ ext < 2 ^ lengthExtra.getD len 0 ∧ c.lit.getD (257 + len) 0 ≠ 0)
      ∧ (dist < 30 ∧ ext' < 2 ^ distExtra.getD dist 0 ∧ c.dist.getD dist 0 ≠ 0)
      ∧ distBase.getD dist 0 + ext' ≤ out.length

def expandAll (out : List UInt8) (ts : List Token) : List UInt8 := ts.foldl expand out

/-- The tokens of a block and its end. -/
def tokensBits (c : Codes) : List Token → List Bool
  | [] => code c.lit 256
  | t :: ts => tokenBits c t ++ tokensBits c ts

def ValidTokens (c : Codes) (out : List UInt8) : List Token → Prop
  | [] => c.lit.getD 256 0 ≠ 0
  | t :: ts => t.Valid c out ∧ ValidTokens c (expand out t) ts

structure Codes.Valid (c : Codes) : Prop where
  lit : (∀ l ∈ c.lit, l < 16) ∧ Kraft 15 c.lit
  dist : (∀ l ∈ c.dist, l < 16) ∧ Kraft 15 c.dist

/-! ### The description of the codes -/

/-- The alphabet in which code lengths are written. -/
inductive Run where
  | length (l : ℕ)
  | previous (n : ℕ)
  | zeros (n : ℕ)
  | manyZeros (n : ℕ)
  deriving DecidableEq, Repr

def Run.symbol : Run → ℕ
  | .length l => l
  | .previous _ => 16
  | .zeros _ => 17
  | .manyZeros _ => 18

def Run.extra : Run → List Bool
  | .length _ => []
  | .previous n => lsb 2 (n - 3)
  | .zeros n => lsb 3 (n - 3)
  | .manyZeros n => lsb 7 (n - 11)

def Run.expand (ls : List ℕ) : Run → List ℕ
  | .length l => ls ++ [l]
  | .previous n => ls ++ List.replicate n (ls.getLastD 0)
  | .zeros n => ls ++ List.replicate n 0
  | .manyZeros n => ls ++ List.replicate n 0

def Run.Valid (cl ls : List ℕ) (r : Run) : Prop :=
  cl.getD r.symbol 0 ≠ 0 ∧ match r with
    | .length l => l < 16
    | .previous n => ls ≠ [] ∧ 3 ≤ n ∧ n ≤ 6
    | .zeros n => 3 ≤ n ∧ n ≤ 10
    | .manyZeros n => 11 ≤ n ∧ n ≤ 138

def runsBits (cl : List ℕ) : List Run → List Bool
  | [] => []
  | r :: rs => code cl r.symbol ++ r.extra ++ runsBits cl rs

def ValidRuns (cl ls : List ℕ) : List Run → Prop
  | [] => True
  | r :: rs => r.Valid cl ls ∧ ValidRuns cl (r.expand ls) rs

def expandRuns (ls : List ℕ) (rs : List Run) : List ℕ := rs.foldl Run.expand ls

/-- The order in which the lengths of the code length codes are written. -/
def order : List ℕ := [16, 17, 18, 0, 8, 7, 9, 6, 10, 5, 11, 4, 12, 3, 13, 2, 14, 1, 15]

/-- `cl` are the lengths of the code length codes, of which the first `hclen` are written. -/
structure Header where
  hclen : ℕ
  cl : List ℕ
  codes : Codes
  runs : List Run
  deriving DecidableEq, Repr

structure Header.Valid (h : Header) : Prop where
  hclen : 4 ≤ h.hclen ∧ h.hclen ≤ 19
  cl : h.cl.length = 19 ∧ (∀ l ∈ h.cl, l < 8) ∧ Kraft 15 h.cl
  written : ∀ i ∈ order.drop h.hclen, h.cl.getD i 0 = 0
  sizes : (257 ≤ h.codes.lit.length ∧ h.codes.lit.length ≤ 288)
    ∧ (1 ≤ h.codes.dist.length ∧ h.codes.dist.length ≤ 32)
  codes : h.codes.Valid
  runs : ValidRuns h.cl [] h.runs
  expand : expandRuns [] h.runs = h.codes.lit ++ h.codes.dist

def Header.bits (h : Header) : List Bool :=
  lsb 5 (h.codes.lit.length - 257) ++ lsb 5 (h.codes.dist.length - 1) ++ lsb 4 (h.hclen - 4)
    ++ (order.take h.hclen).flatMap (fun i => lsb 3 (h.cl.getD i 0)) ++ runsBits h.cl h.runs

/-! ### Blocks and streams -/

/-- The codes of a fixed block. -/
def fixedCodes : Codes where
  lit := List.replicate 144 8 ++ List.replicate 112 9 ++ List.replicate 24 7 ++ List.replicate 8 8
  dist := List.replicate 32 5

/-- A stored block begins on a byte boundary, behind bits of no meaning. -/
inductive DeflateBlock where
  | stored (skip : List Bool) (data : List UInt8)
  | fixed (ts : List Token)
  | dynamic (h : Header) (ts : List Token)
  deriving DecidableEq, Repr

def DeflateBlock.type : DeflateBlock → ℕ
  | .stored _ _ => 0
  | .fixed _ => 1
  | .dynamic _ _ => 2

def DeflateBlock.body : DeflateBlock → List Bool
  | .stored skip data =>
    skip ++ lsb 16 data.length ++ lsb 16 (0xFFFF - data.length) ++ LsbBits.bits data
  | .fixed ts => tokensBits fixedCodes ts
  | .dynamic h ts => h.bits ++ tokensBits h.codes ts

def DeflateBlock.bits (last : Bool) (b : DeflateBlock) : List Bool := last :: lsb 2 b.type ++ b.body

def DeflateBlock.expand (out : List UInt8) : DeflateBlock → List UInt8
  | .stored _ data => out ++ data
  | .fixed ts => expandAll out ts
  | .dynamic _ ts => expandAll out ts

/-- A block at a bit position, behind what is out already. -/
def DeflateBlock.Valid (pos : ℕ) (out : List UInt8) : DeflateBlock → Prop
  | .stored skip data => skip.length < 8 ∧ 8 ∣ pos + 3 + skip.length ∧ data.length < 2 ^ 16
  | .fixed ts => ValidTokens fixedCodes out ts
  | .dynamic h ts => h.Valid ∧ ValidTokens h.codes out ts

def streamBits : List DeflateBlock → List Bool
  | [] => []
  | [b] => b.bits true
  | b :: bs => b.bits false ++ streamBits bs

def ValidStream (pos : ℕ) (out : List UInt8) : List DeflateBlock → Prop
  | [] => False
  | [b] => b.Valid pos out
  | b :: bs => b.Valid pos out ∧ ValidStream (pos + (b.bits false).length) (b.expand out) bs

def expandBlocks (out : List UInt8) (bs : List DeflateBlock) : List UInt8 := bs.foldl DeflateBlock.expand out

/-- The bytes of a stream. Its last byte is filled up. -/
def encode (bs : List DeflateBlock) : List UInt8 :=
  let n := ((streamBits bs).length + 7) / 8
  pack n (streamBits bs ++ List.replicate (8 * n - (streamBits bs).length) false)

theorem length_copyBack (dist n : ℕ) (out : List UInt8) :
    (copyBack dist n out).length = out.length + n := by
  induction n generalizing out with
  | zero => rfl
  | succ n ih =>
    simp [copyBack, ih]
    omega

theorem length_expand (out : List UInt8) (t : Token) : out.length ≤ (expand out t).length := by
  cases t with
  | literal b => simp [expand]
  | copy len ext dist ext' => simp [expand, length_copyBack]

theorem length_expandAll (out : List UInt8) (ts : List Token) :
    out.length ≤ (expandAll out ts).length := by
  induction ts generalizing out with
  | nil => rfl
  | cons t ts ih => exact (length_expand out t).trans (ih (expand out t))

theorem DeflateBlock.length_expand (out : List UInt8) (b : DeflateBlock) :
    out.length ≤ (b.expand out).length := by
  cases b with
  | stored skip data => simp [DeflateBlock.expand]
  | fixed ts => exact length_expandAll out ts
  | dynamic h ts => exact length_expandAll out ts

theorem length_expandBlocks (out : List UInt8) (bs : List DeflateBlock) :
    out.length ≤ (expandBlocks out bs).length := by
  induction bs generalizing out with
  | nil => rfl
  | cons b bs ih => exact (b.length_expand out).trans (ih (b.expand out))

theorem length_runExpand {cl ls : List ℕ} {r : Run} (hr : r.Valid cl ls) :
    ls.length < (r.expand ls).length := by
  obtain ⟨_, hr⟩ := hr
  cases r with
  | length l => simp [Run.expand]
  | previous n => simp [Run.expand]; omega
  | zeros n => simp [Run.expand]; omega
  | manyZeros n => simp [Run.expand]; omega

theorem length_expandRuns (ls : List ℕ) (rs : List Run) :
    ls.length ≤ (expandRuns ls rs).length := by
  induction rs generalizing ls with
  | nil => rfl
  | cons r rs ih =>
    have hle : ls.length ≤ (r.expand ls).length := by
      cases r <;> simp [Run.expand]
    exact hle.trans (ih (r.expand ls))

end DeflateFormat
