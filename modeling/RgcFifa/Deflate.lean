import RgcFifa.UnzipMeaning

/-! `Zip::zip` into a vector. zlib is given to it as it is to `Zip::unzip`. -/

namespace RgcFifa

open Loop Zip

/-- What one call of `deflate` does. -/
structure Deflated (τ : Type*) where
  status : ZStatus
  consumed : ℕ
  output : List UInt8
  state : τ

/-- The calls of zlib that compress. `deflate` is called with `Z_FINISH`. -/
structure Deflater (τ : Type*) where
  deflateInit : ℤ → Option τ
  deflateSetDictionary : τ → List UInt8 → Bool × τ
  adler : τ → UInt64
  deflateBound : τ → UInt64 → UInt64
  deflate : τ → List UInt8 → UInt32 → Deflated τ

def levelNo : ℤ := -2

def levelDefault : ℤ := -1

def levelBest : ℤ := 9

def deflateLevel (level : ℤ) : ℤ :=
  if level > levelBest ∨ level ≤ levelNo then levelDefault else level

/-- A stream of a level, with the dictionary when there is one. -/
def Deflater.start {τ : Type*} (c : Deflater τ) (dict : List UInt8) (level : ℤ) : Option τ :=
  match c.deflateInit (deflateLevel level) with
  | none => none
  | some stream =>
    if dict = [] then some stream
    else
      match c.deflateSetDictionary stream dict with
      | (false, _) => none
      | (true, stream) => some stream

namespace Zip

variable {τ : Type*} (zip : Zip) (c : Deflater τ)

/-- The constructor, where a null pointer is an empty dictionary. -/
def new (dict : List UInt8) : Zip := ⟨dict, 0⟩

def deflate (s : Unzipping τ) : Deflated τ := c.deflate s.stream s.input s.avail_out

end Zip

section Writes

variable {τ : Type*} {zip zip' : Zip} {c : Deflater τ} {pending : τ → List UInt8 → List UInt8}
  {mem : UInt64 → Bool} {level : ℤ} {s t : Unzipping τ} {stream : τ} {x y out whole : List UInt8}
  {fuel : ℕ}

end Writes

end RgcFifa
