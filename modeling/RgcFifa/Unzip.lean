import RgcFifa.Lib.Loop

/-! The two overloads of `Zip::unzip`. What they use of zlib and of the allocator is given to
them. -/

namespace RgcFifa

open Loop

inductive ZStatus where
  | ok
  | streamEnd
  | needDict
  | errno
  | streamError
  | dataError
  | memError
  | bufError
  | versionError
  deriving DecidableEq, Repr

/-- What one call of `inflate` does. -/
structure Inflated (σ : Type*) where
  status : ZStatus
  consumed : ℕ
  output : List UInt8
  state : σ

/-- The calls of zlib on a `z_stream` with internal state in `σ`. A call of `inflate` is given what
`next_in` and `avail_in` stand for, and `avail_out`. -/
structure Zlib (σ : Type*) where
  inflateInit : Option σ
  inflate : σ → List UInt8 → UInt32 → Inflated σ
  inflateSetDictionary : σ → List UInt8 → Bool × σ
  adler : σ → UInt64

/-- `m_dict` and `m_adler`. -/
structure Zip where
  dict : List UInt8
  adler : UInt64

/-- The variables of the loop. `output` is what has been written, `total_out` bytes. -/
structure Unzipping (σ : Type*) where
  stream : σ
  input : List UInt8
  output : List UInt8
  size : UInt64

/-- `failed` returns 0, `done` the length of its output. -/
inductive ZipResult where
  | done (output : List UInt8)
  | failed
  | thrown
  deriving DecidableEq, Repr

inductive Allocated where
  | made
  | null
  | thrown
  deriving DecidableEq, Repr

/-- `dst.resize(size)`, with `mem` for whether there is memory of a size. -/
def resize (mem : UInt64 → Bool) (size : UInt64) : Allocated := if mem size then .made else .thrown

/-- What the size is shifted by, without and with `NDEBUG`. -/
def sizeShift (ndebug : Bool) : UInt64 := if ndebug then 2 else 1

namespace Unzipping

variable {σ : Type*} (s : Unzipping σ)

def total_out : UInt64 := .ofNat s.output.length

def avail_out : UInt32 := (s.size - s.total_out).toUInt32

end Unzipping

namespace Zip

variable {σ : Type*} (zip : Zip) (z : Zlib σ)

/-- The buffer is made larger, and what has been written is kept. -/
def grow (alloc : UInt64 → Allocated) (shift : UInt64) (s : Unzipping σ) :
    Round ZipResult (Unzipping σ) :=
  match alloc (s.size <<< shift) with
  | .made => .again { s with size := s.size <<< shift }
  | .null => .leave .failed
  | .thrown => .leave .thrown

def setDictionary (s : Unzipping σ) : Round ZipResult (Unzipping σ) :=
  match z.inflateSetDictionary s.stream zip.dict with
  | (false, _) => .leave .failed
  | (true, stream) =>
    if z.adler stream ≠ zip.adler then .leave .failed
    else .again { s with stream := stream }

def inflate (s : Unzipping σ) : Inflated σ := z.inflate s.stream s.input s.avail_out

/-- What `inflate` leaves in `m_stream` and in the buffer. -/
def inflated (s : Unzipping σ) : Unzipping σ where
  stream := (inflate z s).state
  input := s.input.drop (inflate z s).consumed
  output := s.output ++ (inflate z s).output
  size := s.size

/-- One round of `while (m_stream.avail_in)`. -/
def unzipRound (alloc : UInt64 → Allocated) (shift : UInt64) (s : Unzipping σ) :
    Round ZipResult (Unzipping σ) :=
  if s.input = [] then .leave (.done s.output)
  else
    let r := inflate z s
    let t := inflated z s
    if r.status = .streamEnd ∨ r.status = .memError then .leave (.done t.output)
    else if r.status = .bufError ∨ s.avail_out - .ofNat r.output.length = 0 then
      grow alloc shift t
    else if r.status = .needDict then
      if zip.dict = [] then .again t else zip.setDictionary z t
    else if r.status = .errno ∨ r.status = .streamError ∨ r.status = .dataError ∨
        r.status = .versionError then .leave .failed
    else .again t

def srclen (src : List UInt8) : UInt64 := .ofNat src.length

/-- `avail_in = srclen`, a `uInt`. -/
def availIn (src : List UInt8) : List UInt8 := src.take (srclen src).toUInt32.toNat

end Zip

/-- A zlib header with its identifier of a preset dictionary. -/
def presetDictionary : List UInt8 → Bool
  | cmf :: flg :: _ :: _ :: _ :: _ :: _ =>
    cmf.toNat % 16 = 8 ∧ cmf.toNat / 16 ≤ 7 ∧ (256 * cmf.toNat + flg.toNat) % 31 = 0 ∧
      flg.toNat / 32 % 2 = 1
  | _ => false

inductive StreamPhase where
  | header
  | dictionary
  | body
  deriving DecidableEq, Repr

/-- What zlib documents of `inflate`. A stream has one header, and it alone asks for a dictionary. -/
structure Zlib.Documented {σ : Type*} (z : Zlib σ) (phase : σ → StreamPhase) : Prop where
  init : ∀ s, z.inflateInit = some s → phase s = .header
  consumed_le : ∀ s input out, (z.inflate s input out).consumed ≤ input.length
  output_le : ∀ s input out, (z.inflate s input out).output.length ≤ out.toNat
  progress : ∀ s input out, (z.inflate s input out).status = .ok →
    0 < (z.inflate s input out).consumed ∨ (z.inflate s input out).output ≠ []
  bufError : ∀ s input out, (z.inflate s input out).status = .bufError →
    (z.inflate s input out).consumed = 0 ∧ (z.inflate s input out).output = []
  asks : ∀ s input out, phase s = .header → presetDictionary input →
    ∃ t, z.inflate s input out = ⟨.needDict, 6, [], t⟩ ∧ phase t = .dictionary
  header : ∀ s input out, phase s = .header → presetDictionary input = false →
    (z.inflate s input out).status ≠ .needDict ∧
      (phase (z.inflate s input out).state = .body ∨
        (z.inflate s input out).consumed = input.length)
  dictionary : ∀ s input out, phase s = .dictionary → z.inflate s input out = ⟨.needDict, 0, [], s⟩
  given : ∀ s d, phase s = .dictionary → (z.inflateSetDictionary s d).1 →
    phase (z.inflateSetDictionary s d).2 = .body
  body : ∀ s input out, phase s = .body → (z.inflate s input out).status ≠ .needDict ∧
    phase (z.inflate s input out).state = .body

end RgcFifa
