import RgcFifa.Deflate
import RgcFifa.Lib.ByteWords

/-! Unzipping what was zipped, with the same object or with another that has the same dictionary.
Only `zip` sets `m_adler`, with which `unzip` compares the checksum of the dictionary. -/

namespace RgcFifa

open Loop Zip

/-- What zlib documents of `inflate` besides, where it has memory. -/
structure Zlib.Reads {σ : Type*} (z : Zlib σ) (phase : σ → StreamPhase)
    (meaning : List UInt8 → σ → List UInt8 → Content) : Prop extends z.Asks phase where
  sound : ∀ d s input out, (meaning d s input).verdict = .complete →
    (z.inflate s input out).status = .ok ∨ (z.inflate s input out).status = .bufError ∨
      (z.inflate s input out).status = .streamEnd ∨ (z.inflate s input out).status = .needDict
  room : ∀ s input out, input ≠ [] → out ≠ 0 → (z.inflate s input out).status ≠ .bufError
  finishes : ∀ d s input out, (meaning d s input).verdict = .complete →
    (meaning d s input).output.length ≤ out.toNat →
    (z.inflate s input out).status = .streamEnd ∨ (z.inflate s input out).status = .needDict
  starts : ∀ d s, z.inflateInit = some s → (meaning d s []).verdict ≠ .complete
  ends : ∀ d s input out, (z.inflate s input out).status ≠ .streamEnd →
    (meaning d (z.inflate s input out).state []).verdict ≠ .complete
  given : ∀ d s input, phase s = .dictionary → d ≠ [] → (meaning d s input).verdict = .complete →
    (z.inflateSetDictionary s d).1
  output : ∀ d s input out,
    (z.inflate s input out).output <+: (meaning d s input).output
  append : ∀ d s input rest,
    (meaning d s input).output <+: (meaning d s (input ++ rest)).output

section Round

variable {σ : Type*} {zip : Zip} {z : Zlib σ} {phase : σ → StreamPhase}
  {meaning : List UInt8 → σ → List UInt8 → Content} {mem : UInt64 → Bool}
  {alloc : UInt64 → Allocated} {shift : UInt64} {ndebug : Bool} {s t : Unzipping σ}
  {x out : List UInt8}

theorem unzipRound_goes (hne : s.input ≠ []) (h : (Zip.inflate z s).status = .ok ∨
    (Zip.inflate z s).status = .needDict) : zip.unzipRound z alloc shift s =
      if s.avail_out - .ofNat (Zip.inflate z s).output.length = 0 then
        grow alloc shift (inflated z s)
      else if (Zip.inflate z s).status = .needDict then
        if zip.dict = [] then .again (inflated z s) else zip.setDictionary z (inflated z s)
      else .again (inflated z s) := by
  rw [unzipRound, if_neg hne]
  rcases h with h | h <;> simp [h]

/-- The written bytes and the rest are all of `x`, and there is space. -/
structure Intact (zip : Zip) (z : Zlib σ) (meaning : List UInt8 → σ → List UInt8 → Content)
    (x : List UInt8) (s : Unzipping σ) : Prop where
  input : s.input ≠ []
  means : ⟨x, .complete⟩ = (meaning zip.dict s.stream s.input).after s.output
  space : s.output.length < s.size.toNat
  size : s.size.toNat < 2 ^ 34

/-- What is free in the buffer is a value of a `uInt`. -/
def SpaceCounts (s : Unzipping σ) : Prop := s.size.toNat - s.output.length < 2 ^ 32

/-- A round keeps the buffer, or has filled it and goes on with the next one. -/
def Grows (ndebug : Bool) (x : List UInt8) (s t : Unzipping σ) : Prop :=
  t.size = s.size ∧ s.output.length ≤ t.output.length ∨
    t.size.toNat = sizeFactor ndebug * s.size.toNat ∧ t.output.length = s.size.toNat ∧ s.size.toNat < x.length

namespace Intact

theorem complete (hs : Intact zip z meaning x s) :
    (meaning zip.dict s.stream s.input).verdict = .complete :=
  (congrArg Content.verdict hs.means).symm

theorem length_eq (hs : ⟨x, .complete⟩ = (meaning zip.dict s.stream s.input).after s.output) :
    x.length = s.output.length + (meaning zip.dict s.stream s.input).output.length := by
  have hx : x = s.output ++ (meaning zip.dict s.stream s.input).output :=
    congrArg Content.output hs
  rw [hx, List.length_append]

/-- What `inflate` leaves where the stream has not ended. -/
theorem inflated (hm : z.Means meaning) (hr : z.Reads phase meaning)
    (hs : Intact zip z meaning x s) (hend : (Zip.inflate z s).status ≠ .streamEnd)
    (hmem : (Zip.inflate z s).status ≠ .memError) :
    (inflated z s).input ≠ [] ∧ ⟨x, .complete⟩ =
      (meaning zip.dict (Zip.inflated z s).stream (Zip.inflated z s).input).after
        (Zip.inflated z s).output := by
  have hmeans : ⟨x, .complete⟩ =
      (meaning zip.dict (Zip.inflated z s).stream (Zip.inflated z s).input).after
        (Zip.inflated z s).output := by
    rw [hs.means, hm.goes_on zip.dict s.stream s.input s.avail_out hend hmem]
    simp [Content.after, Zip.inflated, Zip.inflate]
  refine ⟨fun hnil => ?_, hmeans⟩
  rw [hnil] at hmeans
  exact hr.ends zip.dict s.stream s.input s.avail_out hend (congrArg Content.verdict hmeans).symm

theorem room (hs : Intact zip z meaning x s) (hcounts : SpaceCounts s) : s.avail_out ≠ 0 := by
  intro hzero
  have havail := avail_out_toNat hs.space.le hcounts
  have hspace := hs.space
  rw [hzero, UInt32.toNat_zero] at havail
  omega

theorem goes (hr : z.Reads phase meaning) (hs : Intact zip z meaning x s) (hcounts : SpaceCounts s)
    (hend : (Zip.inflate z s).status ≠ .streamEnd) :
    (Zip.inflate z s).status = .ok ∨ (Zip.inflate z s).status = .needDict := by
  rcases hr.sound _ _ _ s.avail_out hs.complete with hok | hbuf | hstop | hneed
  · exact .inl hok
  · exact absurd hbuf (hr.room s.stream s.input s.avail_out hs.input (hs.room hcounts))
  · exact absurd hstop hend
  · exact .inr hneed

/-- What is written fits the buffer, and there is no space left exactly when it is full. -/
theorem full_iff (hz : z.Documented phase) (hs : Intact zip z meaning x s) (hcounts : SpaceCounts s) :
    (Zip.inflated z s).output.length ≤ s.size.toNat ∧
      (s.avail_out - .ofNat (Zip.inflate z s).output.length = 0 ↔
        (Zip.inflated z s).output.length = s.size.toNat) := by
  have hle := hz.output_le s.stream s.input s.avail_out
  change (Zip.inflate z s).output.length ≤ _ at hle
  have havail := avail_out_toNat hs.space.le hcounts
  have hlength : (Zip.inflated z s).output.length =
      s.output.length + (Zip.inflate z s).output.length := List.length_append
  have hspace := hs.space
  rw [← UInt32.toNat_inj, toNat_left hle, UInt32.toNat_zero]
  omega

/-- `x` does not fit a buffer that is full before the end of the stream. -/
theorem longer (hz : z.Documented phase) (hr : z.Reads phase meaning) (hs : Intact zip z meaning x s)
    (hcounts : SpaceCounts s) (hend : (Zip.inflate z s).status ≠ .streamEnd)
    (hfull : (Zip.inflated z s).output.length = s.size.toNat) : s.size.toNat < x.length := by
  have havail := avail_out_toNat hs.space.le hcounts
  have hspace := hs.space
  have hlength : (Zip.inflated z s).output.length =
      s.output.length + (Zip.inflate z s).output.length := List.length_append
  have hneed : (Zip.inflate z s).status ≠ .needDict := by
    intro hneed
    rw [needDict_output hz hneed, List.length_nil] at hlength
    omega
  have hmore : ¬ (meaning zip.dict s.stream s.input).output.length ≤ s.avail_out.toNat := by
    intro hfits
    exact (hr.finishes _ _ _ _ hs.complete hfits).elim hend hneed
  rw [length_eq hs.means]
  omega

/-- A full buffer grows. -/
theorem grown (hmem : ∀ n : UInt64, n.toNat < 2 ^ 34 → mem n) (hx : x.length < 2 ^ 32) (hne : s.input ≠ [])
    (hmeans : ⟨x, .complete⟩ = (meaning zip.dict s.stream s.input).after s.output)
    (hpos : 0 < s.size.toNat) (hfull : s.output.length = s.size.toNat) (hlonger : s.size.toNat < x.length) :
    ∃ t, grow (resize mem) (sizeShift ndebug) s = .again t ∧ Intact zip z meaning x t ∧
      t.size.toNat = sizeFactor ndebug * s.size.toNat ∧ t.output = s.output := by
  have hgrown : (s.size <<< sizeShift ndebug).toNat = sizeFactor ndebug * s.size.toNat :=
    toNat_sizeShift ndebug (by omega)
  have hdouble : 2 * s.size.toNat ≤ sizeFactor ndebug * s.size.toNat :=
    Nat.mul_le_mul_right _ (two_le_sizeFactor ndebug)
  have hfour : sizeFactor ndebug * s.size.toNat ≤ 4 * s.size.toNat :=
    Nat.mul_le_mul_right _ (sizeFactor_le_four ndebug)
  have hmade : resize mem (s.size <<< sizeShift ndebug) = .made := by
    rw [resize, if_pos (hmem _ (by omega))]
  refine ⟨{ s with size := s.size <<< sizeShift ndebug }, ?_, ⟨hne, hmeans, ?_, ?_⟩, hgrown, rfl⟩
  · rw [grow, hmade]
  · change s.output.length < (s.size <<< sizeShift ndebug).toNat
    omega
  · change (s.size <<< sizeShift ndebug).toNat < 2 ^ 34
    omega

theorem given (hm : z.Means meaning) (hr : z.Reads phase meaning) (hdict : zip.dict ≠ [])
    (hadler : zip.adler = dictAdler zip.dict) (hphase : phase s.stream = .dictionary)
    (hs : Intact zip z meaning x s) :
    ∃ t, zip.setDictionary z s = .again t ∧ Intact zip z meaning x t ∧ t.size = s.size ∧ t.output = s.output := by
  have hset := hr.given zip.dict _ _ hphase hdict hs.complete
  have hsame := hr.adler zip.dict _ hphase hset
  refine ⟨_, setDictionary_made hset (hsame.trans hadler.symm), ⟨hs.input, ?_, hs.space, hs.size⟩, rfl, rfl⟩
  rw [hs.means]
  exact congrArg (Content.after _) (hm.dictionary zip.dict _ _ hset).symm

/-- A round returns all of `x`, or goes on with it. -/
theorem round (hz : z.Documented phase) (hm : z.Means meaning) (hr : z.Reads phase meaning)
    (hadler : zip.dict = [] ∨ zip.adler = dictAdler zip.dict)
    (hmem : ∀ n : UInt64, n.toNat < 2 ^ 34 → mem n) (hx : x.length < 2 ^ 32)
    (hs : Intact zip z meaning x s) (hcounts : SpaceCounts s) :
    zip.unzipRound z (resize mem) (sizeShift ndebug) s = .leave (.done x) ∧ x.length ≤ s.size.toNat ∨
      ∃ t, zip.unzipRound z (resize mem) (sizeShift ndebug) s = .again t ∧
        Intact zip z meaning x t ∧ Grows ndebug x s t := by
  obtain ⟨hle, hleft⟩ := hs.full_iff hz hcounts
  by_cases hend : (Zip.inflate z s).status = .streamEnd
  · left
    have hall : x = (Zip.inflated z s).output :=
      congrArg Content.output (inflated_complete hm hs.means hend)
    rw [unzipRound_ends hs.input (.inl hend), ← hall]
    exact ⟨rfl, hall ▸ hle⟩
  · right
    have hgoes := hs.goes hr hcounts hend
    have hnomem : (Zip.inflate z s).status ≠ .memError := by
      intro hmem
      rw [hmem] at hgoes
      simp at hgoes
    obtain ⟨hinput, hmeans⟩ := hs.inflated hm hr hend hnomem
    have hmore : s.output.length ≤ (Zip.inflated z s).output.length := by
      rw [Zip.inflated, List.length_append]
      exact Nat.le_add_right _ _
    rw [unzipRound_goes hs.input hgoes]
    by_cases hfull : (Zip.inflated z s).output.length = s.size.toNat
    · rw [if_pos (hleft.mpr hfull)]
      have hlonger := hs.longer hz hr hcounts hend hfull
      obtain ⟨t, hgrow, ht, hsize, houtput⟩ :=
        grown hmem hx hinput hmeans (Nat.zero_lt_of_lt hs.space) hfull hlonger
      exact ⟨t, hgrow, ht, .inr ⟨hsize, houtput ▸ hfull, hlonger⟩⟩
    · have hfree : (Zip.inflated z s).output.length < s.size.toNat := by omega
      have hnext : Intact zip z meaning x (Zip.inflated z s) := ⟨hinput, hmeans, hfree, hs.size⟩
      rw [if_neg (mt hleft.mp hfull)]
      by_cases hneed : (Zip.inflate z s).status = .needDict
      · have hdict : zip.dict ≠ [] := by
          intro hnil
          have hless := hm.dictionaryLess s.stream s.input s.avail_out hneed
          rw [← hnil, hs.complete] at hless
          cases hless
        rw [if_pos hneed, if_neg hdict]
        obtain ⟨t, hset, ht, hsize, houtput⟩ :=
          hnext.given hm hr hdict (hadler.resolve_left hdict) (needDict_phase hz hneed)
        exact ⟨t, hset, ht, .inl ⟨hsize, houtput ▸ hmore⟩⟩
      · rw [if_neg hneed]
        exact ⟨_, rfl, hnext, .inl ⟨rfl, hmore⟩⟩

end Intact

/-- The buffer has one of its sizes, and what is free of it counts. -/
def Buffered (ndebug : Bool) (n : ℕ) (s : Unzipping σ) : Prop :=
  SpaceCounts s ∧ ∃ j, s.size.toNat = bufferSize ndebug n j

/-- A buffer that `x` does not fit is filled, and the next one made. -/
theorem Intact.next (hz : z.Documented phase) (hm : z.Means meaning) (hr : z.Reads phase meaning)
    (hadler : zip.dict = [] ∨ zip.adler = dictAdler zip.dict)
    (hmem : ∀ n : UInt64, n.toNat < 2 ^ 34 → mem n) (hx : x.length < 2 ^ 32) {y : List UInt8}
    (hcounts : ∀ s, zip.Visits z (resize mem) (sizeShift ndebug) (some y) s → s.input ≠ [] → SpaceCounts s)
    (hvisit : zip.Visits z (resize mem) (sizeShift ndebug) (some y) s) (hs : Intact zip z meaning x s)
    (hleaves : Leaves (zip.unzipRound z (resize mem) (sizeShift ndebug)) s)
    (hlonger : s.size.toNat < x.length) :
    ∃ t, zip.Visits z (resize mem) (sizeShift ndebug) (some y) t ∧ Intact zip z meaning x t ∧
      Leaves (zip.unzipRound z (resize mem) (sizeShift ndebug)) t ∧
      t.size.toNat = sizeFactor ndebug * s.size.toNat ∧ t.output.length = s.size.toNat := by
  obtain ⟨n, r, hrun⟩ := hleaves
  induction n generalizing s with
  | zero => cases hrun
  | succ n ih =>
    rcases hs.round hz hm hr hadler hmem hx (hcounts s hvisit hs.input) with
      ⟨_, hfits⟩ | ⟨t, hround, ht, hgrows⟩
    · omega
    · have hvisit' : zip.Visits z (resize mem) (sizeShift ndebug) (some y) t := by
        obtain ⟨s₀, hs₀, hreach⟩ := hvisit
        exact ⟨s₀, hs₀, hreach.tail hround⟩
      simp only [run, hround] at hrun
      rcases hgrows with ⟨hsame, _⟩ | ⟨hsize, hfull, _⟩
      · rw [← hsame] at hlonger ⊢
        exact ih hvisit' ht hlonger hrun
      · exact ⟨t, hvisit', ht, ⟨n, r, hrun⟩, hsize, hfull⟩

end Round

section Objects

variable {σ τ : Type*} {z : Zlib σ} {c : Deflater τ} {phase : σ → StreamPhase}
  {meaning : List UInt8 → σ → List UInt8 → Content} {pending : τ → List UInt8 → List UInt8}
  {mem : UInt64 → Bool} {ndebug : Bool} {level : ℤ} {first : Zip} {second : Unzipper}
  {stream : τ} {x : List UInt8}

end Objects

section Hello

inductive HelloState where
  | header
  | dictionary (id : UInt64)
  | start (id : UInt64)
  | rest (data : List UInt8)
  | done
  | bad

def hello : List UInt8 := [0x68, 0x65, 0x6C, 0x6C, 0x6F]

/-- The stored block of `hello`, and its checksum. -/
def helloBlock : List UInt8 :=
  [0x01, 0x05, 0x00, 0xFA, 0xFF] ++ hello ++ [0x06, 0x2C, 0x02, 0x15]

/-- What is left to write, when `k` bytes before the checksum are there. -/
def ending (k : ℕ) (data : List UInt8) (out : UInt32) : Inflated HelloState :=
  if data.length ≤ out.toNat then ⟨.streamEnd, k + 4, data, .done⟩
  else if k = 0 ∧ out.toNat = 0 then ⟨.bufError, 0, [], .rest data⟩
  else ⟨.ok, k, data.take out.toNat, .rest (data.drop out.toNat)⟩

def inflateBlock (w input : List UInt8) (out : UInt32) : Inflated HelloState :=
  if w ++ helloBlock <+: input then ending (w.length + 10) hello out
  else ⟨.dataError, 0, [], .bad⟩

/-- A deflater stores its input in one block. -/
inductive StoreState where
  | start (id : Option UInt64)
  | rest (bytes : List UInt8)

def store (x : List UInt8) : List UInt8 :=
  0x01 :: (ByteWords.le 2 x.length ++ (ByteWords.le 2 x.length).map (~~~ ·) ++ x ++
    ByteWords.be 4 (adler32 x).toNat)

def stored : StoreState → List UInt8 → List UInt8
  | .start none, input => [0x78, 0x01] ++ store input
  | .start (some id), input => [0x78, 0x3F] ++ ByteWords.be 4 id.toNat ++ store input
  | .rest bytes, _ => bytes

end Hello

end RgcFifa
