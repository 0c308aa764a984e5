import RgcFifa.UnzipReturns

/-! What a source means to `Zip::unzip`, what its buffers are and which states its loop comes to. -/

namespace RgcFifa

open Loop Zip

inductive Verdict where
  | complete
  | truncated
  | corrupt
  | dictionaryLess
  | memory
  deriving DecidableEq, Repr

/-- What a source decompresses to as far as it can be, and how it ends. -/
structure Content where
  output : List UInt8
  verdict : Verdict
  deriving DecidableEq, Repr

def Content.after (output : List UInt8) (d : Content) : Content := ⟨output ++ d.output, d.verdict⟩

/-- `meaning d s input` is what zlib in a state makes of its input, where `d` is given to it when it
asks for a dictionary. What comes after the end of a stream does not matter. -/
structure Zlib.Means {σ : Type*} (z : Zlib σ)
    (meaning : List UInt8 → σ → List UInt8 → Content) : Prop where
  goes_on : ∀ d s input out, (z.inflate s input out).status ≠ .streamEnd →
    (z.inflate s input out).status ≠ .memError →
    meaning d s input = (meaning d (z.inflate s input out).state
      (input.drop (z.inflate s input out).consumed)).after (z.inflate s input out).output
  streamEnd : ∀ d s input out, (z.inflate s input out).status = .streamEnd →
    meaning d s input = ⟨(z.inflate s input out).output, .complete⟩
  memError : ∀ d s input out, (z.inflate s input out).status = .memError →
    meaning d s input = ⟨(z.inflate s input out).output, .memory⟩
  dictionary : ∀ d s input, (z.inflateSetDictionary s d).1 →
    meaning d (z.inflateSetDictionary s d).2 input = meaning d s input
  dictionaryLess : ∀ s input out, (z.inflate s input out).status = .needDict →
    (meaning [] s input).verdict = .dictionaryLess
  complete_append : ∀ d s input rest, (meaning d s input).verdict = .complete →
    meaning d s (input ++ rest) = meaning d s input

/-- What a source means at the start, where there is one and zlib starts. -/
def Zlib.decoded {σ : Type*} (z : Zlib σ) (meaning : List UInt8 → σ → List UInt8 → Content)
    (d : List UInt8) (src : Option (List UInt8)) : Option Content :=
  src.bind fun b => z.inflateInit.map fun s => meaning d s b

namespace Zip

variable {σ : Type*} (zip : Zip) (z : Zlib σ)

/-- The state in which the loop is come to. -/
def Starts (alloc : UInt64 → Allocated) (shift : UInt64) (src : Option (List UInt8))
    (s : Unzipping σ) : Prop :=
  ∃ b stream, src = some b ∧ srclen b ≠ 0 ∧ z.inflateInit = some stream ∧
    alloc (srclen b <<< shift) = .made ∧ s = ⟨stream, availIn b, [], srclen b <<< shift⟩

/-- The states in which a round begins. -/
def Visits (alloc : UInt64 → Allocated) (shift : UInt64) (src : Option (List UInt8))
    (s : Unzipping σ) : Prop :=
  ∃ s₀, Starts z alloc shift src s₀ ∧ Reaches (zip.unzipRound z alloc shift) s₀ s

end Zip

section Source

variable {x : List UInt8}

end Source

/-- The two sums of a checksum. -/
def adlerSums (bytes : List UInt8) : ℕ × ℕ :=
  bytes.foldl (fun s byte => ((s.1 + byte.toNat) % 65521, (s.2 + s.1 + byte.toNat) % 65521)) (1, 0)

def adler32 (bytes : List UInt8) : UInt64 :=
  .ofNat (65536 * (adlerSums bytes).2 + (adlerSums bytes).1)

/-- The checksum that zlib reports of a dictionary, whose length is given to it as a `uInt`. -/
def dictAdler (dict : List UInt8) : UInt64 := adler32 (availIn dict)

/-- What zlib documents of dictionaries besides. -/
structure Zlib.Asks {σ : Type*} (z : Zlib σ) (phase : σ → StreamPhase) : Prop where
  adler : ∀ d s, phase s = .dictionary → (z.inflateSetDictionary s d).1 →
    z.adler (z.inflateSetDictionary s d).2 = dictAdler d
  header : ∀ s input rest out, phase s = .header → presetDictionary input = false →
    presetDictionary (input ++ rest) →
    (z.inflate s input out).consumed = input.length ∧ (z.inflate s input out).output = []

def sizeFactor (ndebug : Bool) : ℕ := if ndebug then 4 else 2

theorem two_le_sizeFactor (ndebug : Bool) : 2 ≤ sizeFactor ndebug := by
  cases ndebug <;> decide

/-- The sizes of the buffers of `unzip` for `n` bytes, one after the other. -/
def bufferSize (ndebug : Bool) (n j : ℕ) : ℕ := sizeFactor ndebug ^ (j + 1) * n

theorem sizeFactor_le_four (ndebug : Bool) : sizeFactor ndebug ≤ 4 := by
  cases ndebug <;> decide

theorem bufferSize_succ (ndebug : Bool) (n j : ℕ) :
    bufferSize ndebug n (j + 1) = sizeFactor ndebug * bufferSize ndebug n j := by
  rw [bufferSize, bufferSize, pow_succ', Nat.mul_assoc]

theorem toNat_sizeShift (ndebug : Bool) {n : UInt64} (hn : n.toNat < 2 ^ 61) :
    (n <<< sizeShift ndebug).toNat = sizeFactor ndebug * n.toNat := by
  have hone : (1 : UInt64).toNat % 64 = 1 := rfl
  have htwo : (2 : UInt64).toNat % 64 = 2 := rfl
  rw [UInt64.toNat_shiftLeft, Nat.shiftLeft_eq]
  cases ndebug with
  | false =>
    rw [sizeShift, sizeFactor, if_neg (by decide), if_neg (by decide), hone]
    omega
  | true =>
    rw [sizeShift, sizeFactor, if_pos rfl, if_pos rfl, htwo]
    omega

section Round

variable {σ : Type*} {zip : Zip} {z : Zlib σ} {phase : σ → StreamPhase}
  {meaning : List UInt8 → σ → List UInt8 → Content} {alloc : UInt64 → Allocated} {shift : UInt64}
  {s t : Unzipping σ} {src : Option (List UInt8)} {out : List UInt8}

theorem unzipRound_status (h : zip.unzipRound z alloc shift s = .again t) :
    (Zip.inflate z s).status ≠ .streamEnd ∧ (Zip.inflate z s).status ≠ .memError := by
  rw [unzipRound] at h
  split at h
  · cases h
  · simp only at h
    split at h
    · cases h
    · exact not_or.mp ‹_›

theorem grow_next (h : grow alloc shift s = .again t) :
    t.stream = s.stream ∧ t.input = s.input ∧ t.output = s.output := by
  rw [grow] at h
  split at h
  · obtain rfl := Round.again.inj h
    exact ⟨rfl, rfl, rfl⟩
  · cases h
  · cases h

/-- A round that goes on leaves what `inflate` does, and may have given a dictionary. -/
theorem unzipRound_next (h : zip.unzipRound z alloc shift s = .again t) :
    t.input = (inflated z s).input ∧ t.output = (inflated z s).output ∧
      (t.stream = (inflated z s).stream ∨ (Zip.inflate z s).status = .needDict ∧
        (z.inflateSetDictionary (inflated z s).stream zip.dict).1 = true ∧
          t.stream = (z.inflateSetDictionary (inflated z s).stream zip.dict).2) := by
  obtain ⟨_, hgrow | ⟨_, ⟨hneed, hasked⟩ | ⟨_, rfl⟩⟩⟩ := unzipRound_again h
  · obtain ⟨hstream, hinput, houtput⟩ := grow_next hgrow
    exact ⟨hinput, houtput, .inl hstream⟩
  · split_ifs at hasked with hdict
    · obtain rfl := hasked
      exact ⟨rfl, rfl, .inl rfl⟩
    · obtain ⟨hgiven, rfl⟩ := setDictionary_again hasked
      exact ⟨rfl, rfl, .inr ⟨hneed, hgiven, rfl⟩⟩
  · exact ⟨rfl, rfl, .inl rfl⟩

/-- Each round keeps what the written bytes and the rest stand for. -/
theorem unzipRound_means (hm : z.Means meaning) {d : Content}
    (hs : d = (meaning zip.dict s.stream s.input).after s.output)
    (h : zip.unzipRound z alloc shift s = .again t) :
    d = (meaning zip.dict t.stream t.input).after t.output := by
  obtain ⟨hend, hmem⟩ := unzipRound_status h
  obtain ⟨hinput, houtput, hstream⟩ := unzipRound_next h
  have hround : (meaning zip.dict s.stream s.input).after s.output =
      (meaning zip.dict (inflated z s).stream (inflated z s).input).after (inflated z s).output := by
    rw [hm.goes_on zip.dict s.stream s.input s.avail_out hend hmem]
    simp [Content.after, inflated, Zip.inflate]
  have hgiven : meaning zip.dict t.stream t.input =
      meaning zip.dict (inflated z s).stream (inflated z s).input := by
    rw [hinput]
    rcases hstream with hsame | ⟨_, hset, hsame⟩
    · rw [hsame]
    · rw [hsame, hm.dictionary _ _ _ hset]
  rw [hs, hround, hgiven, houtput]

theorem grow_ne_done : grow alloc shift s ≠ .leave (.done out) := by
  intro h
  rw [grow] at h
  split at h <;> cases h

theorem setDictionary_ne_done : zip.setDictionary z s ≠ .leave (.done out) := by
  intro h
  rw [setDictionary] at h
  split at h
  · cases h
  · split at h <;> cases h

/-- The ways in which a round returns what has been written. -/
theorem unzipRound_done (h : zip.unzipRound z alloc shift s = .leave (.done out)) :
    s.input = [] ∧ out = s.output ∨ s.input ≠ [] ∧ out = (inflated z s).output ∧
      ((Zip.inflate z s).status = .streamEnd ∨ (Zip.inflate z s).status = .memError) := by
  rw [unzipRound] at h
  split at h
  · exact .inl ⟨‹_›, (ZipResult.done.inj (Round.leave.inj h)).symm⟩
  · simp only at h
    split at h
    · exact .inr ⟨‹_›, (ZipResult.done.inj (Round.leave.inj h)).symm, ‹_›⟩
    · split at h
      · exact absurd h grow_ne_done
      · split at h
        · split at h
          · cases h
          · exact absurd h setDictionary_ne_done
        · split at h
          · cases h
          · cases h

theorem unzipRound_ends (hne : s.input ≠ []) (h : (Zip.inflate z s).status = .streamEnd ∨
    (Zip.inflate z s).status = .memError) :
    zip.unzipRound z alloc shift s = .leave (.done (inflated z s).output) := by
  rw [unzipRound, if_neg hne]
  simp only
  rw [if_pos h]

/-- What has been written where the loop ends with the stream is all there is. -/
theorem inflated_complete (hm : z.Means meaning) {d : Content}
    (hs : d = (meaning zip.dict s.stream s.input).after s.output)
    (hend : (Zip.inflate z s).status = .streamEnd) : d = ⟨(inflated z s).output, .complete⟩ := by
  rw [hs, hm.streamEnd zip.dict s.stream s.input s.avail_out hend]
  rfl

end Round

section Run

variable {σ : Type*} {zip : Zip} {z : Zlib σ} {phase : σ → StreamPhase}
  {meaning : List UInt8 → σ → List UInt8 → Content} {alloc : UInt64 → Allocated} {shift : UInt64}
  {s t : Unzipping σ} {src : Option (List UInt8)} {out : List UInt8}

end Run

section Dictionary

variable {σ : Type*} {zip : Zip} {z : Zlib σ} {phase : σ → StreamPhase}
  {meaning : List UInt8 → σ → List UInt8 → Content} {alloc : UInt64 → Allocated} {shift : UInt64}
  {s t : Unzipping σ} {out : List UInt8}

theorem setDictionary_made (hset : (z.inflateSetDictionary s.stream zip.dict).1)
    (hadler : z.adler (z.inflateSetDictionary s.stream zip.dict).2 = zip.adler) :
    zip.setDictionary z s =
      .again { s with stream := (z.inflateSetDictionary s.stream zip.dict).2 } := by
  rw [setDictionary]
  split
  · rename_i hfail
    rw [hfail] at hset
    cases hset
  · rename_i stream hmade
    rw [hmade] at hadler
    rw [if_neg (not_not.mpr hadler), hmade]

theorem setDictionary_adler (h : zip.setDictionary z s = .again t) :
    z.adler t.stream = zip.adler := by
  rw [setDictionary] at h
  split at h
  · cases h
  · split at h
    · cases h
    · obtain rfl := Round.again.inj h
      exact not_not.mp ‹_›

/-- Only a stream that waits for a dictionary is left when one is asked for. -/
theorem needDict_phase (hz : z.Documented phase) (h : (Zip.inflate z s).status = .needDict) :
    phase (Zip.inflate z s).state = .dictionary := by
  cases hphase : phase s.stream with
  | header =>
    cases hasks : presetDictionary s.input with
    | true =>
      obtain ⟨t, hinflate, ht⟩ := hz.asks s.stream s.input s.avail_out hphase hasks
      rw [Zip.inflate, hinflate]
      exact ht
    | false => exact absurd h (hz.header s.stream s.input s.avail_out hphase hasks).1
  | dictionary =>
    rw [(inflate_dictionary hz hphase).1]
    exact hphase
  | body => exact absurd h (hz.body s.stream s.input s.avail_out hphase).1

theorem avail_out_toNat (hle : s.output.length ≤ s.size.toNat)
    (hleft : s.size.toNat - s.output.length < 2 ^ 32) :
    s.avail_out.toNat = s.size.toNat - s.output.length := by
  have hsize := s.size.toNat_lt
  have htotal : s.total_out.toNat = s.output.length := by
    rw [Unzipping.total_out, UInt64.toNat_ofNat']
    omega
  rw [Unzipping.avail_out, UInt64.toNat_toUInt32, UInt64.toNat_sub]
  omega

theorem toNat_left {a : UInt32} {n : ℕ} (h : n ≤ a.toNat) :
    (a - UInt32.ofNat n).toNat = a.toNat - n := by
  have hlt := a.toNat_lt
  rw [UInt32.toNat_sub, UInt32.toNat_ofNat']
  omega

theorem needDict_output (hz : z.Documented phase) (h : (Zip.inflate z s).status = .needDict) :
    (Zip.inflate z s).output = [] := by
  cases hphase : phase s.stream with
  | header =>
    cases hasks : presetDictionary s.input with
    | true =>
      obtain ⟨t, hinflate, _⟩ := hz.asks s.stream s.input s.avail_out hphase hasks
      rw [Zip.inflate, hinflate]
    | false => exact absurd h (hz.header s.stream s.input s.avail_out hphase hasks).1
  | dictionary => rw [(inflate_dictionary hz hphase).1]
  | body => exact absurd h (hz.body s.stream s.input s.avail_out hphase).1

theorem needDict_inflated (hz : z.Documented phase) (h : (Zip.inflate z s).status = .needDict) :
    (inflated z s).output = s.output := by
  simp only [inflated, needDict_output hz h, List.append_nil]

/-- Nothing has been written, and a dictionary is needed for more. -/
structure Asking (phase : σ → StreamPhase) (s : Unzipping σ) : Prop where
  output : s.output = []
  asks : s.input = [] ∨ phase s.stream = .dictionary ∨
    phase s.stream = .header ∧ ∃ rest, presetDictionary (s.input ++ rest)

namespace Asking

theorem inflated (hz : z.Documented phase) (ha : z.Asks phase) (hs : Asking phase s)
    (hne : s.input ≠ []) : Asking phase (inflated z s) := by
  rcases hs.asks with hnil | hdict | ⟨hphase, rest, hrest⟩
  · exact absurd hnil hne
  · rwa [(inflate_dictionary hz hdict).2]
  · cases hasks : presetDictionary s.input with
    | true =>
      obtain ⟨t, hinflate, ht⟩ := hz.asks s.stream s.input s.avail_out hphase hasks
      constructor
      · simp [Zip.inflated, Zip.inflate, hinflate, hs.output]
      · right
        left
        simpa [Zip.inflated, Zip.inflate, hinflate] using ht
    | false =>
      obtain ⟨hall, hnone⟩ := ha.header s.stream s.input rest s.avail_out hphase hasks hrest
      constructor
      · simp [Zip.inflated, Zip.inflate, hnone, hs.output]
      · left
        simp [Zip.inflated, Zip.inflate, hall]

theorem done (hz : z.Documented phase) (ha : z.Asks phase) (hs : Asking phase s)
    (h : zip.unzipRound z alloc shift s = .leave (.done out)) : out = [] := by
  rcases unzipRound_done h with ⟨_, rfl⟩ | ⟨hne, rfl, _⟩
  · exact hs.output
  · exact (hs.inflated hz ha hne).output

/-- Without the dictionary, or with another checksum than its own, nothing more is written. -/
theorem again (hz : z.Documented phase) (ha : z.Asks phase)
    (hrefused : zip.dict = [] ∨ zip.adler ≠ dictAdler zip.dict) (hs : Asking phase s)
    (h : zip.unzipRound z alloc shift s = .again t) : Asking phase t := by
  obtain ⟨hne, hround⟩ := unzipRound_again h
  have hnext := hs.inflated hz ha hne
  rcases hround with hgrow | ⟨_, ⟨hneed, hasked⟩ | ⟨_, rfl⟩⟩
  · obtain ⟨hstream, hinput, houtput⟩ := grow_next hgrow
    exact ⟨houtput.trans hnext.output, by rw [hstream, hinput]; exact hnext.asks⟩
  · by_cases hdict : zip.dict = []
    · rw [if_pos hdict] at hasked
      rwa [← hasked]
    · rw [if_neg hdict] at hasked
      have hphase := needDict_phase hz hneed
      obtain ⟨hset, ht⟩ := setDictionary_again hasked
      have hsame := setDictionary_adler hasked
      rw [ht] at hsame
      exact absurd (hsame.symm.trans (ha.adler zip.dict _ hphase hset)) (hrefused.resolve_left hdict)
  · exact hnext

end Asking

end Dictionary

end RgcFifa
