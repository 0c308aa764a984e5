import RgcFifa.UnzipMeaning

/-! When `Zip::unzip` returns complete data only. The loop ends when the input does, and also when
zlib runs out of memory, and returns what has been written by then. An error is not looked at while
the buffer is full. -/

namespace RgcFifa

open Loop Zip

/-- What zlib documents of `inflate` besides. It writes as much as there is space for, and leaves
input for lack of space only, or after an error. -/
structure Zlib.Decodes {σ : Type*} (z : Zlib σ) (phase : σ → StreamPhase)
    (meaning : List UInt8 → σ → List UInt8 → Content) : Prop extends z.Asks phase where
  room : ∀ s input out, input ≠ [] → out ≠ 0 → (z.inflate s input out).status ≠ .bufError
  fills : ∀ d s input out, (z.inflate s input out).status ≠ .needDict →
    (z.inflate s input out).status ≠ .memError →
    (z.inflate s input out).output = (meaning d s input).output.take out.toNat
  goes : ∀ d s input out,
    (meaning d s input).verdict = .truncated ∨ (meaning d s input).verdict = .memory →
    (z.inflate s input out).status = .ok ∨ (z.inflate s input out).status = .bufError ∨
      (z.inflate s input out).status = .needDict ∨ (z.inflate s input out).status = .memError
  fails : ∀ d s input out, (meaning d s input).verdict = .corrupt →
    (meaning d s input).output.length < out.toNat →
    (z.inflate s input out).status = .dataError ∨ (z.inflate s input out).status = .needDict
  takes : ∀ d s input out, (meaning d s input).verdict = .corrupt → input ≠ [] →
    (z.inflate s input out).status ≠ .needDict →
    ((z.inflate s input out).consumed = input.length ↔
      (meaning d s input.dropLast).verdict ≠ .corrupt ∧
        (meaning d s input.dropLast).output.length ≤ out.toNat)
  shorter : ∀ d s input out, (z.inflate s input out).status ≠ .streamEnd →
    (z.inflate s input out).status ≠ .memError → (z.inflate s input out).consumed < input.length →
    meaning d s input.dropLast = (meaning d (z.inflate s input out).state
      (input.drop (z.inflate s input out).consumed).dropLast).after (z.inflate s input out).output
  ends : ∀ d s input out, (z.inflate s input out).status ≠ .streamEnd →
    (meaning d (z.inflate s input out).state []).verdict ≠ .complete
  waits : ∀ d s, phase s = .dictionary → (meaning d s []).output = []
  given : ∀ d s input, phase s = .dictionary → d ≠ [] → (meaning d s input).output ≠ [] →
    (z.inflateSetDictionary s d).1
  dictionaryLess : ∀ d s input, (meaning d s input).verdict = .dictionaryLess →
    (meaning d s input).output = []

namespace Zip

variable {σ : Type*} (zip : Zip) (z : Zlib σ)

/-- The source is corrupt with its last byte only, and a buffer is full with what is written before
the error is found. -/
def FailsFull (meaning : List UInt8 → σ → List UInt8 → Content) (ndebug : Bool) (stream : σ)
    (src : List UInt8) : Prop :=
  (meaning zip.dict stream src.dropLast).verdict ≠ .corrupt ∧
    ∃ j, (meaning zip.dict stream src.dropLast).output.length ≤ bufferSize ndebug src.length j ∧
      bufferSize ndebug src.length j ≤ (meaning zip.dict stream src).output.length

/-- `avail_in` counts the source, and `avail_out` what it decompresses to in any of the buffers. -/
def Small (meaning : List UInt8 → σ → List UInt8 → Content) (src : Option (List UInt8)) : Prop :=
  (∀ b, src = some b → b.length < 2 ^ 30) ∧
    ∀ c, z.decoded meaning zip.dict src = some c → c.output.length < 2 ^ 30

end Zip

section Round

variable {σ : Type*} {zip : Zip} {z : Zlib σ} {phase : σ → StreamPhase}
  {meaning : List UInt8 → σ → List UInt8 → Content} {alloc : UInt64 → Allocated} {shift : UInt64}
  {s t : Unzipping σ} {stream : σ} {first out : List UInt8}

/-- What a state in the loop has of the source. -/
structure Along (zip : Zip) (z : Zlib σ) (phase : σ → StreamPhase)
    (meaning : List UInt8 → σ → List UInt8 → Content) (stream : σ) (first : List UInt8)
    (s : Unzipping σ) : Prop where
  means : meaning zip.dict stream first = (meaning zip.dict s.stream s.input).after s.output
  dropLast : s.input ≠ [] → meaning zip.dict stream first.dropLast =
    (meaning zip.dict s.stream s.input.dropLast).after s.output
  header : phase s.stream = .header → s.input = first ∨ s.input = []
  dictionary : phase s.stream = .dictionary → s.input = [] ∨ presetDictionary first
  written : phase s.stream = .body ∨ s.input = [] ∨ s.output = []
  ended : s.input = [] → s.output ≠ [] → (meaning zip.dict stream first).verdict ≠ .complete
  corrupt : s.input = [] → s.output ≠ [] → (meaning zip.dict stream first).verdict = .corrupt →
    (meaning zip.dict stream first.dropLast).verdict ≠ .corrupt

namespace Along

theorem start (hz : z.Documented phase) (hinit : z.inflateInit = some stream) (size : UInt64) :
    Along zip z phase meaning stream first ⟨stream, first, [], size⟩ where
  means := rfl
  dropLast _ := rfl
  header _ := .inl rfl
  dictionary h := by
    rw [hz.init stream hinit] at h
    cases h
  written := .inr (.inr rfl)
  ended _ h := absurd rfl h
  corrupt _ h := absurd rfl h

theorem output_isPrefix (hs : Along zip z phase meaning stream first s) :
    s.output <+: (meaning zip.dict stream first).output := by
  rw [hs.means]
  exact List.prefix_append _ _

theorem verdict_eq (hs : Along zip z phase meaning stream first s) :
    (meaning zip.dict stream first).verdict = (meaning zip.dict s.stream s.input).verdict := by
  rw [hs.means]
  rfl

theorem length_output (hs : Along zip z phase meaning stream first s) :
    (meaning zip.dict stream first).output.length =
      s.output.length + (meaning zip.dict s.stream s.input).output.length := by
  rw [hs.means]
  exact List.length_append

/-- A dictionary is asked for before anything is written. -/
theorem needDict (hz : z.Documented phase) (hs : Along zip z phase meaning stream first s)
    (hne : s.input ≠ []) (hneed : (Zip.inflate z s).status = .needDict) :
    s.output = [] ∧ presetDictionary first := by
  have hbody : phase s.stream ≠ .body := by
    intro hbody
    exact (hz.body s.stream s.input s.avail_out hbody).1 hneed
  refine ⟨(hs.written.resolve_left hbody).resolve_left hne, ?_⟩
  cases hphase : phase s.stream with
  | header =>
    rw [← (hs.header hphase).resolve_right hne, ← Bool.not_eq_false]
    intro hasks
    exact (hz.header s.stream s.input s.avail_out hphase hasks).1 hneed
  | dictionary => exact (hs.dictionary hphase).resolve_left hne
  | body => exact absurd hphase hbody

/-- What `inflate` leaves of the phases. -/
theorem inflated_phase (hz : z.Documented phase) (hs : Along zip z phase meaning stream first s)
    (hne : s.input ≠ []) : (inflated z s).input = [] ∨ phase (inflated z s).stream = .body ∨
      phase (inflated z s).stream = .dictionary ∧ presetDictionary first ∧
        (inflated z s).output = [] := by
  cases hphase : phase s.stream with
  | header =>
    cases hasks : presetDictionary s.input with
    | true =>
      obtain ⟨t, hinflate, ht⟩ := hz.asks s.stream s.input s.avail_out hphase hasks
      have hneed : (Zip.inflate z s).status = .needDict := by rw [Zip.inflate, hinflate]
      obtain ⟨hnone, hfirst⟩ := hs.needDict hz hne hneed
      refine .inr (.inr ⟨needDict_phase hz hneed, hfirst, ?_⟩)
      rw [needDict_inflated hz hneed, hnone]
    | false =>
      rcases (hz.header s.stream s.input s.avail_out hphase hasks).2 with hbody | hall
      · exact .inr (.inl hbody)
      · exact .inl (List.drop_eq_nil_of_le hall.ge)
  | dictionary =>
    rw [(inflate_dictionary hz hphase).2]
    exact .inr (.inr ⟨hphase, (hs.dictionary hphase).resolve_left hne,
      (hs.written.resolve_left (by simp [hphase])).resolve_left hne⟩)
  | body => exact .inr (.inl (hz.body s.stream s.input s.avail_out hphase).2)

theorem inflated_means (hm : z.Means meaning) (hs : Along zip z phase meaning stream first s)
    (hend : (Zip.inflate z s).status ≠ .streamEnd) (hmem : (Zip.inflate z s).status ≠ .memError) :
    meaning zip.dict stream first = (meaning zip.dict (inflated z s).stream
      (inflated z s).input).after (inflated z s).output := by
  rw [hs.means, hm.goes_on zip.dict s.stream s.input s.avail_out hend hmem]
  simp only [Content.after, inflated, Zip.inflate, List.append_assoc]

/-- What is written is the beginning of what the source means. -/
theorem inflated_isPrefix (hm : z.Means meaning) (hs : Along zip z phase meaning stream first s)
    (hend : (Zip.inflate z s).status ≠ .streamEnd) (hmem : (Zip.inflate z s).status ≠ .memError) :
    (inflated z s).output <+: (meaning zip.dict stream first).output := by
  rw [hs.inflated_means hm hend hmem]
  exact List.prefix_append _ _

/-- A source that is corrupt only at its end is used up there. -/
theorem used_up_iff (hd : z.Decodes phase meaning) (hz : z.Documented phase)
    (hs : Along zip z phase meaning stream first s) (hne : s.input ≠ [])
    (hneed : (Zip.inflate z s).status ≠ .needDict)
    (hcorrupt : (meaning zip.dict stream first).verdict = .corrupt) :
    (inflated z s).input = [] ↔ (meaning zip.dict stream first.dropLast).verdict ≠ .corrupt ∧
      (meaning zip.dict stream first.dropLast).output.length ≤
        s.output.length + s.avail_out.toNat := by
  have hle := hz.consumed_le s.stream s.input s.avail_out
  have htakes := hd.takes zip.dict s.stream s.input s.avail_out (hs.verdict_eq ▸ hcorrupt) hne hneed
  have hnil : (inflated z s).input = [] ↔
      (z.inflate s.stream s.input s.avail_out).consumed = s.input.length := by
    rw [inflated, Zip.inflate, List.drop_eq_nil_iff]
    exact ⟨fun h => le_antisymm hle h, fun h => h.ge⟩
  rw [hnil, htakes, hs.dropLast hne]
  simp only [Content.after, List.length_append, Nat.add_le_add_iff_left]

theorem again (hz : z.Documented phase) (hm : z.Means meaning) (hd : z.Decodes phase meaning)
    (hs : Along zip z phase meaning stream first s)
    (h : zip.unzipRound z alloc shift s = .again t) : Along zip z phase meaning stream first t := by
  have hne := (unzipRound_again h).1
  obtain ⟨hend, hmem⟩ := unzipRound_status h
  obtain ⟨hinput, houtput, hstream⟩ := unzipRound_next h
  have hmeans := unzipRound_means hm hs.means h
  have hphase : t.input = [] ∨ phase t.stream = .body ∨
      phase t.stream = .dictionary ∧ presetDictionary first ∧ t.output = [] := by
    rw [hinput, houtput]
    rcases hstream with hsame | ⟨hneed, hset, hsame⟩
    · rw [hsame]
      exact hs.inflated_phase hz hne
    · rw [hsame]
      exact .inr (.inl (hz.given _ _ (needDict_phase hz hneed) hset))
  refine ⟨hmeans, fun hleft => ?_, fun hheader => ?_, fun hdict => ?_, ?_, fun hnil hout => ?_,
    fun hnil hout hcorrupt => ?_⟩
  · have hlt : (z.inflate s.stream s.input s.avail_out).consumed < s.input.length := by
      rw [hinput] at hleft
      exact Nat.lt_of_not_le fun hle => hleft (List.drop_eq_nil_of_le hle)
    have hgiven : meaning zip.dict t.stream t.input.dropLast =
        meaning zip.dict (inflated z s).stream (inflated z s).input.dropLast := by
      rw [hinput]
      rcases hstream with hsame | ⟨_, hset, hsame⟩
      · rw [hsame]
      · rw [hsame, hm.dictionary _ _ _ hset]
    rw [hs.dropLast hne, hd.shorter zip.dict s.stream s.input s.avail_out hend hmem hlt, hgiven, houtput]
    simp only [Content.after, inflated, Zip.inflate, List.append_assoc]
  · rcases hphase with hnil | hbody | ⟨hdict, _⟩
    · exact .inr hnil
    · rw [hheader] at hbody
      cases hbody
    · rw [hheader] at hdict
      cases hdict
  · rcases hphase with hnil | hbody | ⟨_, hfirst, _⟩
    · exact .inl hnil
    · rw [hdict] at hbody
      cases hbody
    · exact .inr hfirst
  · rcases hphase with hnil | hbody | ⟨_, _, hnone⟩
    · exact .inr (.inl hnil)
    · exact .inl hbody
    · exact .inr (.inr hnone)
  · have hrest := hd.ends zip.dict s.stream s.input s.avail_out hend
    rw [hmeans, hnil]
    rcases hstream with hsame | ⟨_, hset, hsame⟩
    · rw [hsame]
      exact hrest
    · rw [hsame, hm.dictionary _ _ _ hset]
      exact hrest
  · have hneed : (Zip.inflate z s).status ≠ .needDict := by
      intro hneed
      apply hout
      rw [houtput, needDict_inflated hz hneed, (hs.needDict hz hne hneed).1]
    exact ((hs.used_up_iff hd hz hne hneed hcorrupt).mp (hinput ▸ hnil)).1

/-- A source that ends where it has asked for a dictionary has no output. -/
theorem needDict_nil (hz : z.Documented phase) (hm : z.Means meaning) (hd : z.Decodes phase meaning)
    (hs : Along zip z phase meaning stream first s)
    (hneed : (Zip.inflate z s).status = .needDict)
    (h : zip.unzipRound z alloc shift s = .again t) (hnil : t.input = []) :
    (meaning zip.dict stream first).output = [] := by
  have hne := (unzipRound_again h).1
  obtain ⟨_, houtput, hstream⟩ := unzipRound_next h
  have hphase : phase (inflated z s).stream = .dictionary := needDict_phase hz hneed
  have hwaits := hd.waits zip.dict (inflated z s).stream hphase
  have hrest : meaning zip.dict t.stream [] = meaning zip.dict (inflated z s).stream [] := by
    rcases hstream with hsame | ⟨_, hset, hsame⟩
    · rw [hsame]
    · rw [hsame, hm.dictionary _ _ _ hset]
  rw [unzipRound_means hm hs.means h, hnil, hrest, houtput, needDict_inflated hz hneed,
    (hs.needDict hz hne hneed).1, Content.after, List.nil_append]
  exact hwaits

/-- Data that is returned is complete, or is the beginning of what a source means that is not. -/
theorem done (hm : z.Means meaning) (hs : Along zip z phase meaning stream first s)
    (h : zip.unzipRound z alloc shift s = .leave (.done out)) (hout : out ≠ []) :
    (s.input ≠ [] ∧ (Zip.inflate z s).status = .streamEnd ∧ out = (inflated z s).output) ∨
      (meaning zip.dict stream first).output ≠ [] ∧
        (meaning zip.dict stream first).verdict ≠ .complete ∧
        ((meaning zip.dict stream first).verdict = .corrupt → s.input = [] ∧ out = s.output) := by
  rcases unzipRound_done h with ⟨hnil, rfl⟩ | ⟨hne, rfl, hend | hmem⟩
  · right
    refine ⟨fun hnone => hout ?_, hs.ended hnil hout, fun _ => ⟨hnil, rfl⟩⟩
    exact List.prefix_nil.mp (hnone ▸ hs.output_isPrefix)
  · exact .inl ⟨hne, hend, rfl⟩
  · right
    have hall : meaning zip.dict stream first = ⟨(inflated z s).output, .memory⟩ := by
      rw [hs.means, hm.memError zip.dict s.stream s.input s.avail_out hmem]
      rfl
    rw [hall]
    exact ⟨hout, nofun, nofun⟩

end Along

/-- The buffer grows only when `inflate` fails for lack of space or has left none. -/
theorem unzipRound_size (hbuf : (Zip.inflate z s).status ≠ .bufError)
    (hleft : s.avail_out - .ofNat (Zip.inflate z s).output.length ≠ 0)
    (h : zip.unzipRound z alloc shift s = .again t) : t.size = s.size := by
  rw [unzipRound] at h
  split at h
  · cases h
  · simp only at h
    split at h
    · cases h
    · rw [if_neg (not_or.mpr ⟨hbuf, hleft⟩)] at h
      split at h
      · split at h
        · obtain rfl := Round.again.inj h
          rfl
        · rw [(setDictionary_again h).2]
          rfl
      · split at h
        · cases h
        · obtain rfl := Round.again.inj h
          rfl

theorem unzipRound_fails (hne : s.input ≠ []) (herror : (Zip.inflate z s).status = .dataError)
    (hleft : s.avail_out - .ofNat (Zip.inflate z s).output.length ≠ 0) :
    zip.unzipRound z alloc shift s = .leave .failed := by
  rw [unzipRound, if_neg hne]
  simp only [herror, reduceCtorEq, hleft, or_self, or_true, true_or, if_false, if_true]

end Round

section Run

variable {σ : Type*} {zip : Zip} {z : Zlib σ} {phase : σ → StreamPhase}
  {meaning : List UInt8 → σ → List UInt8 → Content} {alloc : UInt64 → Allocated} {shift : UInt64}
  {s : Unzipping σ} {src : Option (List UInt8)} {out : List UInt8}

end Run

section Buffers

variable {σ : Type*} {zip : Zip} {z : Zlib σ} {phase : σ → StreamPhase}
  {meaning : List UInt8 → σ → List UInt8 → Content} {alloc : UInt64 → Allocated} {ndebug : Bool}
  {s t : Unzipping σ} {stream : σ} {first out : List UInt8}

/-- There is memory for every buffer whose space `avail_out` counts. -/
def Granted (alloc : UInt64 → Allocated) : Prop :=
  ∀ n : UInt64, 0 < n.toNat → n.toNat < 2 ^ 32 → alloc n = .made

/-- What a state in the loop has of the source and of the buffers, where all sizes are small. -/
structure InBuffer (zip : Zip) (z : Zlib σ) (phase : σ → StreamPhase)
    (meaning : List UInt8 → σ → List UInt8 → Content) (ndebug : Bool) (stream : σ)
    (first : List UInt8) (s : Unzipping σ) : Prop extends Along zip z phase meaning stream first s where
  space : s.output.length < s.size.toNat
  size : s.size.toNat < 2 ^ 32
  buffer : ∃ j, s.size.toNat = bufferSize ndebug first.length j
  full : s.input = [] → s.output ≠ [] → (meaning zip.dict stream first).verdict = .corrupt →
    zip.FailsFull meaning ndebug stream first
  some : s.input = [] → (meaning zip.dict stream first).output ≠ [] → s.output ≠ []

namespace InBuffer

theorem avail_out_eq (hs : InBuffer zip z phase meaning ndebug stream first s) :
    s.avail_out.toNat = s.size.toNat - s.output.length :=
  avail_out_toNat hs.space.le ((Nat.sub_le _ _).trans_lt hs.size)

theorem avail_out_ne (hs : InBuffer zip z phase meaning ndebug stream first s) : s.avail_out ≠ 0 := by
  intro hzero
  have havail := hs.avail_out_eq
  have hspace := hs.space
  rw [hzero, UInt32.toNat_zero] at havail
  omega

/-- What is written fits the buffer, and there is no space left exactly when it is full. -/
theorem full_iff (hz : z.Documented phase) (hs : InBuffer zip z phase meaning ndebug stream first s) :
    (inflated z s).output.length ≤ s.size.toNat ∧
      (s.avail_out - .ofNat (Zip.inflate z s).output.length = 0 ↔
        (inflated z s).output.length = s.size.toNat) := by
  have hle := hz.output_le s.stream s.input s.avail_out
  change (Zip.inflate z s).output.length ≤ _ at hle
  have havail := hs.avail_out_eq
  have hlength : (inflated z s).output.length =
      s.output.length + (Zip.inflate z s).output.length := List.length_append
  have hspace := hs.space
  rw [← UInt32.toNat_inj, toNat_left hle, UInt32.toNat_zero]
  omega

/-- The buffer is full exactly when the source means that much. -/
theorem full_iff_le (hd : z.Decodes phase meaning)
    (hs : InBuffer zip z phase meaning ndebug stream first s) (hneed : (Zip.inflate z s).status ≠ .needDict)
    (hmem : (Zip.inflate z s).status ≠ .memError) : (inflated z s).output.length = s.size.toNat ↔
      s.size.toNat ≤ (meaning zip.dict stream first).output.length := by
  have hfills := hd.fills zip.dict s.stream s.input s.avail_out hneed hmem
  change (Zip.inflate z s).output = _ at hfills
  have hlength : (inflated z s).output.length =
      s.output.length + (Zip.inflate z s).output.length := List.length_append
  have hall := hs.length_output
  have hspace := hs.space
  rw [hlength, hfills, List.length_take, hs.avail_out_eq]
  omega

/-- A full buffer grows, as there is memory for the next one. -/
theorem grow_full (hmade : Granted alloc) (hm : z.Means meaning)
    (hsmall : (meaning zip.dict stream first).output.length < 2 ^ 30)
    (hs : InBuffer zip z phase meaning ndebug stream first s)
    (hend : (Zip.inflate z s).status ≠ .streamEnd) (hmem : (Zip.inflate z s).status ≠ .memError)
    (hfull : (inflated z s).output.length = s.size.toNat) :
    grow alloc (sizeShift ndebug) (inflated z s) =
        .again { inflated z s with size := s.size <<< sizeShift ndebug } ∧
      (s.size <<< sizeShift ndebug).toNat = sizeFactor ndebug * s.size.toNat ∧
      s.size.toNat < (s.size <<< sizeShift ndebug).toNat ∧
      (s.size <<< sizeShift ndebug).toNat < 2 ^ 32 := by
  have hle := (hs.inflated_isPrefix hm hend hmem).length_le
  have hspace := hs.space
  have hgrown : (s.size <<< sizeShift ndebug).toNat = sizeFactor ndebug * s.size.toNat :=
    toNat_sizeShift ndebug (by omega)
  have hdouble : 2 * s.size.toNat ≤ sizeFactor ndebug * s.size.toNat :=
    Nat.mul_le_mul_right _ (two_le_sizeFactor ndebug)
  have hfour : sizeFactor ndebug * s.size.toNat ≤ 4 * s.size.toNat :=
    Nat.mul_le_mul_right _ (sizeFactor_le_four ndebug)
  refine ⟨?_, hgrown, by omega, by omega⟩
  rw [grow, show (inflated z s).size = s.size from rfl, hmade _ (by omega) (by omega)]

theorem start (hz : z.Documented phase) (hinit : z.inflateInit = .some stream) (hne : first ≠ [])
    {size : UInt64} (hsize : size.toNat = bufferSize ndebug first.length 0) (hlt : size.toNat < 2 ^ 32) :
    InBuffer zip z phase meaning ndebug stream first ⟨stream, first, [], size⟩ where
  toAlong := .start hz hinit size
  space := by
    have hpos := List.length_pos_iff.mpr hne
    have hdouble : 2 * first.length ≤ bufferSize ndebug first.length 0 := by
      rw [bufferSize, pow_one]
      exact Nat.mul_le_mul_right _ (two_le_sizeFactor ndebug)
    change 0 < size.toNat
    omega
  size := hlt
  buffer := ⟨0, hsize⟩
  full _ h := absurd rfl h
  some h := absurd h hne

/-- A round that goes on keeps the buffer, or has filled it and goes on with the next one. -/
theorem again_size (hz : z.Documented phase) (hm : z.Means meaning) (hd : z.Decodes phase meaning)
    (hmade : Granted alloc) (hsmall : (meaning zip.dict stream first).output.length < 2 ^ 30)
    (hs : InBuffer zip z phase meaning ndebug stream first s)
    (h : zip.unzipRound z alloc (sizeShift ndebug) s = .again t) :
    (inflated z s).output.length < s.size.toNat ∧ t.size = s.size ∨
      (inflated z s).output.length = s.size.toNat ∧
        t.size.toNat = sizeFactor ndebug * s.size.toNat ∧ s.size.toNat < t.size.toNat ∧
        t.size.toNat < 2 ^ 32 := by
  obtain ⟨hend, hmem⟩ := unzipRound_status h
  obtain ⟨hle, hleft⟩ := hs.full_iff hz
  by_cases hfull : (inflated z s).output.length = s.size.toNat
  · right
    obtain ⟨hgrow, hgrown, hlt, hsize⟩ := hs.grow_full hmade hm hsmall hend hmem hfull
    obtain ⟨_, hround | ⟨hspace, _⟩⟩ := unzipRound_again h
    · rw [hgrow] at hround
      obtain rfl := Round.again.inj hround
      exact ⟨hfull, hgrown, hlt, hsize⟩
    · exact absurd (hleft.mpr hfull) hspace
  · left
    have hne := (unzipRound_again h).1
    have hbuf := hd.room s.stream s.input s.avail_out hne hs.avail_out_ne
    exact ⟨lt_of_le_of_ne hle hfull, unzipRound_size hbuf (mt hleft.mp hfull) h⟩

/-- An error is not looked at in a round that goes on only where the buffer is full. -/
theorem full_of_corrupt (hd : z.Decodes phase meaning) (hz : z.Documented phase)
    (hs : InBuffer zip z phase meaning ndebug stream first s)
    (hneed : (Zip.inflate z s).status ≠ .needDict)
    (hcorrupt : (meaning zip.dict stream first).verdict = .corrupt)
    (h : zip.unzipRound z alloc (sizeShift ndebug) s = .again t) :
    (inflated z s).output.length = s.size.toNat := by
  obtain ⟨_, hmem⟩ := unzipRound_status h
  by_contra hfull
  have hshort : (meaning zip.dict s.stream s.input).output.length < s.avail_out.toNat := by
    have hlt := mt (hs.full_iff_le hd hneed hmem).mpr hfull
    have hall := hs.length_output
    have havail := hs.avail_out_eq
    omega
  have herror : (Zip.inflate z s).status = .dataError := by
    refine (hd.fails zip.dict s.stream s.input s.avail_out ?_ hshort).resolve_right hneed
    rw [← hs.verdict_eq, hcorrupt]
  rw [unzipRound_fails (unzipRound_again h).1 herror (mt (hs.full_iff hz).2.mp hfull)] at h
  cases h

theorem again (hz : z.Documented phase) (hm : z.Means meaning) (hd : z.Decodes phase meaning)
    (hmade : Granted alloc) (hsmall : (meaning zip.dict stream first).output.length < 2 ^ 30)
    (hs : InBuffer zip z phase meaning ndebug stream first s)
    (h : zip.unzipRound z alloc (sizeShift ndebug) s = .again t) :
    InBuffer zip z phase meaning ndebug stream first t := by
  have hne := (unzipRound_again h).1
  obtain ⟨hend, hmem⟩ := unzipRound_status h
  obtain ⟨hinput, houtput, _⟩ := unzipRound_next h
  have hsize := hs.again_size hz hm hd hmade hsmall h
  obtain ⟨j, hj⟩ := hs.buffer
  have hsome : ∀ hneed : (Zip.inflate z s).status = .needDict, t.output = [] := by
    intro hneed
    rw [houtput, needDict_inflated hz hneed, (hs.needDict hz hne hneed).1]
  refine ⟨hs.toAlong.again hz hm hd h, ?_, ?_, ?_, fun hnil hout hcorrupt => ?_, fun hnil hout => ?_⟩
  · rw [houtput]
    rcases hsize with ⟨hlt, hsame⟩ | ⟨hfull, _, hlt, _⟩
    · rwa [hsame]
    · rwa [hfull]
  · rcases hsize with ⟨_, hsame⟩ | ⟨_, _, _, hlt⟩
    · rw [hsame]
      exact hs.size
    · exact hlt
  · rcases hsize with ⟨_, hsame⟩ | ⟨_, hgrown, _⟩
    · exact ⟨j, hsame ▸ hj⟩
    · exact ⟨j + 1, by rw [hgrown, hj, bufferSize_succ]⟩
  · have hneed : (Zip.inflate z s).status ≠ .needDict := fun hneed => hout (hsome hneed)
    have hfull := hs.full_of_corrupt hd hz hneed hcorrupt h
    obtain ⟨hlast, hshort⟩ := (hs.used_up_iff hd hz hne hneed hcorrupt).mp (hinput ▸ hnil)
    have hspace := hs.space
    rw [hs.avail_out_eq, Nat.add_sub_cancel' hs.space.le, hj] at hshort
    exact ⟨hlast, j, hshort, hj ▸ (hs.full_iff_le hd hneed hmem).mp hfull⟩
  · intro hnone
    by_cases hneed : (Zip.inflate z s).status = .needDict
    · exact hout (hs.needDict_nil hz hm hd hneed h hnil)
    · have hfills := hd.fills zip.dict s.stream s.input s.avail_out hneed hmem
      have hlength : t.output.length = s.output.length + (Zip.inflate z s).output.length := by
        rw [houtput]
        exact List.length_append
      have hall := hs.length_output
      have havail := hs.avail_out_eq
      have hspace := hs.space
      have hpos := List.length_pos_iff.mpr hout
      change (Zip.inflate z s).output = _ at hfills
      rw [hnone, hfills, List.length_nil, List.length_take] at hlength
      omega

end InBuffer

section Small

variable {src : Option (List UInt8)} {b : List UInt8}

end Small

end Buffers

section Overloads

variable {σ : Type*} {z : Zlib σ} {phase : σ → StreamPhase}
  {meaning : List UInt8 → σ → List UInt8 → Content}

end Overloads

section Stored

end Stored

end RgcFifa
