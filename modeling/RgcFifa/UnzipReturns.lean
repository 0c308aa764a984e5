import RgcFifa.Unzip

/-! When the loop of `Zip::unzip` comes to its end. Each round grows the buffer, which memory
bounds, or uses up input or space, unless zlib waits for a dictionary that there is not. -/

namespace RgcFifa

open Loop Zip

variable {σ : Type*} {zip : Zip} {z : Zlib σ} {phase : σ → StreamPhase}
  {alloc : UInt64 → Allocated} {shift : UInt64} {s t : Unzipping σ}

def Sized (s : Unzipping σ) : Prop := 0 < s.size.toNat ∧ s.size.toNat < 2 ^ 61

/-- A round that goes on has grown the buffer, has been asked for a dictionary, or has come
further. -/
theorem unzipRound_again (h : zip.unzipRound z alloc shift s = .again t) : s.input ≠ [] ∧
    (grow alloc shift (inflated z s) = .again t ∨
    s.avail_out - .ofNat (Zip.inflate z s).output.length ≠ 0 ∧
      (((Zip.inflate z s).status = .needDict ∧
        if zip.dict = [] then inflated z s = t
        else zip.setDictionary z (inflated z s) = .again t) ∨
      ((Zip.inflate z s).status = .ok ∧ inflated z s = t))) := by
  rw [unzipRound] at h
  split at h
  · cases h
  · refine ⟨‹_›, ?_⟩
    simp only at h
    split at h
    · cases h
    · split at h
      · exact .inl h
      · rename_i hend hgrow
        rw [not_or] at hend hgrow
        right
        refine ⟨hgrow.2, ?_⟩
        split at h
        · left
          refine ⟨‹_›, ?_⟩
          split at h
          · rw [if_pos ‹_›]
            exact Round.again.inj h
          · rw [if_neg ‹_›]
            exact h
        · split at h
          · cases h
          · right
            refine ⟨?_, Round.again.inj h⟩
            rename_i hneed herror
            cases hstatus : (Zip.inflate z s).status <;> simp_all

/-- Room to grow, then input, then space for output. -/
def rank (s : Unzipping σ) : ℕ ×ₗ ℕ ×ₗ ℕ :=
  toLex (2 ^ 61 - s.size.toNat, toLex (s.input.length, s.avail_out.toNat))

theorem inflate_dictionary (hz : z.Documented phase) (hphase : phase s.stream = .dictionary) :
    Zip.inflate z s = ⟨.needDict, 0, [], s.stream⟩ ∧ inflated z s = s := by
  have hinflate : Zip.inflate z s = ⟨.needDict, 0, [], s.stream⟩ :=
    hz.dictionary s.stream s.input s.avail_out hphase
  refine ⟨hinflate, ?_⟩
  simp [inflated, hinflate]

theorem unzipRound_asked {k : ℕ} {stream : σ}
    (hinflate : Zip.inflate z s = ⟨.needDict, k, [], stream⟩) (hne : s.input ≠ [])
    (hspace : s.avail_out ≠ 0) : zip.unzipRound z alloc shift s =
      if zip.dict = [] then .again (inflated z s) else zip.setDictionary z (inflated z s) := by
  have hleft : s.avail_out - .ofNat ([] : List UInt8).length ≠ 0 := by simpa using hspace
  simp only [unzipRound, if_neg hne, hinflate, reduceCtorEq, or_self, if_false, hleft, if_true]

/-- Without a dictionary nothing changes any more. -/
theorem waits (hz : z.Documented phase) (hdict : zip.dict = [])
    (hphase : phase s.stream = .dictionary) (hne : s.input ≠ []) (hspace : s.avail_out ≠ 0) :
    zip.unzipRound z alloc shift s = .again s := by
  obtain ⟨hinflate, hsame⟩ := inflate_dictionary hz hphase
  rw [unzipRound_asked hinflate hne hspace, if_pos hdict, hsame]

section Start

theorem setDictionary_again {s t : Unzipping σ} (h : zip.setDictionary z s = .again t) :
    (z.inflateSetDictionary s.stream zip.dict).1 = true ∧
      t = { s with stream := (z.inflateSetDictionary s.stream zip.dict).2 } := by
  rw [setDictionary] at h
  split at h
  · cases h
  · rename_i stream hset
    rw [hset]
    split at h
    · cases h
    · exact ⟨rfl, (Round.again.inj h).symm⟩

end Start

end RgcFifa
