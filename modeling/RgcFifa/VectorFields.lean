import RgcFifa.BinaryReader
import RgcFifa.StreamCursor

/-! What `operator>>` leaves in a `std::vector<UInt8>`. It has the size that it is given, and nobody
compares that with what is left. The overload for the other vectors, with its count from the input,
does not compile. -/

namespace RgcFifa

open ByteWords

/-- The bytes of a vector that is given its size are the next unread ones. -/
def Filled (buf : List UInt8) (pos : ℕ) (v : List UInt8) (next : ℕ) : Prop :=
  pos + v.length ≤ buf.length ∧ v = (buf.drop pos).take v.length ∧ next = pos + v.length

namespace Stream

variable {st : Stream}

/-- Past the end nothing can be read, not even no bytes. -/
theorem read_past {len : ℕ} (hpast : st.size < st.pos) (hpos : st.pos < 2 ^ 64) :
    st.read len = none := by
  have hleft : st.left = st.size + 2 ^ 64 - st.pos := by
    rw [left]
    omega
  rw [Stream.read]
  split_ifs
  all_goals first | rfl | omega

theorem readInto_iff (old : List UInt8) (hsize : st.size ≤ maxSize) (hpos : st.pos < 2 ^ 64)
    (hold : old.length ≤ maxSize) :
    (∃ v t, st.readInto old = some (v, t) ∧ Filled st.buf st.pos v t.pos) ↔
      st.pos + old.length ≤ st.size := by
  constructor
  · rintro ⟨v, t, hread, hbound, -⟩
    by_cases hpast : st.size < st.pos
    · rw [readInto, read_past hpast hpos] at hread
      cases hread
    · have h : st.InBounds := ⟨Nat.not_lt.mp hpast, hsize⟩
      obtain ⟨bs, hbs, hread'⟩ := h.readInto hold
      obtain ⟨rfl, -⟩ := Prod.mk.inj (Option.some.inj (hread.symm.trans hread'))
      rwa [hbs] at hbound
  · intro hle
    have hin : st.InBounds := ⟨(Nat.le_add_right _ _).trans hle, hsize⟩
    have hlen : ((st.buf.drop st.pos).take old.length).length = old.length := by
      rw [List.length_take, List.length_drop]
      rw [size] at hle
      omega
    refine ⟨_, _, hin.readInto_full old hle, ?_, ?_, ?_⟩
    · rwa [hlen]
    · rw [hlen]
    · rw [hlen, pos_seek]

end Stream

theorem exists_onStream {α : Type} {o : Option (α × BinaryReader)} {P : α → ℕ → Prop} :
    (∃ v t, o.map onStream = some (v, t) ∧ P v t.pos) ↔ ∃ v rd, o = some (v, rd) ∧ P v rd.pos := by
  constructor
  · rintro ⟨v, t, ho, hP⟩
    obtain ⟨⟨w, rd⟩, rfl, hpair⟩ := Option.map_eq_some_iff.mp ho
    obtain ⟨rfl, rfl⟩ := Prod.mk.inj hpair
    exact ⟨w, rd, rfl, hP⟩
  · rintro ⟨v, rd, rfl, hP⟩
    exact ⟨v, rd.stream, rfl, hP⟩

/-- Wherever either reader is. -/
theorem vector_filled_iff (b old : Buffer) (pos : UInt64) :
    ((∃ v t, Stream.readInto old.1 ⟨b, pos.toNat⟩ = some (v, t) ∧
      Filled b pos.toNat v t.pos) ↔ pos.toNat + old.1.length ≤ b.1.length) ∧
    ((∃ v rd, BinaryReader.readInto old.1 ⟨b, pos.toNat⟩ = some (v, rd) ∧
      Filled b pos.toNat v rd.pos) ↔ pos.toNat + old.1.length ≤ b.1.length) := by
  have hstream := @Stream.readInto_iff ⟨b, pos.toNat⟩ old.1 b.2 pos.toNat_lt old.2
  refine ⟨hstream, ?_⟩
  have hsame := BinaryReader.readInto_stream old.1 ⟨b.1, pos.toNat⟩
  refine Iff.trans ?_ hstream
  exact (exists_onStream (P := Filled b pos.toNat)).symm.trans (by rw [← hsame]; exact Iff.rfl)

/-- One byte is left for a vector of two, whose second element stays what it was. -/
theorem vector_not_filled :
    Stream.readInto [0, 9] ⟨[7], 0⟩ = some ([7, 9], ⟨[7], 1⟩) ∧
      BinaryReader.readInto [0, 9] ⟨[7], 0⟩ = some ([7, 9], ⟨[7], 1⟩) ∧ ¬ Filled [7] 0 [7, 9] 1 := by
  refine ⟨by decide, by decide, fun h => ?_⟩
  exact absurd h.1 (by decide)

end RgcFifa
