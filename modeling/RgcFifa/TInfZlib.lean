import RgcFifa.Lib.Adler
import RgcFifa.Lib.ByteWords
import RgcFifa.TInfStream

/-! The checksum of the inflate, which is reduced only once in 5552 bytes, and the container that
carries it. -/

namespace RgcFifa.TInf

open DeflateFormat

theorem addByte_eq_step {s : ℕ × ℕ} {b : UInt8} (h1 : (Adler.step s b).1 < 2 ^ 32)
    (h2 : (Adler.step s b).2 < 2 ^ 32) : addByte s b = Adler.step s b := by
  simp only [Adler.step] at h1 h2
  simp only [addByte, Adler.step, Nat.mod_eq_of_lt h1, Nat.mod_eq_of_lt h2]

/-- Within one chunk no sum reaches 2³². -/
theorem foldl_addByte_eq {s : ℕ × ℕ} (hs : s.1 < Adler.base ∧ s.2 < Adler.base) {l : List UInt8}
    (hl : l.length ≤ A32_NMAX) : l.foldl addByte s = l.foldl Adler.step s := by
  induction l using List.reverseRecOn with
  | nil => rfl
  | append_singleton l b ih =>
    obtain ⟨h1, h2⟩ := Adler.foldl_step_le s (l ++ [b])
    have hn : (l ++ [b]).length ≤ 5552 := hl
    have hsquare : (l ++ [b]).length * ((l ++ [b]).length + 1) ≤ 5552 * 5553 :=
      Nat.mul_le_mul hn (by omega)
    have hlinear : (l ++ [b]).length * s.1 ≤ 5552 * 65520 :=
      Nat.mul_le_mul hn (Nat.le_of_lt_succ hs.1)
    have hbase : s.1 < 65521 ∧ s.2 < 65521 := hs
    simp only [List.foldl_append, List.foldl_cons, List.foldl_nil] at h1 h2 ⊢
    rw [ih (by simp at hl; omega)]
    exact addByte_eq_step (by omega) (by omega)

theorem addRows_eq (s : ℕ × ℕ) (buf : List UInt8) (i : ℕ) :
    addRows s buf i = ((buf.take (16 * i)).foldl addByte s, buf.drop (16 * i)) := by
  induction i generalizing s buf with
  | zero => simp [addRows]
  | succ i ih =>
    have hmul : 16 * (i + 1) = 16 + 16 * i := by ring
    rw [addRows, ih, hmul, List.take_add, List.foldl_append, List.drop_drop]

/-- The rows of sixteen and the bytes after them are the chunk. -/
theorem chunk_eq (s : ℕ × ℕ) (buf : List UInt8) (k : ℕ) :
    ((addRows s buf (k / 16)).2.take (k % 16)).foldl addByte (addRows s buf (k / 16)).1
      = (buf.take k).foldl addByte s := by
  have hsplit : buf.take k = buf.take (16 * (k / 16)) ++ (buf.drop (16 * (k / 16))).take (k % 16) := by
    rw [← List.take_add, Nat.div_add_mod]
  rw [addRows_eq, hsplit, List.foldl_append]

theorem adlerLoop_eq {s : ℕ × ℕ} (hs : s.1 < Adler.base ∧ s.2 < Adler.base) (buf : List UInt8) :
    adlerLoop s buf = Adler.reduce (buf.foldl Adler.step s) := by
  induction hn : buf.length using Nat.strong_induction_on generalizing s buf with
  | _ n ih =>
    rw [adlerLoop]
    by_cases hnil : buf = []
    · simp [hnil, Adler.reduce, Nat.mod_eq_of_lt hs.1, Nat.mod_eq_of_lt hs.2]
    · have hpos := List.length_pos_iff.mpr hnil
      have hk : 0 < min buf.length A32_NMAX := lt_min hpos (by decide)
      have hbase : 0 < Adler.base := by decide
      have hchunk : (buf.take (min buf.length A32_NMAX)).length ≤ A32_NMAX := by simp
      rw [if_neg hnil]
      simp only [chunk_eq]
      rw [ih (buf.drop (min buf.length A32_NMAX)).length (by simp; omega)
        ⟨Nat.mod_lt _ hbase, Nat.mod_lt _ hbase⟩ _ rfl, foldl_addByte_eq hs hchunk]
      have hreduce := Adler.reduce_foldl ((buf.take (min buf.length A32_NMAX)).foldl Adler.step s)
        (buf.drop (min buf.length A32_NMAX))
      rw [← List.foldl_append, List.take_append_drop] at hreduce
      exact hreduce

/-- The checksum that is reduced once in a chunk is the one of the plain sums. -/
theorem adler32_eq (data : List UInt8) : adler32 data = Adler.checksum data := by
  have hloop := adlerLoop_eq (s := (1, 0)) (by decide) data
  rw [Adler.foldl_step_eq] at hloop
  have h1 : Adler.s1 data % Adler.base < 65521 := Nat.mod_lt _ (by decide)
  have h2 : Adler.s2 data % Adler.base < 65521 := Nat.mod_lt _ (by decide)
  simp only [adler32, hloop, Adler.reduce, Adler.checksum]
  have hshift : (Adler.s2 data % Adler.base) <<< 16 % 2 ^ 32 = (Adler.s2 data % Adler.base) <<< 16 := by
    rw [Nat.shiftLeft_eq, Nat.mod_eq_of_lt (by omega)]
  rw [hshift, ← Nat.shiftLeft_add_eq_or_of_lt (by omega), Nat.shiftLeft_eq]
  ring

/-- Two strings of one length that differ in two places have one checksum exactly if the change
keeps the sum of the two bytes and they are a multiple of 65521 apart; in particular a change of one
byte never passes. -/
theorem adler32_detects (pre mid post : List UInt8) {a a' b b' : UInt8} (hpair : (a, b) ≠ (a', b')) :
    adler32 (pre ++ a :: mid ++ b :: post) = adler32 (pre ++ a' :: mid ++ b' :: post)
      ↔ a.toNat + b.toNat = a'.toNat + b'.toNat ∧ 65521 ∣ mid.length + 1 := by
  rw [adler32_eq, adler32_eq]
  exact Adler.checksum_pair_iff pre mid post hpair

theorem adler32_detects_swap :
    adler32 [1, 2, 3, 4] = adler32 [1, 3, 2, 4] ↔ 2 + 3 = 3 + 2 ∧ 65521 ∣ 1 :=
  adler32_detects [1] [] [4] (by decide)

/-! ### The container -/

/-- The two header bytes: a multiple of 31, the method deflate, a window of at most 32 KiB, and no
preset dictionary. -/
def ValidHeader (cmf flg : UInt8) : Prop :=
  31 ∣ 256 * cmf.toNat + flg.toNat ∧ cmf.toNat % 16 = 8 ∧ cmf.toNat / 16 ≤ 7 ∧ flg.toNat / 32 % 2 = 0

theorem and_32_eq_zero {n : ℕ} (hn : n < 256) : n &&& 0x20 = 0 ↔ n / 32 % 2 = 0 := by
  have hall : ∀ n < 256, n &&& 0x20 = 0 ↔ n / 32 % 2 = 0 := by decide +kernel
  exact hall n hn

theorem zlibUncompress_invalid (g : Tables) (code_tree : Tree) (junk : Data) (room : ℕ) {cmf flg : UInt8}
    (h : ¬ValidHeader cmf flg) (rest : List UInt8) :
    zlibUncompress g code_tree junk room (cmf :: flg :: rest) = .ok (.dataError, junk) := by
  have h31 : 31 ∣ 256 * cmf.toNat + flg.toNat ↔ (256 * cmf.toNat + flg.toNat) % 31 = 0 :=
    Nat.dvd_iff_mod_eq_zero
  have h15 : cmf.toNat &&& 0x0f = cmf.toNat % 16 := Nat.and_two_pow_sub_one_eq_mod cmf.toNat 4
  have h4 : cmf.toNat >>> 4 = cmf.toNat / 16 := Nat.shiftRight_eq_div_pow cmf.toNat 4
  have h32 := and_32_eq_zero flg.toNat_lt
  simp only [ValidHeader, h31] at h
  rw [zlibUncompress, h15, h4]
  by_cases hchecksum : (256 * cmf.toNat + flg.toNat) % 31 = 0
  · by_cases hmethod : cmf.toNat % 16 = 8
    · by_cases hwindow : cmf.toNat / 16 ≤ 7
      · have hdict : flg.toNat &&& 0x20 ≠ 0 := fun hd => h ⟨hchecksum, hmethod, hwindow, h32.mp hd⟩
        rw [if_neg (by simpa using hchecksum), if_neg (by simpa using hmethod), if_neg (by omega),
          if_pos hdict]
      · rw [if_neg (by simpa using hchecksum), if_neg (by simpa using hmethod), if_pos (by omega)]
    · rw [if_neg (by simpa using hchecksum), if_pos hmethod]
  · rw [if_pos hchecksum]

/-- What follows a valid header: the inflate, and the checksum of what it wrote. -/
theorem zlibUncompress_valid (g : Tables) (code_tree : Tree) (junk : Data) (room : ℕ) {cmf flg : UInt8}
    (h : ValidHeader cmf flg) (body : List UInt8) (a₀ a₁ a₂ a₃ : UInt8) :
    zlibUncompress g code_tree junk room (cmf :: flg :: (body ++ [a₀, a₁, a₂, a₃])) = (do
      let (res, d) ← uncompress g code_tree junk room (body ++ [a₀, a₁, a₂, a₃])
      if res ≠ .ok then .ok (.dataError, d)
      else if ByteWords.beNat [a₀, a₁, a₂, a₃] ≠ adler32 (d.dest.take d.destLen) then .ok (.dataError, d)
      else .ok (.ok, d)) := by
  obtain ⟨hchecksum, hmethod, hwindow, hdict⟩ := h
  have h15 : cmf.toNat &&& 0x0f = cmf.toNat % 16 := Nat.and_two_pow_sub_one_eq_mod cmf.toNat 4
  have h4 : cmf.toNat >>> 4 = cmf.toNat / 16 := Nat.shiftRight_eq_div_pow cmf.toNat 4
  have hdict' := (and_32_eq_zero flg.toNat_lt).mpr hdict
  have hlast : (cmf :: flg :: (body ++ [a₀, a₁, a₂, a₃])).drop
      ((cmf :: flg :: (body ++ [a₀, a₁, a₂, a₃])).length - 4) = [a₀, a₁, a₂, a₃] := by
    have hcons : cmf :: flg :: (body ++ [a₀, a₁, a₂, a₃]) = (cmf :: flg :: body) ++ [a₀, a₁, a₂, a₃] := rfl
    rw [hcons, List.length_append]
    exact List.drop_left
  have ha32 : 256 * (256 * (256 * a₀.toNat + a₁.toNat) + a₂.toNat) + a₃.toNat
      = ByteWords.beNat [a₀, a₁, a₂, a₃] := by
    simp only [ByteWords.beNat, ByteWords.leNat, List.reverse_cons, List.reverse_nil, List.nil_append,
      List.cons_append]
    ring
  rw [zlibUncompress, h15, h4, if_neg (by omega), if_neg (by simpa using hmethod), if_neg (by omega),
    if_neg (by simpa using hdict')]
  simp only [hlast, ha32]

/-- The container of a stream: it is taken exactly when its header is valid and its last four bytes
are the checksum of what the stream stands for, and then that is what is written. -/
theorem zlibUncompress_encode {bs : List DeflateBlock} (hvalid : ValidStream 0 [] bs)
    (hsize : (expandBlocks [] bs).length < 2 ^ 32) (code_tree : Tree) (junk : Data) {room : ℕ}
    (hroom : (expandBlocks [] bs).length ≤ room) (cmf flg : UInt8) {trailer : List UInt8}
    (htrailer : trailer.length = 4) :
    ∃ st e, zlibUncompress init code_tree junk room (cmf :: flg :: (encode bs ++ trailer)) = .ok (st, e)
      ∧ (st = .ok ↔ ValidHeader cmf flg
        ∧ ByteWords.beNat trailer = Adler.checksum (expandBlocks [] bs))
      ∧ (st = .ok → e.dest = expandBlocks [] bs ∧ e.destLen = (expandBlocks [] bs).length) := by
  by_cases hheader : ValidHeader cmf flg
  · obtain ⟨e, he, hdest, hlen⟩ := uncompress_written hvalid code_tree junk hroom trailer
    rw [Nat.mod_eq_of_lt hsize] at hlen
    obtain ⟨a₀, a₁, a₂, a₃, rfl⟩ : ∃ a₀ a₁ a₂ a₃, trailer = [a₀, a₁, a₂, a₃] := by
      match trailer, htrailer with
      | [a₀, a₁, a₂, a₃], _ => exact ⟨a₀, a₁, a₂, a₃, rfl⟩
    have htake : e.dest.take e.destLen = expandBlocks [] bs := by
      rw [hlen, hdest, List.take_length]
    simp only [zlibUncompress_valid _ _ _ _ hheader, he, Faulting.ok_bind, htake, adler32_eq]
    by_cases hsum : ByteWords.beNat [a₀, a₁, a₂, a₃] = Adler.checksum (expandBlocks [] bs)
    · exact ⟨.ok, e, by simp [hsum], by simp [hheader, hsum], fun _ => ⟨hdest, hlen⟩⟩
    · exact ⟨.dataError, e, by simp [hsum], by simp [hsum], by simp⟩
  · exact ⟨.dataError, junk, zlibUncompress_invalid _ _ _ _ hheader _, by simp [hheader], by simp⟩

theorem zlibUncompress_encode_twoBlocks :
    ∃ st e, zlibUncompress init staticTree ⟨[], 5, 3, 0, [], 0, staticTree, staticTree⟩ 7
        (120 :: 156 :: (encode twoBlocks ++ [11, 52, 2, 199])) = .ok (st, e)
      ∧ (st = .ok ↔ ValidHeader 120 156
        ∧ ByteWords.beNat [11, 52, 2, 199] = Adler.checksum [104, 105, 97, 105, 97, 105, 97])
      ∧ (st = .ok → e.dest = [104, 105, 97, 105, 97, 105, 97] ∧ e.destLen = 7) :=
  zlibUncompress_encode twoBlocks_valid (by decide) staticTree _ (by decide) 120 156 (by decide)

end RgcFifa.TInf
