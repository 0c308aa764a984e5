import RgcFifa.Lib.Capacity
import RgcFifa.TInfStream

/-! The inflate is given no length of the caller's buffer. A run depends on the room there only in
that it must hold what the stream stands for. -/

namespace RgcFifa.TInf

open Capacity DeflateFormat

instance : Buffered Data where
  used d := d.dest.length
  cap d := d.room
  withCap d n := { d with room := n }
  used_withCap _ _ := rfl
  cap_withCap _ _ := rfl
  withCap_withCap _ _ _ := rfl

instance : Overflowing Fault where
  overflow := .dest

theorem roomed_loadTag : Roomed loadTag := by
  intro d e h
  by_cases hzero : d.bitcount = 0
  · cases hsource : d.source with
    | nil => simp [loadTag, hzero, hsource] at h
    | cons b source =>
      simp only [loadTag, hzero, hsource, if_true, Except.ok.injEq] at h
      subst h
      exact ⟨rfl, Nat.le_refl _, id, fun n _ => by simp [loadTag, withCap, hzero, hsource],
        fun n hle hlt => absurd hle (Nat.not_le.mpr hlt)⟩
  · simp only [loadTag, hzero, if_false, Except.ok.injEq] at h
    subst h
    exact ⟨rfl, Nat.le_refl _, id, fun n _ => by simp [loadTag, withCap, hzero],
      fun n hle hlt => absurd hle (Nat.not_le.mpr hlt)⟩

theorem roomed_getbit : Roomed getbit := by
  refine roomed_loadTag.bind fun d p h => ?_
  obtain rfl := Except.ok.inj h
  exact ⟨rfl, Nat.le_refl _, id, fun _ _ => rfl, fun n hle hlt => absurd hle (Nat.not_le.mpr hlt)⟩

theorem roomed_readMask (mask val num : ℕ) : Roomed (readMask mask val num) := by
  induction num generalizing mask val with
  | zero => exact roomed_result val
  | succ num ih =>
    exact roomed_getbit.bind (Roomed.pair fun bit => ih (mask * 2) (if bit ≠ 0 then val + mask else val))

theorem roomed_readBits (num base : ℕ) : Roomed fun d => readBits d num base :=
  (roomed_readMask 1 0 num).bind (Roomed.pair fun val => roomed_result (val + base))

theorem roomed_decodeLoop (t : Tree) (n : ℕ) (sum cur : ℤ) (len : ℕ) :
    Roomed (decodeLoop t n sum cur len) := by
  induction n generalizing sum cur len with
  | zero => exact roomed_error _
  | succ n ih =>
    refine roomed_getbit.bind (Roomed.pair fun bit => ?_)
    cases hc : t.table[len + 1]? with
    | none => simpa only [hc] using roomed_error _
    | some c =>
      by_cases hcur : 0 ≤ 2 * cur + (bit : ℤ) - c
      · simpa only [hc, hcur, if_true] using ih (sum + c) (2 * cur + bit - c) (len + 1)
      · cases hsym : t.trans[(sum + c + (2 * cur + (bit : ℤ) - c)).toNat]? with
        | none => simpa only [hc, hcur, if_false, hsym] using roomed_error _
        | some sym => simpa only [hc, hcur, if_false, hsym] using roomed_result sym

theorem roomed_decodeSymbol (t : Tree) : Roomed fun d => decodeSymbol d t :=
  roomed_decodeLoop t 16 0 0 0

/-! ### The trees of a dynamic block -/

theorem roomed_runLengths (lengths : List ℕ) (sym : ℕ) : Roomed fun d => runLengths d lengths sym := by
  have hrun (bits base l : ℕ) : Roomed fun d : Data =>
      readBits d bits base >>= fun p => putLengths lengths p.1 l >>= fun ls =>
        (.ok (ls, p.2) : Except Fault (List ℕ × Data)) :=
    (roomed_readBits bits base).bind
      (Roomed.pair fun length => roomed_pure (putLengths lengths length l) roomed_result)
  unfold runLengths
  split
  · cases lengths.getLast? with
    | none => exact roomed_error _
    | some prev => exact hrun 2 3 prev
  · exact hrun 3 3 0
  · exact hrun 7 11 0
  · exact roomed_pure (putLengths lengths 1 sym) roomed_result

theorem roomed_decodeLengths (t : Tree) (total : ℕ) (lengths : List ℕ) :
    Roomed (decodeLengths t total lengths) := by
  intro d
  induction hn : d.avail using Nat.strong_induction_on generalizing d lengths with
  | _ n ih =>
    have heq : decodeLengths t total lengths = fun d => if total ≤ lengths.length then .ok (lengths, d)
        else decodeSymbol d t >>= fun p => runLengths p.2 lengths p.1 >>= fun q =>
          decodeLengths t total q.1 q.2 := funext (decodeLengths_eq t total lengths)
    rw [heq]
    by_cases hdone : total ≤ lengths.length
    · simpa only [hdone, if_true] using roomed_result lengths d
    · simp only [hdone, if_false]
      refine (roomed_decodeSymbol t d).bind fun p hp => RoomedAt.bind ?_ fun q hq => ?_
      · exact Roomed.pair (roomed_runLengths lengths) p
      · exact RoomedAt.pair (ih q.2.avail
          (hn ▸ (runLengths_avail hq).trans_lt (decodeSymbol_avail hp)) q.1 q.2 rfl)

theorem roomed_readCodeLengths (lengths idx : List ℕ) : Roomed (readCodeLengths lengths idx) := by
  induction idx generalizing lengths with
  | nil => exact roomed_result lengths
  | cons i idx ih => exact (roomed_readBits 3 0).bind (Roomed.pair fun clen => ih (lengths.set i clen))

theorem roomed_decodeTrees (lt dt code_tree : Tree) : Roomed fun d => decodeTrees d lt dt code_tree := by
  unfold decodeTrees
  refine (roomed_readBits 5 257).bind (Roomed.pair fun hlit => ?_)
  refine (roomed_readBits 5 1).bind (Roomed.pair fun hdist => ?_)
  refine (roomed_readBits 4 4).bind (Roomed.pair fun hclen => ?_)
  refine (roomed_readCodeLengths _ _).bind (Roomed.pair fun lengths => roomed_pure _ fun ct => ?_)
  refine (roomed_decodeLengths ct _ _).bind (Roomed.pair fun lengths => ?_)
  exact roomed_pure _ fun lt => roomed_pure _ fun dt =>
    roomed_keep (fun _ => rfl) (fun _ => rfl) fun _ _ => rfl

/-! ### The blocks -/

theorem roomed_putByte (b : UInt8) : Roomed fun d => putByte d b := by
  intro d e h
  obtain ⟨hroom, rfl⟩ := putByte_eq_ok.mp h
  refine ⟨rfl, by simp [used], fun _ => by simpa [used, cap] using hroom, fun n hn => ?_,
    fun n _ hlt => ?_⟩
  · exact putByte_eq_ok.mpr ⟨by simpa [used, withCap] using hn, rfl⟩
  · have hfull : n ≤ d.dest.length := by
      simpa [used, Nat.lt_succ_iff] using hlt
    exact if_neg (Nat.not_lt.mpr hfull)

theorem roomed_data : Roomed (Except.ok : Data → Except Fault Data) :=
  roomed_keep (fun _ => rfl) (fun _ => rfl) fun _ _ => rfl

theorem roomed_copyMatch (offs length : ℕ) : Roomed fun d => copyMatch d offs length := by
  induction length with
  | zero => exact roomed_data
  | succ length ih =>
    intro d
    by_cases hoffs : offs ≤ d.dest.length
    · cases hb : d.dest[d.dest.length - offs]? with
      | none =>
        apply (roomed_error Fault.dest d).congr
        · simp only [copyMatch, hoffs, if_true, hb]
        · exact fun n => by simp only [copyMatch, withCap, hoffs, if_true, hb]
      | some b =>
        apply ((roomed_putByte b).bind ih d).congr
        · simp only [copyMatch, hoffs, if_true, hb]
        · exact fun n => by simp only [copyMatch, withCap, hoffs, if_true, hb]
    · apply (roomed_error Fault.dest d).congr
      · simp only [copyMatch, hoffs, if_false]
      · exact fun n => by simp only [copyMatch, withCap, hoffs, if_false]

theorem roomed_inflateMatch (g : Tables) (dt : Tree) (sym : ℕ) :
    Roomed fun d => inflateMatch g dt d sym := by
  unfold inflateMatch
  split
  · rename_i bits base _ _
    refine (roomed_readBits bits base).bind (Roomed.pair fun length => ?_)
    refine (roomed_decodeSymbol dt).bind (Roomed.pair fun dist => ?_)
    dsimp only
    split
    · rename_i bits base _ _
      exact (roomed_readBits bits base).bind (Roomed.pair fun offs => roomed_copyMatch offs length)
    · exact roomed_error _
  · exact roomed_error _

theorem roomed_blockLoop (g : Tables) (lt dt : Tree) : Roomed (blockLoop g lt dt) := by
  intro d
  induction hn : d.avail using Nat.strong_induction_on generalizing d with
  | _ n ih =>
    rw [funext (blockLoop_eq g lt dt)]
    refine (roomed_decodeSymbol lt d).bind fun p hp => RoomedAt.pair ?_
    have hlt := decodeSymbol_avail hp
    by_cases hend : p.1 = 256
    · simpa only [hend, if_true] using roomed_data p.2
    · by_cases hlit : p.1 < 256
      · simp only [hend, hlit, if_false, if_true]
        refine (roomed_putByte _ p.2).bind fun e he => ih e.avail ?_ e rfl
        exact hn ▸ (putByte_avail he).le.trans_lt hlt
      · simp only [hend, hlit, if_false]
        refine (roomed_inflateMatch g dt _ p.2).bind fun e he => ih e.avail ?_ e rfl
        exact hn ▸ (inflateMatch_avail he).trans_lt hlt

theorem roomed_inflateBlockData (g : Tables) (lt dt : Tree) :
    Roomed fun d => inflateBlockData g d lt dt := by
  intro d
  have hend (start : ℕ) : Roomed fun d : Data => (.ok (Status.ok,
      { d with destLen := (d.destLen + (d.dest.length - start)) % 2 ^ 32 }) : Except Fault (Status × Data)) :=
    roomed_keep (fun _ => rfl) (fun _ => rfl) fun _ _ => rfl
  exact ((roomed_blockLoop g lt dt).bind (hend d.dest.length) d).congr rfl fun _ => rfl

/-- The bytes after those that are skipped. -/
theorem roomed_skip (source : List UInt8) :
    Roomed fun d : Data => (.ok { d with source := source } : Except Fault Data) :=
  roomed_keep (fun _ => rfl) (fun _ => rfl) fun _ _ => rfl

theorem roomed_copyBytes (length : ℕ) : Roomed fun d => copyBytes d length := by
  induction length with
  | zero => exact roomed_data
  | succ length ih =>
    intro d
    cases hsource : d.source with
    | nil =>
      apply (roomed_error Fault.source d).congr
      · simp only [copyBytes, hsource]
      · exact fun n => by simp only [copyBytes, withCap, hsource]
    | cons b source =>
      apply ((roomed_skip source).bind ((roomed_putByte b).bind ih) d).congr
      · simp only [copyBytes, hsource, Faulting.ok_bind]
      · exact fun n => by simp only [copyBytes, withCap, hsource, Faulting.ok_bind]

theorem roomed_inflateUncompressedBlock : Roomed inflateUncompressedBlock := by
  intro d
  rcases hsource : d.source with _ | ⟨b₀, _ | ⟨b₁, _ | ⟨b₂, _ | ⟨b₃, source⟩⟩⟩⟩
  case cons.cons.cons.cons =>
    by_cases hinv : 256 * b₁.toNat + b₀.toNat ≠ 0xFFFF - (256 * b₃.toNat + b₂.toNat)
    · apply (roomed_result Status.dataError d).congr
      · simp only [inflateUncompressedBlock, hsource, if_pos hinv]
      · exact fun n => by simp only [inflateUncompressedBlock, withCap, hsource, if_pos hinv]
    · have hend (length : ℕ) : Roomed fun d : Data =>
          (.ok (Status.ok, { d with bitcount := 0, destLen := (d.destLen + length) % 2 ^ 32 })
            : Except Fault (Status × Data)) :=
        roomed_keep (fun _ => rfl) (fun _ => rfl) fun _ _ => rfl
      apply ((roomed_skip source).bind ((roomed_copyBytes (256 * b₁.toNat + b₀.toNat)).bind
        (hend (256 * b₁.toNat + b₀.toNat))) d).congr
      · simp only [inflateUncompressedBlock, hsource, if_neg hinv, Faulting.ok_bind]
      · exact fun n => by simp only [inflateUncompressedBlock, withCap, hsource, if_neg hinv, Faulting.ok_bind]
  all_goals
    apply (roomed_error Fault.source d).congr
    · simp only [inflateUncompressedBlock, hsource]
    · exact fun n => by simp only [inflateUncompressedBlock, withCap, hsource]

theorem roomed_inflateDynamicBlock (g : Tables) (code_tree : Tree) :
    Roomed (inflateDynamicBlock g code_tree) := by
  intro d
  have hset (lt dt : Tree) : Roomed fun d : Data =>
      (.ok { d with ltree := lt, dtree := dt } : Except Fault Data) :=
    roomed_keep (fun _ => rfl) (fun _ => rfl) fun _ _ => rfl
  have hdata : Roomed fun p : Tree × Tree × Data =>
      inflateBlockData g { p.2.2 with ltree := p.1, dtree := p.2.1 } p.1 p.2.1 :=
    Roomed.pair fun lt => Roomed.pair fun dt => (hset lt dt).bind (roomed_inflateBlockData g lt dt)
  exact ((roomed_decodeTrees d.ltree d.dtree code_tree).bind hdata d).congr rfl fun _ => rfl

theorem roomed_inflateBlock (g : Tables) (code_tree : Tree) (btype : ℕ) :
    Roomed fun d => inflateBlock g code_tree d btype := by
  unfold inflateBlock
  split
  · exact roomed_inflateUncompressedBlock
  · exact roomed_inflateBlockData g g.sltree g.sdtree
  · exact roomed_inflateDynamicBlock g code_tree
  · exact roomed_result _

theorem roomed_uncompressLoop (g : Tables) (code_tree : Tree) : Roomed (uncompressLoop g code_tree) := by
  intro d
  induction hn : d.avail using Nat.strong_induction_on generalizing d with
  | _ n ih =>
    rw [funext (uncompressLoop_eq g code_tree)]
    refine (roomed_getbit d).bind fun p hp => RoomedAt.pair ?_
    refine (roomed_readBits 2 0 p.2).bind fun q hq => RoomedAt.pair ?_
    refine (roomed_inflateBlock g code_tree q.1 q.2).bind fun r hr => RoomedAt.pair ?_
    by_cases hres : r.1 = .dataError
    · simpa only [hres, if_true] using roomed_result _ r.2
    · by_cases hfinal : p.1 = 0
      · simp only [hres, hfinal, if_false, ne_eq, not_true_eq_false]
        refine ih r.2.avail ?_ r.2 rfl
        exact hn ▸ ((inflateBlock_avail hr).trans (readBits_avail hq)).trans_lt (getbit_avail hp)
      · simpa only [hres, hfinal, if_false, ne_eq, not_false_eq_true, if_true] using roomed_result _ r.2

/-- Whatever is in the source, the buffers with which the inflate returns are those that hold what
it writes. With a smaller one it writes behind the end. -/
theorem uncompress_room_iff {g : Tables} {code_tree : Tree} {junk : Data} {room : ℕ}
    {source : List UInt8} {st : Status} {e : Data}
    (h : uncompress g code_tree junk room source = .ok (st, e)) (n : ℕ) :
    (∃ p, uncompress g code_tree junk n source = .ok p) ↔ e.dest.length ≤ n :=
  (roomed_uncompressLoop g code_tree).returns_iff h (Nat.zero_le n)

theorem uncompress_room_iff_twoBlocks : ∃ e : Data, e.dest = [104, 105, 97, 105, 97, 105, 97]
    ∧ ((∃ p, uncompress init staticTree ⟨[], 5, 3, 0, [], 0, staticTree, staticTree⟩ 6 (encode twoBlocks ++ [9])
      = .ok p) ↔ e.dest.length ≤ 6) := by
  obtain ⟨e, he, hdest, _⟩ := uncompress_written twoBlocks_valid staticTree
    ⟨[], 5, 3, 0, [], 0, staticTree, staticTree⟩ (le_refl 7) [9]
  exact ⟨e, hdest, uncompress_room_iff he 6⟩

/-- Every stream that an encoder may write, with whatever behind it and whatever garbage on the
stack, is given back as what it stands for, exactly if the buffer holds that. With a smaller one the
fault is a write behind its end. -/
theorem uncompress_encode {bs : List DeflateBlock} (hvalid : ValidStream 0 [] bs) (code_tree : Tree)
    (junk : Data) (room : ℕ) (tail : List UInt8) :
    ((∃ e, uncompress init code_tree junk room (encode bs ++ tail) = .ok (.ok, e)
      ∧ e.dest = expandBlocks [] bs ∧ e.destLen = (expandBlocks [] bs).length % 2 ^ 32)
      ↔ (expandBlocks [] bs).length ≤ room)
    ∧ (uncompress init code_tree junk room (encode bs ++ tail) = .error .dest
      ↔ room < (expandBlocks [] bs).length) := by
  obtain ⟨e, he, hdest, hlen⟩ := uncompress_written hvalid code_tree junk (Nat.le_refl _) tail
  have hroomed := roomed_uncompressLoop init code_tree
  constructor
  · constructor
    · rintro ⟨e', he', hdest', _⟩
      have hroom := (hroomed.returns_iff he' (Nat.zero_le room)).mp ⟨_, he'⟩
      simpa only [used, hdest'] using hroom
    · intro hroom
      exact uncompress_written hvalid code_tree junk hroom tail
  · rw [← hdest]
    exact hroomed.overflows_iff he (Nat.zero_le room)

theorem uncompress_encode_twoBlocks :
    ((∃ e, uncompress init staticTree ⟨[], 5, 3, 0, [], 0, staticTree, staticTree⟩ 6 (encode twoBlocks ++ [9])
        = .ok (.ok, e)
      ∧ e.dest = [104, 105, 97, 105, 97, 105, 97] ∧ e.destLen = 7) ↔ 7 ≤ 6)
    ∧ (uncompress init staticTree ⟨[], 5, 3, 0, [], 0, staticTree, staticTree⟩ 6 (encode twoBlocks ++ [9])
      = .error .dest ↔ 6 < 7) :=
  uncompress_encode twoBlocks_valid staticTree _ 6 [9]

end RgcFifa.TInf
