import RgcFifa.TInfBlock

/-! The inflate of whole streams: what an encoder writes is what the code gives back, for every
choice of blocks, of codes and of matches. -/

namespace RgcFifa.TInf

open LsbBits CanonicalCode DeflateFormat

/-- `e` is `d` after a block that brings the output to `out`; `bs` is left. -/
structure Written (d e : Data) (out : List UInt8) (bs : List Bool) : Prop where
  bits : e.bits = bs
  small : e.bitcount < 8
  room : e.room = d.room
  dest : e.dest = out
  destLen : e.destLen = (d.destLen + (out.length - d.dest.length)) % 2 ^ 32

theorem Written.trans {d e f : Data} {out out' : List UInt8} {bs cs : List Bool}
    (h : Written d e out bs) (h' : Written e f out' cs) (hle : d.dest.length ≤ out.length)
    (hle' : out.length ≤ out'.length) : Written d f out' cs where
  bits := h'.bits
  small := h'.small
  room := h'.room.trans h.room
  dest := h'.dest
  destLen := by
    rw [h'.destLen, h.destLen, h.dest, Nat.mod_add_mod]
    congr 1
    omega

theorem Left.written {d d' e : Data} {out : List UInt8} {bs bs' : List Bool} (h : Left d d' bs)
    (h' : Written d' e out bs') : Written d e out bs' where
  bits := h'.bits
  small := h'.small
  room := by
    rw [h'.room, h.frame]
  dest := h'.dest
  destLen := by
    rw [h'.destLen, h.frame]

theorem fixedCodes_valid : fixedCodes.Valid where
  lit := by decide +kernel
  dist := by decide +kernel

theorem fill_get {k : ℕ} (v : Vector ℕ k) (start n : ℕ) (f : ℕ → ℕ) {i : ℕ} (hi : i < k) :
    (fill v start n f)[i] = if start ≤ i ∧ i < start + n then f (i - start) else v[i] := by
  induction n with
  | zero =>
    rw [if_neg (by omega)]
    rfl
  | succ n ih =>
    have hfill : fill v start (n + 1) f = (fill v start n f).setIfInBounds (start + n) (f n) := by
      rw [fill, List.range_succ, List.foldl_append]
      rfl
    simp only [hfill, Vector.getElem_setIfInBounds]
    by_cases hlast : start + n = i
    · rw [if_pos hlast, if_pos (by omega), ← hlast, Nat.add_sub_cancel_left]
    · rw [if_neg hlast, ih]
      by_cases hin : start ≤ i ∧ i < start + n
      · rw [if_pos hin, if_pos (by omega)]
      · rw [if_neg hin, if_neg (by omega)]

/-- The symbols of the fixed tree, by their places. -/
theorem sltree_trans {i : ℕ} (hi : i < 288) : init.sltree.trans[i] =
    if i < 24 then 256 + i else if i < 168 then i - 24 else if i < 176 then 112 + i else i - 32 := by
  simp only [init, buildFixedLengthTree, fill_get _ _ _ _ hi]
  split_ifs <;> omega

theorem sdtree_trans {i : ℕ} (hi : i < 32) : init.sdtree.trans[i] = i := by
  simp only [init, buildFixedDistTree, fill_get _ _ _ _ (hi.trans (by decide : 32 < 288))]
  rw [if_pos (by omega)]
  exact Nat.sub_zero i

/-- The tables of the fixed blocks are those of the fixed lengths. -/
theorem isTree_fixed : IsTree init.sltree fixedCodes.lit ∧ IsTree init.sdtree fixedCodes.dist := by
  have hlit : ∀ l : Fin 16, 0 < l.val → init.sltree.table[l.val] = count fixedCodes.lit l := by decide +kernel
  have hdist : ∀ l : Fin 16, 0 < l.val → init.sdtree.table[l.val] = count fixedCodes.dist l := by decide +kernel
  obtain ⟨h7, h8, h9, h5⟩ : offset (count fixedCodes.lit) 7 = 0 ∧ offset (count fixedCodes.lit) 8 = 24
      ∧ offset (count fixedCodes.lit) 9 = 176 ∧ offset (count fixedCodes.dist) 5 = 0 := by decide +kernel
  have hlt {ls : List ℕ} {s : ℕ} (hs : ls.getD s 0 ≠ 0) : s < ls.length := by
    by_contra hge
    exact hs (by simp [List.getD_eq_getElem?_getD, not_lt.mp hge])
  constructor
  · refine ⟨fun l hl h => by rw [Vector.getElem?_eq_getElem h, hlit ⟨l, h⟩ hl], fun s hs => ?_⟩
    have hs : s < 288 := (hlt hs).trans_eq (by decide +kernel)
    -- the four runs of the fixed lengths, by where they begin
    have hrun {k l n : ℕ} (pre post : List ℕ) (h : fixedCodes.lit = pre ++ (List.replicate n l ++ post))
        (hk : pre.length = k) (hlo : k ≤ s) (hhi : s < k + n) :
        place fixedCodes.lit s = offset (count fixedCodes.lit) l + (pre.count l + (s - k)) := by
      have hplace := place_run pre (j := s - k) h (by omega)
      rwa [hk, Nat.add_sub_cancel' hlo] at hplace
    have hplace : place fixedCodes.lit s =
        if s < 144 then 24 + s else if s < 256 then s + 32 else if s < 280 then s - 256 else s - 112 := by
      split_ifs with h₁ h₂ h₃
      · rw [hrun [] (fixedCodes.lit.drop 144) (k := 0) (l := 8) (n := 144) (by decide +kernel) rfl (by omega)
          (by omega), h8, List.count_nil]
        omega
      · rw [hrun (fixedCodes.lit.take 144) (fixedCodes.lit.drop 256) (k := 144) (l := 9) (n := 112)
          (by decide +kernel) (by decide +kernel) (by omega) (by omega), h9,
          (by decide +kernel : (fixedCodes.lit.take 144).count 9 = 0)]
        omega
      · rw [hrun (fixedCodes.lit.take 256) (fixedCodes.lit.drop 280) (k := 256) (l := 7) (n := 24)
          (by decide +kernel) (by decide +kernel) (by omega) (by omega), h7,
          (by decide +kernel : (fixedCodes.lit.take 256).count 7 = 0)]
        omega
      · rw [hrun (fixedCodes.lit.take 280) [] (k := 280) (l := 8) (n := 8)
          (by decide +kernel) (by decide +kernel) (by omega) (by omega), h8,
          (by decide +kernel : (fixedCodes.lit.take 280).count 8 = 144)]
        omega
    have hi : place fixedCodes.lit s < 288 := by
      rw [hplace]
      split_ifs <;> omega
    have hsym : init.sltree.trans[place fixedCodes.lit s] = s := by
      rw [sltree_trans hi, hplace]
      split_ifs <;> omega
    exact (Vector.getElem?_eq_getElem hi).trans (congrArg some hsym)
  · refine ⟨fun l hl h => by rw [Vector.getElem?_eq_getElem h, hdist ⟨l, h⟩ hl], fun s hs => ?_⟩
    have hs : s < 32 := (hlt hs).trans_eq (by decide +kernel)
    have hplace : place fixedCodes.dist s = s := by
      have h := place_run [] (List.append_nil (List.replicate 32 5)).symm hs
      rw [List.length_nil, zero_add, List.count_nil, zero_add] at h
      exact h.trans (h5.symm ▸ zero_add s)
    have hsym : init.sdtree.trans[s] = s := sdtree_trans hs
    rw [hplace]
    exact (Vector.getElem?_eq_getElem (hs.trans (by decide : 32 < 288))).trans (congrArg some hsym)

theorem inflateBlockData_written {c : Codes} (hc : c.Valid) {lt dt : Tree} (hlt : IsTree lt c.lit)
    (hdt : IsTree dt c.dist) {ts : List Token} {d : Data} (hd : d.bitcount < 8)
    (hvalid : ValidTokens c d.dest ts) (hroom : (expandAll d.dest ts).length ≤ d.room)
    {rest : List Bool} (hbits : d.bits = tokensBits c ts ++ rest) :
    ∃ e, inflateBlockData init d lt dt = .ok (.ok, e)
      ∧ Written d e (expandAll d.dest ts) rest := by
  obtain ⟨e, he, hleft⟩ := blockLoop_left hc hlt hdt hd hvalid hroom hbits
  have hsame : e.dest = expandAll d.dest ts ∧ e.room = d.room ∧ e.destLen = d.destLen := by
    rw [hleft.frame]
    exact ⟨rfl, rfl, rfl⟩
  refine ⟨{ e with destLen := (e.destLen + (e.dest.length - d.dest.length)) % 2 ^ 32 }, ?_,
    hleft.bits, hleft.small, hsame.2.1, hsame.1, ?_⟩
  · rw [inflateBlockData, he, Faulting.ok_bind]
  · simp only [hsame]

/-! ### Stored blocks -/

theorem copyBytes_eq {d : Data} {data source : List UInt8} (hsource : d.source = data ++ source)
    (hroom : d.dest.length + data.length ≤ d.room) :
    copyBytes d data.length = .ok { d with source := source, dest := d.dest ++ data } := by
  induction data generalizing d with
  | nil =>
    simp only [List.nil_append] at hsource
    simp [copyBytes, ← hsource]
  | cons b data ih =>
    simp only [List.length_cons] at hroom
    rw [List.length_cons, copyBytes, hsource]
    simp only [List.cons_append]
    rw [putByte_ok (by simp only; omega), Faulting.ok_bind, ih rfl (by simp; omega)]
    simp

/-- The reader drops the rest of its byte, and the block is copied. -/
theorem inflateUncompressedBlock_written {skip : List Bool} {data : List UInt8}
    (hskip : skip.length < 8) (hdata : data.length < 2 ^ 16) {d : Data} (hd : d.bitcount < 8)
    (hroom : d.dest.length + data.length ≤ d.room) {rest : List Bool} (hrest : 8 ∣ rest.length)
    (hbits : d.bits = (DeflateBlock.stored skip data).body ++ rest) :
    ∃ e, inflateUncompressedBlock d = .ok (.ok, e) ∧ Written d e (d.dest ++ data) rest := by
  obtain ⟨n, hn⟩ := hrest
  simp only [DeflateBlock.body, List.append_assoc] at hbits
  have hcount : d.bitcount = skip.length := by
    rw [bitcount_eq hd, hbits]
    simp only [List.length_append, length_lsb, length_bits, hn]
    omega
  have hsource : d.source = [UInt8.ofNat data.length, UInt8.ofNat (data.length / 256)]
      ++ ([UInt8.ofNat (0xFFFF - data.length), UInt8.ofNat ((0xFFFF - data.length) / 256)]
        ++ (data ++ pack n rest)) := by
    apply bits_injective
    simp only [bits_append, bits_pair, bits_pack hn]
    have hsplit : lsb d.bitcount d.tag ++ LsbBits.bits d.source = skip ++ (lsb 16 data.length
        ++ (lsb 16 (0xFFFF - data.length) ++ (LsbBits.bits data ++ rest))) := hbits
    exact (List.append_inj hsplit (by rw [length_lsb, hcount])).2
  have hbyte (v : ℕ) (hv : v < 2 ^ 16) :
      256 * (UInt8.ofNat (v / 256)).toNat + (UInt8.ofNat v).toNat = v := by
    simp only [UInt8.toNat_ofNat']
    omega
  refine ⟨{ d with
    source := pack n rest
    bitcount := 0
    dest := d.dest ++ data
    destLen := (d.destLen + data.length) % 2 ^ 32 }, ?_, ?_, by simp, rfl, rfl, ?_⟩
  · rw [inflateUncompressedBlock, hsource]
    simp only [List.cons_append, List.nil_append]
    rw [hbyte _ hdata, hbyte _ (by omega), if_neg (by omega), copyBytes_eq rfl (by simpa using hroom)]
    rfl
  · simp only [Data.bits, lsb, List.nil_append, bits_pack hn]
  · simp

/-! ### Streams -/

theorem inflateBlock_written {pos : ℕ} {b : DeflateBlock} (code_tree : Tree) {d : Data} (hd : d.bitcount < 8)
    (hvalid : b.Valid pos d.dest) (halign : 8 ∣ pos + 3 + d.bits.length)
    (hroom : (b.expand d.dest).length ≤ d.room) {rest : List Bool} (hbits : d.bits = b.body ++ rest) :
    ∃ e, inflateBlock init code_tree d b.type = .ok (.ok, e) ∧ Written d e (b.expand d.dest) rest := by
  cases b with
  | stored skip data =>
    obtain ⟨hskip, hpos, hdata⟩ := hvalid
    have hrest : 8 ∣ rest.length := by
      rw [hbits] at halign
      simp only [DeflateBlock.body, List.length_append, length_lsb, length_bits] at halign
      omega
    exact inflateUncompressedBlock_written hskip hdata hd (by simpa [DeflateBlock.expand] using hroom) hrest hbits
  | fixed ts =>
    obtain ⟨hlt, hdt⟩ := isTree_fixed
    exact inflateBlockData_written fixedCodes_valid hlt hdt hd hvalid hroom hbits
  | dynamic h ts =>
    obtain ⟨hh, hts⟩ := hvalid
    simp only [DeflateBlock.body, List.append_assoc] at hbits
    obtain ⟨lt, dt, e, he, hlt, hdt, hleft⟩ := decodeTrees_left hh d.ltree d.dtree code_tree hd hbits
    have hsame : e.dest = d.dest ∧ e.room = d.room := by
      rw [hleft.frame]
      exact ⟨rfl, rfl⟩
    obtain ⟨f, hf, hwritten⟩ := inflateBlockData_written hh.codes hlt hdt
      (d := { e with ltree := lt, dtree := dt }) hleft.small (by simpa [hsame.1] using hts)
      (by simp only [hsame]; exact hroom) hleft.bits
    refine ⟨f, ?_, ?_⟩
    · simp only [inflateBlock, DeflateBlock.type, inflateDynamicBlock, he, Faulting.ok_bind, hf]
    · have hwritten' : Written e f (expandAll e.dest ts) rest :=
        ⟨hwritten.bits, hwritten.small, hwritten.room, hwritten.dest, hwritten.destLen⟩
      rw [hsame.1] at hwritten'
      exact hleft.written hwritten'

/-- One round of the loop. -/
theorem uncompressLoop_eq (g : Tables) (code_tree : Tree) (d : Data) :
    uncompressLoop g code_tree d = (do
      let (bfinal, d) ← getbit d
      let (btype, d) ← readBits d 2 0
      let (res, d) ← inflateBlock g code_tree d btype
      if res = .dataError then .ok (.dataError, d)
      else if bfinal ≠ 0 then .ok (.ok, d)
      else uncompressLoop g code_tree d) := by
  rw [uncompressLoop]
  cases getbit d with
  | error e => rfl
  | ok p =>
    simp only [Faulting.ok_bind]
    cases readBits p.2 2 0 with
    | error e => rfl
    | ok q =>
      simp only [Faulting.ok_bind]
      cases inflateBlock g code_tree q.2 q.1 with
      | error e => rfl
      | ok r =>
        obtain ⟨res, d₃⟩ := r
        cases res <;> simp

/-- The header of a block and the block. -/
theorem uncompressLoop_block {pos : ℕ} {b : DeflateBlock} {last : Bool} (code_tree : Tree) {d : Data}
    (hd : d.bitcount < 8) (hvalid : b.Valid pos d.dest) (halign : 8 ∣ pos + d.bits.length)
    (hroom : (b.expand d.dest).length ≤ d.room) {rest : List Bool}
    (hbits : d.bits = b.bits last ++ rest) :
    ∃ e, uncompressLoop init code_tree d
        = (if last then .ok (.ok, e) else uncompressLoop init code_tree e)
      ∧ Written d e (b.expand d.dest) rest := by
  have htype : b.type < 2 ^ 2 := by
    cases b <;> simp [DeflateBlock.type]
  simp only [DeflateBlock.bits, List.cons_append, List.append_assoc] at hbits
  obtain ⟨e₁, he₁, hleft₁⟩ := getbit_left hd hbits
  obtain ⟨e₂, he₂, hleft₂⟩ := readBits_left 0 htype hleft₁.small hleft₁.bits
  have hleft := hleft₁.trans hleft₂
  have hsame : e₂.dest = d.dest ∧ e₂.room = d.room := by
    rw [hleft.frame]
    exact ⟨rfl, rfl⟩
  have halign' : 8 ∣ pos + 3 + e₂.bits.length := by
    rw [hbits] at halign
    rw [hleft.bits]
    simp only [List.length_cons, List.length_append, length_lsb] at halign ⊢
    omega
  obtain ⟨e₃, he₃, hwritten⟩ := inflateBlock_written code_tree hleft.small (by rw [hsame.1]; exact hvalid)
    halign' (by rw [hsame.1, hsame.2]; exact hroom) hleft.bits
  rw [hsame.1] at hwritten
  refine ⟨e₃, ?_, hleft.written hwritten⟩
  rw [uncompressLoop_eq, he₁, Faulting.ok_bind]
  simp only [he₂, Faulting.ok_bind, add_zero, he₃]
  cases last <;> simp

/-- All blocks of a stream, up to the final one. -/
theorem uncompressLoop_written (code_tree : Tree) {bs : List DeflateBlock} {pos : ℕ} {d : Data}
    (hd : d.bitcount < 8) (hvalid : ValidStream pos d.dest bs) (halign : 8 ∣ pos + d.bits.length)
    (hroom : (expandBlocks d.dest bs).length ≤ d.room) {rest : List Bool}
    (hbits : d.bits = streamBits bs ++ rest) :
    ∃ e, uncompressLoop init code_tree d = .ok (.ok, e)
      ∧ Written d e (expandBlocks d.dest bs) rest := by
  induction bs generalizing pos d with
  | nil => exact hvalid.elim
  | cons b bs ih =>
    have hgrow := length_expandBlocks (b.expand d.dest) bs
    cases bs with
    | nil => exact uncompressLoop_block code_tree hd hvalid halign hroom hbits
    | cons b' bs =>
      obtain ⟨hb, hbs⟩ := hvalid
      simp only [streamBits, List.append_assoc] at hbits
      obtain ⟨e, he, hwritten⟩ := uncompressLoop_block code_tree hd hb halign (hgrow.trans hroom) hbits
      have halign' : 8 ∣ pos + (b.bits false).length + e.bits.length := by
        rw [hbits, List.length_append, ← add_assoc] at halign
        rwa [hwritten.bits]
      obtain ⟨f, hf, hwritten'⟩ := ih hwritten.small (by rw [hwritten.dest]; exact hbs) halign'
        (by rw [hwritten.dest, hwritten.room]; exact hroom) hwritten.bits
      rw [hwritten.dest] at hwritten'
      exact ⟨f, he.trans hf, hwritten.trans hwritten' (b.length_expand d.dest) hgrow⟩

/-- Every stream that an encoder may write, with whatever behind it, is given back as what it
stands for, also when the stack held garbage. -/
theorem uncompress_written {bs : List DeflateBlock} (hvalid : ValidStream 0 [] bs) (code_tree : Tree)
    (junk : Data) {room : ℕ} (hroom : (expandBlocks [] bs).length ≤ room) (tail : List UInt8) :
    ∃ e, uncompress init code_tree junk room (encode bs ++ tail) = .ok (.ok, e)
      ∧ e.dest = expandBlocks [] bs ∧ e.destLen = (expandBlocks [] bs).length % 2 ^ 32 := by
  let n := ((streamBits bs).length + 7) / 8
  have hlen : (streamBits bs ++ List.replicate (8 * n - (streamBits bs).length) false).length = 8 * n := by
    simp only [List.length_append, List.length_replicate, n]
    omega
  let d : Data :=
    { junk with source := encode bs ++ tail, bitcount := 0, room := room, dest := [], destLen := 0 }
  have hbits : d.bits = streamBits bs
      ++ (List.replicate (8 * n - (streamBits bs).length) false ++ LsbBits.bits tail) := by
    have hencode : LsbBits.bits (encode bs)
        = streamBits bs ++ List.replicate (8 * n - (streamBits bs).length) false := bits_pack hlen
    simp only [Data.bits, d, lsb, List.nil_append, bits_append, hencode, List.append_assoc]
  have halign : 8 ∣ 0 + d.bits.length := by
    simp only [Data.bits, d, lsb, List.nil_append, length_bits, zero_add]
    exact Nat.dvd_mul_right 8 _
  obtain ⟨e, he, hwritten⟩ := uncompressLoop_written code_tree (d := d) (by simp [d]) hvalid halign hroom
    hbits
  exact ⟨e, he, hwritten.dest, by simpa [d] using hwritten.destLen⟩

/-- A stored block that begins in the middle of a byte, then a match over both blocks. -/
def twoBlocks : List DeflateBlock :=
  [.stored [false, true, false, false, true] [104, 105], .fixed [.literal 97, .copy 1 0 1 0]]

theorem twoBlocks_valid : ValidStream 0 [] twoBlocks := by
  have hlit : fixedCodes.lit.getD 97 0 ≠ 0 ∧ fixedCodes.lit.getD 258 0 ≠ 0
      ∧ fixedCodes.lit.getD 256 0 ≠ 0 := by decide +kernel
  refine ⟨⟨by decide, by decide, by decide⟩, hlit.1, ⟨⟨by decide, by decide, hlit.2.1⟩, ?_⟩, hlit.2.2⟩
  exact ⟨⟨by decide, by decide, by decide⟩, by decide⟩

end RgcFifa.TInf
