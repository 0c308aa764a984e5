import RgcFifa.Lib.DeflateFormat
import RgcFifa.TInfBits

/-! The blocks of the inflate. Whatever an encoder wrote in one of the three kinds of blocks, the
code reads its symbols back and writes out the bytes that they stand for. -/

namespace RgcFifa.TInf

open LsbBits CanonicalCode DeflateFormat

/-! ### Symbols of a block -/

theorem Left.dest {d e : Data} {bs : List Bool} (h : Left d e bs) (out : List UInt8) :
    Left { d with dest := out } { e with dest := out } bs where
  bits := h.bits
  small := h.small
  frame := by
    rw [h.frame]

theorem length_tables {len : ℕ} (h : len < 29) :
    init.length_bits[len]? = some (lengthExtra.getD len 0)
      ∧ init.length_base[len]? = some (lengthBase.getD len 0) := by
  have hall : ∀ n < 29, init.length_bits[n]? = some (lengthExtra.getD n 0)
      ∧ init.length_base[n]? = some (lengthBase.getD n 0) := by decide
  exact hall len h

theorem dist_tables {dist : ℕ} (h : dist < 30) :
    init.dist_bits[dist]? = some (distExtra.getD dist 0)
      ∧ init.dist_base[dist]? = some (distBase.getD dist 0) := by
  have hall : ∀ n < 30, init.dist_bits[n]? = some (distExtra.getD n 0)
      ∧ init.dist_base[n]? = some (distBase.getD n 0) := by decide
  exact hall dist h

theorem distBase_pos {dist : ℕ} (h : dist < 30) : 0 < distBase.getD dist 0 := by
  have hall : ∀ n < 30, 0 < distBase.getD n 0 := by decide
  exact hall dist h

theorem putByte_ok {d : Data} (h : d.dest.length < d.room) (b : UInt8) :
    putByte d b = .ok { d with dest := d.dest ++ [b] } := putByte_eq_ok.mpr ⟨h, rfl⟩

/-- The copy goes byte by byte, so a match may run into what it has written. -/
theorem copyMatch_eq {d : Data} {offs : ℕ} (hpos : 0 < offs) {n : ℕ} (hoffs : offs ≤ d.dest.length)
    (hroom : d.dest.length + n ≤ d.room) :
    copyMatch d offs n = .ok { d with dest := copyBack offs n d.dest } := by
  induction n generalizing d with
  | zero => rfl
  | succ n ih =>
    have hlt : d.dest.length - offs < d.dest.length := by omega
    have hget : d.dest.getD (d.dest.length - offs) 0 = d.dest[d.dest.length - offs] := by
      simp [List.getD_eq_getElem?_getD, hlt]
    rw [copyMatch, if_pos hoffs, List.getElem?_eq_getElem hlt]
    simp only [putByte_ok (by omega : d.dest.length < d.room), Faulting.ok_bind]
    rw [ih (by simp; omega) (by simp; omega)]
    simp only [copyBack, hget]

theorem inflateMatch_left {c : Codes} (hc : c.Valid) {dt : Tree} (hdt : IsTree dt c.dist)
    {len ext dist ext' : ℕ} {d : Data} (hd : d.bitcount < 8)
    (hvalid : (Token.copy len ext dist ext').Valid c d.dest)
    (hroom : (expand d.dest (.copy len ext dist ext')).length ≤ d.room) {rest : List Bool}
    (hbits : d.bits = lsb (lengthExtra.getD len 0) ext ++ code c.dist dist
      ++ lsb (distExtra.getD dist 0) ext' ++ rest) :
    ∃ e, inflateMatch init dt d len = .ok e
      ∧ Left { d with dest := expand d.dest (.copy len ext dist ext') } e rest := by
  obtain ⟨⟨hlen, hext, _⟩, ⟨hdist, hext', hused⟩, hfar⟩ := hvalid
  obtain ⟨hbits₁, hbase₁⟩ := length_tables hlen
  obtain ⟨hbits₂, hbase₂⟩ := dist_tables hdist
  simp only [List.append_assoc] at hbits
  obtain ⟨e₁, he₁, hleft₁⟩ := readBits_left (lengthBase.getD len 0) hext hd hbits
  obtain ⟨e₂, he₂, hleft₂⟩ := decodeSymbol_left hdt hc.dist.1 hc.dist.2 hused hleft₁.small hleft₁.bits
  obtain ⟨e₃, he₃, hleft₃⟩ :=
    readBits_left (distBase.getD dist 0) hext' hleft₂.small hleft₂.bits
  have hleft := (hleft₁.trans hleft₂).trans hleft₃
  have hsame : e₃.dest = d.dest ∧ e₃.room = d.room := by
    rw [hleft.frame]
    exact ⟨rfl, rfl⟩
  have hpos := distBase_pos hdist
  simp only [expand, length_copyBack] at hroom
  have hcopy : copyMatch e₃ (distBase.getD dist 0 + ext') (lengthBase.getD len 0 + ext)
      = .ok { e₃ with dest := copyBack _ _ e₃.dest } :=
    copyMatch_eq (by omega) (by rw [hsame.1]; omega) (by rw [hsame.1, hsame.2]; omega)
  refine ⟨_, ?_, hleft.dest _⟩
  rw [Nat.add_comm] at he₁ he₃
  rw [inflateMatch, hbits₁, hbase₁]
  simp only [he₁, Faulting.ok_bind, he₂, hbits₂, hbase₂, he₃, hcopy, hsame.1, expand]

/-- One token of a block: the loop goes on behind it. -/
theorem blockLoop_token {c : Codes} (hc : c.Valid) {lt dt : Tree} (hlt : IsTree lt c.lit)
    (hdt : IsTree dt c.dist) {t : Token} {d : Data} (hd : d.bitcount < 8) (ht : t.Valid c d.dest)
    (hroom : (expand d.dest t).length ≤ d.room) {rest : List Bool}
    (hbits : d.bits = tokenBits c t ++ rest) :
    ∃ e, blockLoop init lt dt d = blockLoop init lt dt e
      ∧ Left { d with dest := expand d.dest t } e rest := by
  cases t with
  | literal b =>
    obtain ⟨e, he, hleft⟩ := decodeSymbol_left hlt hc.lit.1 hc.lit.2 ht hd hbits
    have hput : putByte e b = .ok { e with dest := d.dest ++ [b] } := by
      rw [hleft.frame]
      apply putByte_ok
      simp only [expand, List.length_append, List.length_singleton] at hroom
      exact hroom
    have hlit : b.toNat < 256 := b.toNat_lt
    have hend : ¬ b.toNat = 256 := by omega
    refine ⟨_, ?_, hleft.dest _⟩
    rw [blockLoop_eq, he]
    simp only [Faulting.ok_bind, if_neg hend, if_pos hlit, UInt8.ofNat_toNat, hput, expand]
  | copy len ext dist ext' =>
    simp only [tokenBits, List.append_assoc] at hbits
    obtain ⟨e, he, hleft⟩ := decodeSymbol_left hlt hc.lit.1 hc.lit.2 ht.1.2.2 hd hbits
    have hsame : e.dest = d.dest ∧ e.room = d.room := by
      rw [hleft.frame]
      exact ⟨rfl, rfl⟩
    obtain ⟨f, hf, hleft'⟩ := inflateMatch_left hc hdt (d := e) hleft.small
      (by rw [hsame.1]; exact ht) (by rw [hsame.1, hsame.2]; exact hroom)
      (by simpa only [List.append_assoc] using hleft.bits)
    rw [hsame.1] at hleft'
    have hend : ¬ 257 + len = 256 := by omega
    have hlit : ¬ 257 + len < 256 := by omega
    refine ⟨f, ?_, (hleft.dest _).trans hleft'⟩
    rw [blockLoop_eq, he]
    simp only [Faulting.ok_bind, if_neg hend, if_neg hlit, Nat.add_sub_cancel_left, hf]

/-- The symbols of a block, up to the end of the block. -/
theorem blockLoop_left {c : Codes} (hc : c.Valid) {lt dt : Tree} (hlt : IsTree lt c.lit)
    (hdt : IsTree dt c.dist) {ts : List Token} {d : Data} (hd : d.bitcount < 8)
    (hvalid : ValidTokens c d.dest ts) (hroom : (expandAll d.dest ts).length ≤ d.room)
    {rest : List Bool} (hbits : d.bits = tokensBits c ts ++ rest) :
    ∃ e, blockLoop init lt dt d = .ok e ∧ Left { d with dest := expandAll d.dest ts } e rest := by
  induction ts generalizing d with
  | nil =>
    obtain ⟨e, he, hleft⟩ := decodeSymbol_left hlt hc.lit.1 hc.lit.2 hvalid hd hbits
    refine ⟨e, ?_, hleft⟩
    rw [blockLoop_eq, he]
    simp
  | cons t ts ih =>
    obtain ⟨ht, hts⟩ := hvalid
    have hgrow := length_expandAll (expand d.dest t) ts
    simp only [tokensBits, List.append_assoc] at hbits
    obtain ⟨e, he, hleft⟩ := blockLoop_token hc hlt hdt hd ht (hgrow.trans hroom) hbits
    have hsame : e.dest = expand d.dest t ∧ e.room = d.room := by
      rw [hleft.frame]
      exact ⟨rfl, rfl⟩
    obtain ⟨f, hf, hleft'⟩ := ih hleft.small (by rwa [hsame.1])
      (by rw [hsame.1, hsame.2]; exact hroom) hleft.bits
    rw [hsame.1] at hleft'
    exact ⟨f, he.trans hf, (hleft.dest _).trans hleft'⟩

/-! ### The description of the codes -/

theorem readCodeLengths_left {cl : List ℕ} (hcl : ∀ l ∈ cl, l < 8) (ls : List ℕ) {idx : List ℕ} {d : Data}
    (hd : d.bitcount < 8) {rest : List Bool}
    (hbits : d.bits = idx.flatMap (fun i => lsb 3 (cl.getD i 0)) ++ rest) :
    ∃ e, readCodeLengths ls idx d = .ok (idx.foldl (fun ls i => ls.set i (cl.getD i 0)) ls, e)
      ∧ Left d e rest := by
  induction idx generalizing ls d with
  | nil => exact ⟨d, rfl, Left.refl hd hbits⟩
  | cons i idx ih =>
    have hlt : cl.getD i 0 < 2 ^ 3 := by
      by_cases hi : i < cl.length
      · simpa [List.getD_eq_getElem?_getD, hi] using hcl cl[i] (List.getElem_mem hi)
      · simp [List.getD_eq_getElem?_getD, List.getElem?_eq_none (by omega : cl.length ≤ i)]
    simp only [List.flatMap_cons, List.append_assoc] at hbits
    obtain ⟨e, he, hleft⟩ := readBits_left 0 hlt hd hbits
    obtain ⟨f, hf, hleft'⟩ := ih (ls.set i (cl.getD i 0)) hleft.small hleft.bits
    refine ⟨f, ?_, hleft.trans hleft'⟩
    rw [readCodeLengths, he]
    exact hf

theorem foldl_set_getElem {cl : List ℕ} (idx : List ℕ) (ls : List ℕ) (j : ℕ) (hj : j < ls.length) :
    (idx.foldl (fun ls i => ls.set i (cl.getD i 0)) ls)[j]?
      = some (if j ∈ idx then cl.getD j 0 else ls[j]) := by
  induction idx generalizing ls with
  | nil => simp [hj]
  | cons i idx ih =>
    rw [List.foldl_cons, ih _ (by simpa using hj)]
    by_cases hmem : j ∈ idx
    · simp [hmem]
    · by_cases hij : i = j
      · simp [hmem, hij]
      · simp [hmem, hij, Ne.symm hij]

/-- The lengths that are not written are zero. -/
theorem codeLengths_eq {h : Header} (hh : h.Valid) :
    (clcidx.take h.hclen).foldl (fun ls i => ls.set i (h.cl.getD i 0)) (List.replicate 19 0) = h.cl := by
  have hmem : ∀ j < 19, j ∈ clcidx := by decide
  have hlen (idx ls : List ℕ) :
      (idx.foldl (fun ls i => ls.set i (h.cl.getD i 0)) ls).length = ls.length := by
    induction idx generalizing ls with
    | nil => rfl
    | cons i idx ih => rw [List.foldl_cons, ih, List.length_set]
  apply List.ext_getElem?
  intro j
  by_cases hj : j < 19
  · have hcl : h.cl[j]? = some (h.cl.getD j 0) := by
      simp [List.getD_eq_getElem?_getD, hh.cl.1, hj]
    rw [foldl_set_getElem _ _ j (by simpa using hj), hcl]
    by_cases hin : j ∈ clcidx.take h.hclen
    · rw [if_pos hin]
    · have hdrop : j ∈ order.drop h.hclen := by
        have hsplit := hmem j hj
        rw [← List.take_append_drop h.hclen clcidx, List.mem_append] at hsplit
        exact hsplit.resolve_left hin
      rw [if_neg hin, hh.written j hdrop, List.getElem_replicate]
  · rw [List.getElem?_eq_none (by rw [hlen, List.length_replicate]; omega), List.getElem?_eq_none (by rw [hh.cl.1]; omega)]

theorem putLengths_ok {ls : List ℕ} {n l : ℕ} (h : ls.length + n ≤ 320) :
    putLengths ls n l = .ok (ls ++ List.replicate n l) := if_pos h

/-- What a run writes is what it stands for. -/
theorem runLengths_left {cl ls : List ℕ} {r : Run} (hr : r.Valid cl ls)
    (hfit : (r.expand ls).length ≤ 320) {d : Data} (hd : d.bitcount < 8) {rest : List Bool}
    (hbits : d.bits = r.extra ++ rest) :
    ∃ e, runLengths d ls r.symbol = .ok (r.expand ls, e) ∧ Left d e rest := by
  obtain ⟨_, hr⟩ := hr
  cases r with
  | length l =>
    refine ⟨d, ?_, Left.refl hd hbits⟩
    have hput : putLengths ls 1 l = .ok (ls ++ [l]) := putLengths_ok (by simpa [Run.expand] using hfit)
    simp only at hr
    have h16 : l ≠ 16 := by omega
    have h17 : l ≠ 17 := by omega
    have h18 : l ≠ 18 := by omega
    simp [runLengths, Run.symbol, Run.expand, hput]
  | previous n =>
    obtain ⟨hne, hlo, hhi⟩ := hr
    obtain ⟨e, he, hleft⟩ := readBits_left 3 (by omega : n - 3 < 2 ^ 2) hd hbits
    have hlast : ls.getLast? = some (ls.getLast hne) := List.getLast?_eq_some_getLast hne
    have hexpand : (Run.previous n).expand ls = ls ++ List.replicate n (ls.getLast hne) := by
      simp [Run.expand, List.getLastD_eq_getLast?, hlast]
    rw [hexpand] at hfit ⊢
    rw [Nat.sub_add_cancel hlo] at he
    refine ⟨e, ?_, hleft⟩
    simp [runLengths, Run.symbol, hlast, he, putLengths_ok (by simpa using hfit)]
  | zeros n =>
    obtain ⟨e, he, hleft⟩ := readBits_left 3 (by omega : n - 3 < 2 ^ 3) hd hbits
    rw [Nat.sub_add_cancel hr.1] at he
    refine ⟨e, ?_, hleft⟩
    simp [runLengths, Run.symbol, Run.expand, he, putLengths_ok (by simpa [Run.expand] using hfit)]
  | manyZeros n =>
    obtain ⟨e, he, hleft⟩ := readBits_left 11 (by omega : n - 11 < 2 ^ 7) hd hbits
    rw [Nat.sub_add_cancel hr.1] at he
    refine ⟨e, ?_, hleft⟩
    simp [runLengths, Run.symbol, Run.expand, he, putLengths_ok (by simpa [Run.expand] using hfit)]

/-- The runs, up to the number of lengths that the header announces. -/
theorem decodeLengths_left {cl : List ℕ} (hcl : ∀ l ∈ cl, l < 16) (hkraft : Kraft 15 cl) {t : Tree}
    (ht : IsTree t cl) {total : ℕ} (htotal : total ≤ 320) {rs : List Run} {ls : List ℕ}
    (hvalid : ValidRuns cl ls rs) (hexpand : (expandRuns ls rs).length = total) {d : Data}
    (hd : d.bitcount < 8) {rest : List Bool} (hbits : d.bits = runsBits cl rs ++ rest) :
    ∃ e, decodeLengths t total ls d = .ok (expandRuns ls rs, e) ∧ Left d e rest := by
  induction rs generalizing ls d with
  | nil =>
    refine ⟨d, ?_, Left.refl hd hbits⟩
    have hdone : total ≤ ls.length := hexpand.ge
    rw [decodeLengths_eq, if_pos hdone]
    rfl
  | cons r rs ih =>
    obtain ⟨hr, hrs⟩ := hvalid
    have hgrow := length_runExpand hr
    have hle := length_expandRuns (r.expand ls) rs
    have htail : (expandRuns (r.expand ls) rs).length = total := hexpand
    simp only [runsBits, List.append_assoc] at hbits
    obtain ⟨e₁, he₁, hleft₁⟩ := decodeSymbol_left ht hcl hkraft hr.1 hd hbits
    obtain ⟨e₂, he₂, hleft₂⟩ := runLengths_left hr (by omega) hleft₁.small hleft₁.bits
    obtain ⟨e₃, he₃, hleft₃⟩ := ih hrs htail hleft₂.small hleft₂.bits
    refine ⟨e₃, ?_, (hleft₁.trans hleft₂).trans hleft₃⟩
    rw [decodeLengths_eq, if_neg (by omega), he₁]
    simp only [Faulting.ok_bind, he₂, he₃]
    rfl

/-- The trees of a dynamic block are those of the codes that its header describes. -/
theorem decodeTrees_left {h : Header} (hh : h.Valid) (lt dt code_tree : Tree) {d : Data}
    (hd : d.bitcount < 8) {rest : List Bool} (hbits : d.bits = h.bits ++ rest) :
    ∃ lt' dt' e, decodeTrees d lt dt code_tree = .ok (lt', dt', e)
      ∧ IsTree lt' h.codes.lit ∧ IsTree dt' h.codes.dist ∧ Left d e rest := by
  obtain ⟨⟨hlit, hlit'⟩, hdist, hdist'⟩ := hh.sizes
  have hcl16 : ∀ l ∈ h.cl, l < 16 := fun l hl => (hh.cl.2.1 l hl).trans (by decide)
  simp only [Header.bits, List.append_assoc] at hbits
  obtain ⟨e₁, he₁, hleft₁⟩ :=
    readBits_left 257 (by omega : h.codes.lit.length - 257 < 2 ^ 5) hd hbits
  obtain ⟨e₂, he₂, hleft₂⟩ :=
    readBits_left 1 (by omega : h.codes.dist.length - 1 < 2 ^ 5) hleft₁.small hleft₁.bits
  obtain ⟨e₃, he₃, hleft₃⟩ :=
    readBits_left 4 (by have := hh.hclen; omega : h.hclen - 4 < 2 ^ 4) hleft₂.small hleft₂.bits
  obtain ⟨e₄, he₄, hleft₄⟩ := readCodeLengths_left hh.cl.2.1 (List.replicate 19 0) hleft₃.small
    hleft₃.bits
  obtain ⟨ct, hct, hctree⟩ := buildTree_isTree hcl16 (by rw [hh.cl.1]; decide) code_tree
  have htotal : (expandRuns [] h.runs).length = h.codes.lit.length + h.codes.dist.length := by
    rw [hh.expand, List.length_append]
  obtain ⟨e₅, he₅, hleft₅⟩ := decodeLengths_left hcl16 hh.cl.2.2 hctree (by omega) hh.runs htotal
    hleft₄.small hleft₄.bits
  obtain ⟨lt', hlt, hltree⟩ := buildTree_isTree hh.codes.lit.1 hlit' lt
  obtain ⟨dt', hdt, hdtree⟩ := buildTree_isTree hh.codes.dist.1 (by omega) dt
  refine ⟨lt', dt', e₅, ?_, hltree, hdtree,
    (((hleft₁.trans hleft₂).trans hleft₃).trans hleft₄).trans hleft₅⟩
  rw [Nat.sub_add_cancel hlit] at he₁
  rw [Nat.sub_add_cancel hdist] at he₂
  rw [Nat.sub_add_cancel hh.hclen.1] at he₃
  have he₄' : readCodeLengths (List.replicate 19 0) (clcidx.take h.hclen) e₃ = .ok (h.cl, e₄) := by
    rw [← codeLengths_eq hh]
    exact he₄
  rw [hh.expand] at he₅
  simp only [decodeTrees, he₁, he₂, he₃, he₄', hct, he₅, Faulting.ok_bind, List.take_left,
    List.drop_left, List.take_length, hlt, hdt]

end RgcFifa.TInf
