import RgcFifa.Lib.CanonicalCode
import RgcFifa.Lib.LsbBits
import RgcFifa.TInf

/-! The bit reader of the inflate reads the bits of the source in order, and the decoder over the
tables that `tinf_build_tree` makes from code lengths reads the symbol of each canonical code. -/

namespace RgcFifa.TInf

open LsbBits

/-- The bits that are still to be read. -/
def Data.bits (d : Data) : List Bool := lsb d.bitcount d.tag ++ LsbBits.bits d.source

/-- `e` is `d` further on in the source, where `bs` is left. -/
structure Left (d e : Data) (bs : List Bool) : Prop where
  bits : e.bits = bs
  small : e.bitcount < 8
  frame : e = { d with source := e.source, tag := e.tag, bitcount := e.bitcount }

theorem Left.trans {d e f : Data} {bs cs : List Bool} (h : Left d e bs) (h' : Left e f cs) :
    Left d f cs where
  bits := h'.bits
  small := h'.small
  frame := by
    rw [h'.frame, h.frame]

theorem Left.refl {d : Data} (hd : d.bitcount < 8) {bs : List Bool} (h : d.bits = bs) : Left d d bs :=
  ⟨h, hd, rfl⟩

/-- The reader stands on a byte boundary exactly when whole bytes are left. -/
theorem bitcount_eq {d : Data} (h : d.bitcount < 8) : d.bitcount = d.bits.length % 8 := by
  simp only [Data.bits, List.length_append, length_lsb, length_bits]
  omega

theorem getbit_left {d : Data} (hd : d.bitcount < 8) {b : Bool} {rest : List Bool}
    (h : d.bits = b :: rest) : ∃ e, getbit d = .ok (b.toNat, e) ∧ Left d e rest := by
  have hbit (n : ℕ) : (decide (n % 2 = 1)).toNat = n % 2 := by
    rcases Nat.mod_two_eq_zero_or_one n with hn | hn <;> simp [hn]
  cases hc : d.bitcount with
  | zero =>
    cases hs : d.source with
    | nil => simp [Data.bits, hc, hs, lsb] at h
    | cons c source =>
      have hbits : d.bits = decide (c.toNat % 2 = 1) :: (lsb 7 (c.toNat / 2) ++ LsbBits.bits source) := by
        simp only [Data.bits, hc, hs, bits_cons, lsb, List.nil_append, List.cons_append]
      obtain ⟨hb, hrest⟩ := List.cons.inj (hbits.symm.trans h)
      refine ⟨{ d with source := source, tag := c.toNat / 2, bitcount := 7 }, ?_, ?_, by simp, rfl⟩
      · simp [getbit, loadTag, hc, hs, ← hb, hbit]
      · exact hrest
  | succ n =>
    have hbits : d.bits = decide (d.tag % 2 = 1) :: (lsb n (d.tag / 2) ++ LsbBits.bits d.source) := by
      simp only [Data.bits, hc, lsb, List.cons_append]
    obtain ⟨hb, hrest⟩ := List.cons.inj (hbits.symm.trans h)
    refine ⟨{ d with tag := d.tag / 2, bitcount := n }, ?_, hrest, ?_, rfl⟩
    · simp [getbit, loadTag, hc, ← hb, hbit]
    · simp only
      omega

theorem readMask_left (mask val : ℕ) {num v : ℕ} {d : Data} (hd : d.bitcount < 8) {rest : List Bool}
    (h : d.bits = lsb num v ++ rest) :
    ∃ e, readMask mask val num d = .ok (val + mask * (v % 2 ^ num), e) ∧ Left d e rest := by
  induction num generalizing mask val v d with
  | zero =>
    refine ⟨d, by simp [readMask, Nat.mod_one], ?_⟩
    exact Left.refl hd h
  | succ num ih =>
    obtain ⟨e, he, hleft⟩ := getbit_left hd h
    obtain ⟨f, hf, hleft'⟩ := ih (mask * 2)
      (if (decide (v % 2 = 1)).toNat ≠ 0 then val + mask else val) hleft.small hleft.bits
    refine ⟨f, ?_, hleft.trans hleft'⟩
    rw [readMask, he, Faulting.ok_bind]
    simp only [hf]
    have hmod : v % 2 ^ (num + 1) = v % 2 + 2 * (v / 2 % 2 ^ num) := by
      rw [pow_succ', Nat.mod_mul]
    rcases Nat.mod_two_eq_zero_or_one v with hv | hv
    · simp [hmod, hv]
      ring
    · simp [hmod, hv]
      ring

/-- A number is read back from its bits. -/
theorem readBits_left (base : ℕ) {num v : ℕ} (hv : v < 2 ^ num) {d : Data} (hd : d.bitcount < 8)
    {rest : List Bool} (h : d.bits = lsb num v ++ rest) :
    ∃ e, readBits d num base = .ok (v + base, e) ∧ Left d e rest := by
  obtain ⟨e, he, hleft⟩ := readMask_left 1 0 hd h
  refine ⟨e, ?_, hleft⟩
  simp [readBits, he, Nat.mod_eq_of_lt hv]

/-! ### The decoder -/

open CanonicalCode

/-- The table counts the codes of each length, and `trans` has each symbol at its place. -/
structure IsTree (t : Tree) (ls : List ℕ) : Prop where
  table : ∀ l, 0 < l → l < 16 → t.table[l]? = some (count ls l)
  trans : ∀ s, ls.getD s 0 ≠ 0 → t.trans[place ls s]? = some s

theorem count_eq_zero {ls : List ℕ} (hls : ∀ l ∈ ls, l < 16) {l : ℕ} (hl : 16 ≤ l) :
    count ls l = 0 := by
  rw [count_of_pos ls (by omega)]
  exact List.count_eq_zero_of_not_mem fun hmem => absurd (hls l hmem) (by omega)

/-- The decoder over a table goes through the same prefixes, and looks its symbol up. -/
theorem decodeLoop_left {t : Tree} {ls : List ℕ} (ht : IsTree t ls) (hls : ∀ l ∈ ls, l < 16)
    {n len cur sum i : ℕ} {bs rest : List Bool} (hfind : find (count ls) len cur sum bs = some (i, rest))
    {sym : ℕ} (hsym : t.trans[i]? = some sym) (hn : len + n = 16) {d : Data} (hd : d.bitcount < 8)
    (hbits : d.bits = bs) : ∃ e, decodeLoop t n sum cur len d = .ok (sym, e) ∧ Left d e rest := by
  induction bs generalizing n len cur sum d with
  | nil => cases hfind
  | cons b bs ih =>
    have hlen : len < 15 := by
      by_contra hge
      rw [find_eq_none fun l hl => count_eq_zero hls (by omega)] at hfind
      cases hfind
    obtain ⟨e, he, hleft⟩ := getbit_left hd hbits
    obtain ⟨m, rfl⟩ : ∃ m, n = m + 1 := ⟨n - 1, by omega⟩
    have htable := ht.table (len + 1) (by omega) (by omega)
    rw [decodeLoop, he, Faulting.ok_bind]
    simp only [htable]
    simp only [find] at hfind
    by_cases hin : 2 * cur + b.toNat < count ls (len + 1)
    · rw [if_pos hin, Option.some.injEq, Prod.mk.injEq] at hfind
      have hneg : ¬ (0 : ℤ) ≤ 2 * (cur : ℤ) + (b.toNat : ℤ) - (count ls (len + 1) : ℤ) := by omega
      have hplace : ((sum : ℤ) + (count ls (len + 1) : ℤ)
          + (2 * (cur : ℤ) + (b.toNat : ℤ) - (count ls (len + 1) : ℤ))).toNat = i := by omega
      rw [if_neg hneg, hplace, hsym]
      exact ⟨e, rfl, hfind.2 ▸ hleft⟩
    · rw [if_neg hin] at hfind
      have hpos : (0 : ℤ) ≤ 2 * (cur : ℤ) + (b.toNat : ℤ) - (count ls (len + 1) : ℤ) := by omega
      obtain ⟨f, hf, hleft'⟩ := ih (n := m) hfind (by omega) hleft.small hleft.bits
      have hcast : ((2 * cur + b.toNat - count ls (len + 1) : ℕ) : ℤ)
          = 2 * (cur : ℤ) + (b.toNat : ℤ) - (count ls (len + 1) : ℤ) := by omega
      rw [if_pos hpos]
      refine ⟨f, ?_, hleft.trans hleft'⟩
      rw [← hf, hcast]
      push_cast
      rfl

/-- The decoder reads each symbol from its code. -/
theorem decodeSymbol_left {t : Tree} {ls : List ℕ} (ht : IsTree t ls) (hls : ∀ l ∈ ls, l < 16)
    (hkraft : Kraft 15 ls) {s : ℕ} (hs : ls.getD s 0 ≠ 0) {d : Data} (hd : d.bitcount < 8)
    {rest : List Bool} (hbits : d.bits = code ls s ++ rest) :
    ∃ e, decodeSymbol d t = .ok (s, e) ∧ Left d e rest := by
  have hlen : ls.getD s 0 ≤ 15 := by
    by_cases hlt : s < ls.length
    · have hmem := hls ls[s] (List.getElem_mem hlt)
      simp [List.getD_eq_getElem?_getD, hlt]
      omega
    · simp [List.getD_eq_getElem?_getD, List.getElem?_eq_none (by omega : ls.length ≤ s)]
  exact decodeLoop_left ht hls (find_symbol hkraft hs hlen rest) (ht.trans s hs) (by rfl) hd hbits

theorem getbit_sound {d e : Data} (hd : d.bitcount < 8) {b : ℕ} (h : getbit d = .ok (b, e)) :
    ∃ c : Bool, b = c.toNat ∧ d.bits = c :: e.bits ∧ Left d e e.bits := by
  cases hbits : d.bits with
  | nil =>
    have hnone : d.bitcount = 0 ∧ d.source = [] := by
      have hlen := congrArg List.length hbits
      simp only [Data.bits, List.length_append, length_lsb, length_bits, List.length_nil] at hlen
      exact ⟨by omega, List.length_eq_zero_iff.mp (by omega)⟩
    simp [getbit, loadTag, hnone.1, hnone.2] at h
  | cons c rest =>
    obtain ⟨e', he, hleft⟩ := getbit_left hd hbits
    rw [he, Except.ok.injEq, Prod.mk.injEq] at h
    obtain ⟨rfl, rfl⟩ := h
    exact ⟨c, rfl, by rw [hleft.bits], hleft.bits.symm ▸ hleft⟩

/-- What the decoder gives is what the table has at the place that the bits lead to. -/
theorem decodeLoop_sound {t : Tree} {ls : List ℕ} (ht : IsTree t ls) (cur sum : ℕ) {n len sym : ℕ}
    {d e : Data} (hn : len + n = 16) (hd : d.bitcount < 8)
    (h : decodeLoop t n sum cur len d = .ok (sym, e)) :
    ∃ i, find (count ls) len cur sum d.bits = some (i, e.bits) ∧ t.trans[i]? = some sym := by
  induction n generalizing len cur sum d with
  | zero => simp [decodeLoop] at h
  | succ n ih =>
    obtain ⟨⟨b, d₁⟩, hb, h⟩ := Faulting.bind_eq_ok.mp h
    obtain ⟨c, rfl, hbits, hleft⟩ := getbit_sound hd hb
    rw [hbits, find]
    by_cases hlen : len + 1 < 16
    · simp only [ht.table (len + 1) (by omega) hlen] at h
      by_cases hin : 2 * cur + c.toNat < count ls (len + 1)
      · have hneg : ¬ (0 : ℤ) ≤ 2 * (cur : ℤ) + (c.toNat : ℤ) - (count ls (len + 1) : ℤ) := by omega
        have hplace : ((sum : ℤ) + (count ls (len + 1) : ℤ)
            + (2 * (cur : ℤ) + (c.toNat : ℤ) - (count ls (len + 1) : ℤ))).toNat
              = sum + (2 * cur + c.toNat) := by omega
        rw [if_neg hneg, hplace] at h
        rw [if_pos hin]
        cases hsym : t.trans[sum + (2 * cur + c.toNat)]? with
        | none => simp [hsym] at h
        | some sym' =>
          simp only [hsym, Except.ok.injEq, Prod.mk.injEq] at h
          exact ⟨_, by rw [h.2], by rw [hsym, h.1]⟩
      · have hpos : (0 : ℤ) ≤ 2 * (cur : ℤ) + (c.toNat : ℤ) - (count ls (len + 1) : ℤ) := by omega
        have hcast : ((2 * cur + c.toNat - count ls (len + 1) : ℕ) : ℤ)
            = 2 * (cur : ℤ) + (c.toNat : ℤ) - (count ls (len + 1) : ℤ) := by omega
        rw [if_pos hpos, ← hcast] at h
        rw [if_neg hin]
        exact ih _ _ (by omega) hleft.small (by exact_mod_cast h)
    · have hnone : t.table[len + 1]? = none := Vector.getElem?_eq_none (by omega)
      simp [hnone] at h

/-! ### The trees -/

theorem countLengths_eq {lengths : List ℕ} (hl : ∀ l ∈ lengths, l < 16) (table : Vector ℕ 16)
    (hsmall : ∀ l (h : l < 16), table[l] + lengths.length < 2 ^ 16) :
    ∃ table', countLengths table lengths = .ok table'
      ∧ ∀ l (h : l < 16), table'[l] = table[l] + lengths.count l := by
  induction lengths generalizing table with
  | nil => exact ⟨table, rfl, fun l h => by simp⟩
  | cons k lengths ih =>
    have hk : k < 16 := hl k (by simp)
    have hkn := hsmall k hk
    simp only [List.length_cons] at hkn
    obtain ⟨table', htable, hget⟩ := ih (fun l hmem => hl l (by simp [hmem]))
      (table.set k ((table[k] + 1) % 2 ^ 16)) (by
        intro l h
        have hln := hsmall l h
        simp only [List.length_cons] at hln
        by_cases hlk : k = l
        · subst hlk
          simp
          omega
        · simp [hlk]
          omega)
    refine ⟨table', by rw [countLengths, dif_pos hk, htable], fun l h => ?_⟩
    rw [hget l h]
    by_cases hlk : k = l
    · subst hlk
      simp
      omega
    · simp [hlk]

theorem offsets_get {ls : List ℕ} {table : Vector ℕ 16}
    (htable : ∀ l (h : l < 16), table[l] = count ls l) {l : ℕ} (hl : l < 16) :
    (offsets table)[l] = offset (count ls) l := by
  have hsum : (table.toList.take l).sum = offset (count ls) l := by
    induction l with
    | zero => simp [offset]
    | succ l ih =>
      have hget : table.toList[l]? = some (count ls l) := by
        simp [(by omega : l < 16), htable]
      rw [List.take_add_one, hget, offset, ← ih (by omega)]
      simp
  simpa [offsets] using hsum

/-- Each symbol is put to its place, and none is overwritten. -/
theorem sortSymbols_eq {ls : List ℕ} (pre rest : List ℕ) (hsplit : ls = pre ++ rest) (hls : ∀ l ∈ ls, l < 16)
    (hlen : ls.length ≤ 288) (offs : Vector ℕ 16)
    (hoffs : ∀ l (h : l < 16), 0 < l → offs[l] = offset (count ls) l + pre.count l)
    (trans : Vector ℕ 288)
    (htrans : ∀ s < pre.length, ls.getD s 0 ≠ 0 → trans[place ls s]? = some s) :
    ∃ trans', sortSymbols offs trans pre.length rest = .ok trans'
      ∧ ∀ s < ls.length, ls.getD s 0 ≠ 0 → trans'[place ls s]? = some s := by
  induction rest generalizing pre offs trans with
  | nil =>
    refine ⟨trans, rfl, fun s hs => htrans s ?_⟩
    simpa [hsplit] using hs
  | cons l rest ih =>
    have hnext : ls = (pre ++ [l]) ++ rest := by simp [hsplit]
    have hget : ls.getD pre.length 0 = l := by simp [hsplit]
    have hrank : rank ls pre.length = pre.count l := by
      rw [rank, hget]
      simp [hsplit]
    have hlt : (pre ++ [l]).length = pre.length + 1 := by simp
    by_cases hz : l = 0
    · subst hz
      obtain ⟨trans', hsort, hall⟩ := ih (pre ++ [0]) hnext offs
        (fun k hk hpos => by simp [hoffs k hk hpos, hpos.ne]) trans
        (fun s hs hne => htrans s (by
          rw [hlt] at hs
          by_contra hge
          exact hne (by rwa [(by omega : s = pre.length)])) hne)
      refine ⟨trans', ?_, hall⟩
      rw [hlt] at hsort
      rw [sortSymbols, if_pos rfl, hsort]
    · have hl : l < 16 := hls l (by simp [hsplit])
      have hplace : offs[l] = place ls pre.length := by
        rw [hoffs l hl (by omega), place, hget, hrank]
      have hroom : offs[l] < 288 := by
        have hlt' : place ls pre.length < offset (count ls) 16 :=
          place_lt (by rwa [hget]) (by omega)
        have hle := offset_le_length ls 16
        omega
      obtain ⟨trans', hsort, hall⟩ := ih (pre ++ [l]) hnext (offs.set l (offs[l] + 1))
        (fun k hk hpos => by
          by_cases hkl : l = k
          · subst hkl
            simp [hoffs l hl hpos]
            omega
          · simp [hkl, hoffs k hk hpos])
        (trans.set offs[l] pre.length)
        (fun s hs hne => by
          rw [hlt] at hs
          by_cases hspre : s = pre.length
          · subst hspre
            simp [hplace]
          · have hne' : place ls pre.length ≠ place ls s := by
              intro heq
              exact hspre (place_inj (by rwa [hget]) hne heq).symm
            rw [Vector.getElem?_set, if_neg (by rwa [hplace])]
            exact htrans s (by omega) hne)
      refine ⟨trans', ?_, hall⟩
      rw [hlt] at hsort
      rw [sortSymbols, if_neg hz, dif_pos hl, dif_pos hroom, hsort]

/-- `tinf_build_tree` makes the tree of its code lengths, whatever the tree held before. -/
theorem buildTree_isTree {ls : List ℕ} (hls : ∀ l ∈ ls, l < 16) (hlen : ls.length ≤ 288) (t : Tree) :
    ∃ t', buildTree t ls = .ok t' ∧ IsTree t' ls := by
  obtain ⟨table, hcount, htable⟩ := countLengths_eq hls (Vector.replicate 16 0) (by
    intro l h
    simp
    omega)
  have htable' : ∀ l (h : l < 16), (table.set 0 0)[l] = count ls l := by
    intro l h
    by_cases hl : l = 0
    · simp [hl, count]
    · simp [htable l h, count, hl, Ne.symm hl]
  obtain ⟨trans, hsort, hall⟩ := sortSymbols_eq [] ls (List.nil_append ls).symm hls hlen
    (offsets (table.set 0 0)) (fun l h _ => by
      rw [offsets_get htable' h]
      simp) t.trans (by simp)
  refine ⟨⟨table.set 0 0, trans⟩, ?_, ?_, ?_⟩
  · rw [buildTree, hcount, Faulting.ok_bind]
    simp only [List.length_nil] at hsort
    simp only [hsort, Faulting.ok_bind]
  · intro l _ h
    rw [Vector.getElem?_eq_getElem h, htable' l h]
  · intro s hs
    refine hall s ?_ hs
    by_contra hge
    simp [List.getD_eq_getElem?_getD, List.getElem?_eq_none (by omega : ls.length ≤ s)] at hs

/-- For all code lengths that leave room for their codes, `tinf_build_tree` and
`tinf_decode_symbol` together read the canonical code: a symbol is decoded from its own code and
from nothing else, and what follows the code is left. -/
theorem decodeSymbol_iff {ls : List ℕ} (hls : ∀ l ∈ ls, l < 16) (hlen : ls.length ≤ 288)
    (hkraft : Kraft 15 ls) (t₀ : Tree) :
    ∃ t, buildTree t₀ ls = .ok t ∧ ∀ d : Data, d.bitcount < 8 → ∀ s rest,
      (∃ e, decodeSymbol d t = .ok (s, e) ∧ e.bits = rest)
        ↔ ls.getD s 0 ≠ 0 ∧ d.bits = code ls s ++ rest := by
  obtain ⟨t, hbuild, ht⟩ := buildTree_isTree hls hlen t₀
  refine ⟨t, hbuild, fun d hd s rest => ⟨?_, ?_⟩⟩
  · rintro ⟨e, he, rfl⟩
    obtain ⟨i, hfind, hsym⟩ := decodeLoop_sound ht 0 0 rfl hd he
    obtain ⟨s', hs', rfl, hbits⟩ := symbol_of_find hfind
    rw [ht.trans s' hs', Option.some.injEq] at hsym
    exact hsym ▸ ⟨hs', hbits⟩
  · rintro ⟨hs, hbits⟩
    obtain ⟨e, he, hleft⟩ := decodeSymbol_left ht hls hkraft hs hd hbits
    exact ⟨e, he, hleft.bits⟩

theorem decodeSymbol_iff_four : ∃ t, buildTree staticTree [2, 1, 3, 3] = .ok t
    ∧ ∀ d : Data, d.bitcount < 8 → ∀ s rest, (∃ e, decodeSymbol d t = .ok (s, e) ∧ e.bits = rest)
      ↔ [2, 1, 3, 3].getD s 0 ≠ 0 ∧ d.bits = code [2, 1, 3, 3] s ++ rest :=
  decodeSymbol_iff (by decide) (by decide) (by decide +kernel) staticTree

end RgcFifa.TInf
