import RgcFifa.Lib.Faulting
import Mathlib.Tactic

/-! The small inflate of the base library: its tables, the bit reader, the Huffman decoder and the
three kinds of blocks. The code checks no bound; an access outside the caller's source, outside
the bytes written so far or outside an array is a fault here. -/

namespace RgcFifa.TInf

inductive Fault where
  | source
  | dest
  | array
  deriving DecidableEq, Repr

/-- `TINF_OK` and `TINF_DATA_ERROR`. -/
inductive Status where
  | ok
  | dataError
  deriving DecidableEq, Repr

structure Tree where
  table : Vector ℕ 16
  trans : Vector ℕ 288
  deriving DecidableEq

/-- `source` holds the bytes from the pointer on, `dest` the bytes written so far, of the `room`
that the caller's buffer has. -/
structure Data where
  source : List UInt8
  tag : ℕ
  bitcount : ℕ
  room : ℕ
  dest : List UInt8
  destLen : ℕ
  ltree : Tree
  dtree : Tree

structure Tables where
  sltree : Tree
  sdtree : Tree
  length_bits : List ℕ
  length_base : List ℕ
  dist_bits : List ℕ
  dist_base : List ℕ

/-! ### The tables -/

def clcidx : List ℕ := [16, 17, 18, 0, 8, 7, 9, 6, 10, 5, 11, 4, 12, 3, 13, 2, 14, 1, 15]

/-- `for (i = 0; i < n; ++i) v[start + i] = f(i)` -/
def fill {k : ℕ} (v : Vector ℕ k) (start n : ℕ) (f : ℕ → ℕ) : Vector ℕ k :=
  (List.range n).foldl (fun v i => v.setIfInBounds (start + i) (f i)) v

def buildBits (delta : ℕ) : List ℕ :=
  List.replicate delta 0 ++ (List.range (30 - delta)).map fun i => i / delta

def buildBase (sum : ℕ) : List ℕ → List ℕ
  | [] => []
  | b :: bits => sum % 2 ^ 16 :: buildBase (sum + 1 <<< b) bits

def buildFixedLengthTree (t : Tree) : Tree where
  table := (((fill t.table 0 7 fun _ => 0).set 7 24).set 8 152).set 9 112
  trans :=
    let trans := fill t.trans 0 24 fun i => 256 + i
    let trans := fill trans 24 144 fun i => i
    let trans := fill trans (24 + 144) 8 fun i => 280 + i
    fill trans (24 + 144 + 8) 112 fun i => 144 + i

def buildFixedDistTree (t : Tree) : Tree where
  table := (fill t.table 0 5 fun _ => 0).set 5 32
  trans := fill t.trans 0 32 fun i => i

/-- A static tree before `tinf_init`. -/
def staticTree : Tree := ⟨Vector.replicate 16 0, Vector.replicate 288 0⟩

def init : Tables :=
  let length_bits := buildBits 4
  let dist_bits := buildBits 2
  { sltree := buildFixedLengthTree staticTree
    sdtree := buildFixedDistTree staticTree
    length_bits := length_bits.set 28 0
    length_base := (buildBase 3 length_bits).set 28 258
    dist_bits := dist_bits
    dist_base := buildBase 1 dist_bits }

/-- The counts of the code lengths; a length from 16 on is outside the table. -/
def countLengths (table : Vector ℕ 16) : List ℕ → Except Fault (Vector ℕ 16)
  | [] => .ok table
  | l :: lengths =>
    if h : l < 16 then countLengths (table.set l ((table[l] + 1) % 2 ^ 16)) lengths
    else .error .array

/-- `offs`: where the symbols of each code length begin. -/
def offsets (table : Vector ℕ 16) : Vector ℕ 16 :=
  Vector.ofFn fun l => (table.toList.take l).sum

/-- The symbols from `i` on take the next place of their length. -/
def sortSymbols (offs : Vector ℕ 16) (trans : Vector ℕ 288) (i : ℕ) :
    List ℕ → Except Fault (Vector ℕ 288)
  | [] => .ok trans
  | l :: lengths =>
    if l = 0 then sortSymbols offs trans (i + 1) lengths
    else if h : l < 16 then
      if hp : offs[l] < 288 then
        sortSymbols (offs.set l (offs[l] + 1)) (trans.set offs[l] i) (i + 1) lengths
      else .error .array
    else .error .array

def buildTree (t : Tree) (lengths : List ℕ) : Except Fault Tree := do
  let table ← countLengths (Vector.replicate 16 0) lengths
  let table := table.set 0 0
  let trans ← sortSymbols (offsets table) t.trans 0 lengths
  .ok ⟨table, trans⟩

/-! ### The bit reader -/

def loadTag (d : Data) : Except Fault Data :=
  if d.bitcount = 0 then
    match d.source with
    | [] => .error .source
    | b :: source => .ok { d with source := source, tag := b.toNat, bitcount := 7 }
  else .ok { d with bitcount := d.bitcount - 1 }

def getbit (d : Data) : Except Fault (ℕ × Data) := do
  let d ← loadTag d
  .ok (d.tag % 2, { d with tag := d.tag / 2 })

/-- The bits of a number from weight `mask` on, `num` of them. -/
def readMask (mask val : ℕ) : ℕ → Data → Except Fault (ℕ × Data)
  | 0, d => .ok (val, d)
  | num + 1, d => do
    let (bit, d) ← getbit d
    readMask (mask * 2) (if bit ≠ 0 then val + mask else val) num d

def readBits (d : Data) (num base : ℕ) : Except Fault (ℕ × Data) := do
  let (val, d) ← readMask 1 0 num d
  .ok (val + base, d)

/-- One code, bit by bit; `n` is a bound on the rounds. The table ends after length 15. -/
def decodeLoop (t : Tree) : ℕ → ℤ → ℤ → ℕ → Data → Except Fault (ℕ × Data)
  | 0, _, _, _, _ => .error .array
  | n + 1, sum, cur, len, d => do
    let (bit, d) ← getbit d
    let cur := 2 * cur + bit
    let len := len + 1
    match t.table[len]? with
    | none => .error .array
    | some c =>
      let sum := sum + c
      let cur := cur - c
      if 0 ≤ cur then decodeLoop t n sum cur len d
      else
        match t.trans[(sum + cur).toNat]? with
        | none => .error .array
        | some sym => .ok (sym, d)

def decodeSymbol (d : Data) (t : Tree) : Except Fault (ℕ × Data) := decodeLoop t 16 0 0 0 d

/-- The number of bits that are left. Every loop below consumes some in each round. -/
def Data.avail (d : Data) : ℕ := d.bitcount + 8 * d.source.length

theorem getbit_avail {d d' : Data} {b : ℕ} (h : getbit d = .ok (b, d')) : d'.avail < d.avail := by
  simp only [getbit, loadTag] at h
  by_cases hz : d.bitcount = 0
  · rw [if_pos hz] at h
    cases hs : d.source with
    | nil =>
      rw [hs] at h
      simp at h
    | cons c source =>
      rw [hs] at h
      simp only [Faulting.ok_bind, Except.ok.injEq, Prod.mk.injEq] at h
      rw [← h.2]
      simp [Data.avail, hz, hs]
      omega
  · rw [if_neg hz] at h
    simp only [Faulting.ok_bind, Except.ok.injEq, Prod.mk.injEq] at h
    rw [← h.2]
    simp [Data.avail]
    omega

theorem readMask_avail {mask val num v : ℕ} {d d' : Data} (h : readMask mask val num d = .ok (v, d')) :
    d'.avail ≤ d.avail := by
  induction num generalizing mask val d with
  | zero =>
    simp only [readMask, Except.ok.injEq, Prod.mk.injEq] at h
    rw [h.2]
  | succ num ih =>
    obtain ⟨⟨b, e⟩, hb, hrest⟩ := Faulting.bind_eq_ok.mp h
    exact (ih hrest).trans (getbit_avail hb).le

theorem readBits_avail {num base v : ℕ} {d d' : Data} (h : readBits d num base = .ok (v, d')) :
    d'.avail ≤ d.avail := by
  obtain ⟨⟨w, e⟩, hw, hrest⟩ := Faulting.bind_eq_ok.mp h
  simp only [Except.ok.injEq, Prod.mk.injEq] at hrest
  exact hrest.2 ▸ readMask_avail hw

theorem decodeLoop_avail {t : Tree} {n len sym : ℕ} {sum cur : ℤ} {d d' : Data}
    (h : decodeLoop t n sum cur len d = .ok (sym, d')) : d'.avail < d.avail := by
  induction n generalizing sum cur len d with
  | zero => simp [decodeLoop] at h
  | succ n ih =>
    obtain ⟨⟨b, e⟩, hb, hrest⟩ := Faulting.bind_eq_ok.mp h
    have hlt := getbit_avail hb
    cases hc : t.table[len + 1]? with
    | none => simp [hc] at hrest
    | some c =>
      simp only [hc] at hrest
      by_cases hcur : 0 ≤ 2 * cur + (b : ℤ) - c
      · rw [if_pos hcur] at hrest
        exact (ih hrest).trans hlt
      · rw [if_neg hcur] at hrest
        split at hrest
        · cases hrest
        · simp only [Except.ok.injEq, Prod.mk.injEq] at hrest
          exact hrest.2 ▸ hlt

theorem decodeSymbol_avail {t : Tree} {sym : ℕ} {d d' : Data} (h : decodeSymbol d t = .ok (sym, d')) :
    d'.avail < d.avail := decodeLoop_avail h

/-! ### The trees of a dynamic block -/

/-- `lengths[num++] = l`, `n` times. The array has 288+32 places. -/
def putLengths (lengths : List ℕ) (n l : ℕ) : Except Fault (List ℕ) :=
  if lengths.length + n ≤ 288 + 32 then .ok (lengths ++ List.replicate n l) else .error .array

/-- What one symbol of the code length alphabet writes behind the lengths so far. -/
def runLengths (d : Data) (lengths : List ℕ) (sym : ℕ) : Except Fault (List ℕ × Data) :=
  match sym with
  | 16 =>
    match lengths.getLast? with
    | none => .error .array
    | some prev => do
      let (length, d) ← readBits d 2 3
      let lengths ← putLengths lengths length prev
      .ok (lengths, d)
  | 17 => do
    let (length, d) ← readBits d 3 3
    let lengths ← putLengths lengths length 0
    .ok (lengths, d)
  | 18 => do
    let (length, d) ← readBits d 7 11
    let lengths ← putLengths lengths length 0
    .ok (lengths, d)
  | sym => do
    let lengths ← putLengths lengths 1 sym
    .ok (lengths, d)

theorem runLengths_avail {d d' : Data} {lengths lengths' : List ℕ} {sym : ℕ}
    (h : runLengths d lengths sym = .ok (lengths', d')) : d'.avail ≤ d.avail := by
  unfold runLengths at h
  split at h
  · split at h
    · cases h
    · obtain ⟨⟨n, e⟩, hn, hrest⟩ := Faulting.bind_eq_ok.mp h
      obtain ⟨ls, _, hrest⟩ := Faulting.bind_eq_ok.mp hrest
      simp only [Except.ok.injEq, Prod.mk.injEq] at hrest
      exact hrest.2 ▸ readBits_avail hn
  · obtain ⟨⟨n, e⟩, hn, hrest⟩ := Faulting.bind_eq_ok.mp h
    obtain ⟨ls, _, hrest⟩ := Faulting.bind_eq_ok.mp hrest
    simp only [Except.ok.injEq, Prod.mk.injEq] at hrest
    exact hrest.2 ▸ readBits_avail hn
  · obtain ⟨⟨n, e⟩, hn, hrest⟩ := Faulting.bind_eq_ok.mp h
    obtain ⟨ls, _, hrest⟩ := Faulting.bind_eq_ok.mp hrest
    simp only [Except.ok.injEq, Prod.mk.injEq] at hrest
    exact hrest.2 ▸ readBits_avail hn
  · obtain ⟨ls, _, hrest⟩ := Faulting.bind_eq_ok.mp h
    simp only [Except.ok.injEq, Prod.mk.injEq] at hrest
    exact hrest.2 ▸ le_rfl

def decodeLengths (t : Tree) (total : ℕ) (lengths : List ℕ) (d : Data) :
    Except Fault (List ℕ × Data) :=
  if total ≤ lengths.length then .ok (lengths, d)
  else
    match hsym : decodeSymbol d t with
    | .error e => .error e
    | .ok (sym, e) =>
      match hrun : runLengths e lengths sym with
      | .error e => .error e
      | .ok (lengths, e') => decodeLengths t total lengths e'
termination_by d.avail
decreasing_by exact (runLengths_avail hrun).trans_lt (decodeSymbol_avail hsym)

/-- The lengths of the code length codes, in the order of `clcidx`. -/
def readCodeLengths (lengths : List ℕ) : List ℕ → Data → Except Fault (List ℕ × Data)
  | [], d => .ok (lengths, d)
  | i :: idx, d => do
    let (clen, d) ← readBits d 3 0
    readCodeLengths (lengths.set i clen) idx d

def decodeTrees (d : Data) (lt dt code_tree : Tree) : Except Fault (Tree × Tree × Data) := do
  let (hlit, d) ← readBits d 5 257
  let (hdist, d) ← readBits d 5 1
  let (hclen, d) ← readBits d 4 4
  let (lengths, d) ← readCodeLengths (List.replicate 19 0) (clcidx.take hclen) d
  let code_tree ← buildTree code_tree lengths
  let (lengths, d) ← decodeLengths code_tree (hlit + hdist) [] d
  let lt ← buildTree lt (lengths.take hlit)
  let dt ← buildTree dt ((lengths.drop hlit).take hdist)
  .ok (lt, dt, d)

/-! ### The blocks -/

def putByte (d : Data) (b : UInt8) : Except Fault Data :=
  if d.dest.length < d.room then .ok { d with dest := d.dest ++ [b] } else .error .dest

/-- `for (i = 0; i < length; ++i) d->dest[i] = d->dest[i - offs]` -/
def copyMatch (d : Data) (offs : ℕ) : ℕ → Except Fault Data
  | 0 => .ok d
  | length + 1 =>
    if offs ≤ d.dest.length then
      match d.dest[d.dest.length - offs]? with
      | none => .error .dest
      | some b => do
        let d ← putByte d b
        copyMatch d offs length
    else .error .dest

/-- The rest of a match after its length symbol. -/
def inflateMatch (g : Tables) (dt : Tree) (d : Data) (sym : ℕ) : Except Fault Data :=
  match g.length_bits[sym]?, g.length_base[sym]? with
  | some bits, some base => do
    let (length, d) ← readBits d bits base
    let (dist, d) ← decodeSymbol d dt
    match g.dist_bits[dist]?, g.dist_base[dist]? with
    | some bits, some base => do
      let (offs, d) ← readBits d bits base
      copyMatch d offs length
    | _, _ => .error .array
  | _, _ => .error .array

theorem putByte_eq_ok {d d' : Data} {b : UInt8} :
    putByte d b = .ok d' ↔ d.dest.length < d.room ∧ d' = { d with dest := d.dest ++ [b] } := by
  by_cases hroom : d.dest.length < d.room
  · simp [putByte, hroom, eq_comm]
  · simp [putByte, hroom]

theorem putByte_avail {d d' : Data} {b : UInt8} (h : putByte d b = .ok d') : d'.avail = d.avail := by
  obtain ⟨_, rfl⟩ := putByte_eq_ok.mp h
  rfl

theorem copyMatch_avail {d d' : Data} {offs length : ℕ} (h : copyMatch d offs length = .ok d') :
    d'.avail = d.avail := by
  induction length generalizing d with
  | zero =>
    simp only [copyMatch, Except.ok.injEq] at h
    exact h ▸ rfl
  | succ length ih =>
    rw [copyMatch] at h
    by_cases hoffs : offs ≤ d.dest.length
    · rw [if_pos hoffs] at h
      cases hb : d.dest[d.dest.length - offs]? with
      | none => simp [hb] at h
      | some b =>
        simp only [hb] at h
        obtain ⟨e, he, hrest⟩ := Faulting.bind_eq_ok.mp h
        exact (ih hrest).trans (putByte_avail he)
    · rw [if_neg hoffs] at h
      cases h

theorem inflateMatch_avail {g : Tables} {dt : Tree} {d d' : Data} {sym : ℕ}
    (h : inflateMatch g dt d sym = .ok d') : d'.avail ≤ d.avail := by
  unfold inflateMatch at h
  split at h
  · obtain ⟨⟨length, d₁⟩, h₁, h⟩ := Faulting.bind_eq_ok.mp h
    obtain ⟨⟨dist, d₂⟩, h₂, h⟩ := Faulting.bind_eq_ok.mp h
    simp only at h
    split at h
    · obtain ⟨⟨offs, d₃⟩, h₃, h⟩ := Faulting.bind_eq_ok.mp h
      have hcopy : d'.avail = d₃.avail := copyMatch_avail h
      have hle₁ := readBits_avail h₁
      have hlt₂ := decodeSymbol_avail h₂
      have hle₃ := readBits_avail h₃
      omega
    · cases h
  · cases h

/-- The symbols of a block up to its end. -/
def blockLoop (g : Tables) (lt dt : Tree) (d : Data) : Except Fault Data :=
  match hsym : decodeSymbol d lt with
  | .error e => .error e
  | .ok (sym, d₁) =>
    if sym = 256 then .ok d₁
    else if sym < 256 then
      match hput : putByte d₁ (UInt8.ofNat sym) with
      | .error e => .error e
      | .ok d₂ => blockLoop g lt dt d₂
    else
      match hmatch : inflateMatch g dt d₁ (sym - 257) with
      | .error e => .error e
      | .ok d₂ => blockLoop g lt dt d₂
termination_by d.avail
decreasing_by
  · exact (putByte_avail hput).le.trans_lt (decodeSymbol_avail hsym)
  · exact (inflateMatch_avail hmatch).trans_lt (decodeSymbol_avail hsym)

def inflateBlockData (g : Tables) (d : Data) (lt dt : Tree) : Except Fault (Status × Data) := do
  let start := d.dest.length
  let d ← blockLoop g lt dt d
  .ok (.ok, { d with destLen := (d.destLen + (d.dest.length - start)) % 2 ^ 32 })

def copyBytes (d : Data) : ℕ → Except Fault Data
  | 0 => .ok d
  | length + 1 =>
    match d.source with
    | [] => .error .source
    | b :: source => do
      let d ← putByte { d with source := source } b
      copyBytes d length

/-- The length is stored twice, the second time as its complement. -/
def inflateUncompressedBlock (d : Data) : Except Fault (Status × Data) :=
  match d.source with
  | b₀ :: b₁ :: b₂ :: b₃ :: source => do
    let length := 256 * b₁.toNat + b₀.toNat
    let invlength := 256 * b₃.toNat + b₂.toNat
    if length ≠ 0xFFFF - invlength then .ok (.dataError, d)
    else
      let d ← copyBytes { d with source := source } length
      .ok (.ok, { d with bitcount := 0, destLen := (d.destLen + length) % 2 ^ 32 })
  | _ => .error .source

def inflateFixedBlock (g : Tables) (d : Data) : Except Fault (Status × Data) :=
  inflateBlockData g d g.sltree g.sdtree

/-- `code_tree` is the uninitialised local of the function. -/
def inflateDynamicBlock (g : Tables) (code_tree : Tree) (d : Data) : Except Fault (Status × Data) := do
  let (lt, dt, d) ← decodeTrees d d.ltree d.dtree code_tree
  inflateBlockData g { d with ltree := lt, dtree := dt } lt dt

def inflateBlock (g : Tables) (code_tree : Tree) (d : Data) (btype : ℕ) :
    Except Fault (Status × Data) :=
  match btype with
  | 0 => inflateUncompressedBlock d
  | 1 => inflateFixedBlock g d
  | 2 => inflateDynamicBlock g code_tree d
  | _ => .ok (.dataError, d)

theorem copyBytes_avail {d d' : Data} {length : ℕ} (h : copyBytes d length = .ok d') :
    d'.avail ≤ d.avail := by
  induction length generalizing d with
  | zero =>
    simp only [copyBytes, Except.ok.injEq] at h
    exact h ▸ le_rfl
  | succ length ih =>
    cases hs : d.source with
    | nil => simp [copyBytes, hs] at h
    | cons b source =>
      simp only [copyBytes, hs] at h
      obtain ⟨e, he, hrest⟩ := Faulting.bind_eq_ok.mp h
      have hput := putByte_avail he
      have hle := ih hrest
      simp only [Data.avail, hs, List.length_cons] at hput hle ⊢
      omega

/-- One round of the loop. -/
theorem blockLoop_eq (g : Tables) (lt dt : Tree) (d : Data) : blockLoop g lt dt d = (do
    let (sym, d) ← decodeSymbol d lt
    if sym = 256 then .ok d
    else if sym < 256 then putByte d (UInt8.ofNat sym) >>= blockLoop g lt dt
    else inflateMatch g dt d (sym - 257) >>= blockLoop g lt dt) := by
  rw [blockLoop]
  cases hsym : decodeSymbol d lt with
  | error e => rfl
  | ok p =>
    obtain ⟨sym, d₁⟩ := p
    by_cases hend : sym = 256
    · simp [hend]
    · by_cases hlit : sym < 256
      · simp only [hend, hlit, if_false, if_true, Faulting.ok_bind]
        cases putByte d₁ (UInt8.ofNat sym) <;> rfl
      · simp only [hend, hlit, if_false, Faulting.ok_bind]
        cases inflateMatch g dt d₁ (sym - 257) <;> rfl

theorem blockLoop_avail {g : Tables} {lt dt : Tree} {d d' : Data}
    (h : blockLoop g lt dt d = .ok d') : d'.avail ≤ d.avail := by
  induction hn : d.avail using Nat.strong_induction_on generalizing d with
  | _ n ih =>
    rw [blockLoop_eq] at h
    obtain ⟨⟨sym, d₁⟩, hsym, h⟩ := Faulting.bind_eq_ok.mp h
    have hlt := decodeSymbol_avail hsym
    simp only at h
    by_cases hend : sym = 256
    · simp only [hend, if_true, Except.ok.injEq] at h
      exact h ▸ hn ▸ hlt.le
    · by_cases hlit : sym < 256
      · simp only [hend, hlit, if_false, if_true] at h
        obtain ⟨d₂, hput, h⟩ := Faulting.bind_eq_ok.mp h
        have heq := putByte_avail hput
        have hle := ih d₂.avail (by omega) h rfl
        omega
      · simp only [hend, hlit, if_false] at h
        obtain ⟨d₂, hmatch, h⟩ := Faulting.bind_eq_ok.mp h
        have hle := inflateMatch_avail hmatch
        have hle' := ih d₂.avail (by omega) h rfl
        omega

theorem inflateBlockData_avail {g : Tables} {lt dt : Tree} {d d' : Data} {st : Status}
    (h : inflateBlockData g d lt dt = .ok (st, d')) : d'.avail ≤ d.avail := by
  obtain ⟨e, he, h⟩ := Faulting.bind_eq_ok.mp h
  have hle : e.avail ≤ d.avail := blockLoop_avail he
  simp only [Except.ok.injEq, Prod.mk.injEq] at h
  rw [← h.2]
  exact hle

theorem decodeLengths_eq (t : Tree) (total : ℕ) (lengths : List ℕ) (d : Data) :
    decodeLengths t total lengths d = if total ≤ lengths.length then .ok (lengths, d) else (do
      let (sym, d) ← decodeSymbol d t
      let (lengths, d) ← runLengths d lengths sym
      decodeLengths t total lengths d) := by
  rw [decodeLengths]
  by_cases hdone : total ≤ lengths.length
  · rw [if_pos hdone, if_pos hdone]
  · rw [if_neg hdone, if_neg hdone]
    cases hsym : decodeSymbol d t with
    | error e => rfl
    | ok p =>
      simp only [Faulting.ok_bind]
      cases runLengths p.2 lengths p.1 <;> rfl

theorem decodeLengths_avail {t : Tree} {total : ℕ} {lengths lengths' : List ℕ} {d d' : Data}
    (h : decodeLengths t total lengths d = .ok (lengths', d')) : d'.avail ≤ d.avail := by
  induction hn : d.avail using Nat.strong_induction_on generalizing d lengths with
  | _ n ih =>
    rw [decodeLengths_eq] at h
    by_cases hdone : total ≤ lengths.length
    · rw [if_pos hdone] at h
      simp only [Except.ok.injEq, Prod.mk.injEq] at h
      exact h.2 ▸ hn.le
    · rw [if_neg hdone] at h
      obtain ⟨⟨sym, d₁⟩, hsym, h⟩ := Faulting.bind_eq_ok.mp h
      obtain ⟨⟨ls, d₂⟩, hrun, h⟩ := Faulting.bind_eq_ok.mp h
      have hlt := decodeSymbol_avail hsym
      have hle := runLengths_avail hrun
      have hle' := ih d₂.avail (by omega) h rfl
      omega

theorem readCodeLengths_avail {idx lengths lengths' : List ℕ} {d d' : Data}
    (h : readCodeLengths lengths idx d = .ok (lengths', d')) : d'.avail ≤ d.avail := by
  induction idx generalizing lengths d with
  | nil =>
    simp only [readCodeLengths, Except.ok.injEq, Prod.mk.injEq] at h
    exact h.2 ▸ le_rfl
  | cons i idx ih =>
    obtain ⟨⟨clen, d₁⟩, hclen, h⟩ := Faulting.bind_eq_ok.mp h
    exact (ih h).trans (readBits_avail hclen)

theorem inflateBlock_avail {g : Tables} {code_tree : Tree} {btype : ℕ} {d d' : Data} {st : Status}
    (h : inflateBlock g code_tree d btype = .ok (st, d')) : d'.avail ≤ d.avail := by
  unfold inflateBlock at h
  split at h
  · unfold inflateUncompressedBlock at h
    split at h
    · rename_i b₀ b₁ b₂ b₃ source hsource
      simp only at h
      split at h
      · simp only [Except.ok.injEq, Prod.mk.injEq] at h
        exact h.2 ▸ le_rfl
      · obtain ⟨e, he, h⟩ := Faulting.bind_eq_ok.mp h
        have hle := copyBytes_avail he
        simp only [Except.ok.injEq, Prod.mk.injEq] at h
        rw [← h.2]
        simp only [Data.avail, hsource, List.length_cons] at hle ⊢
        omega
    · cases h
  · exact inflateBlockData_avail h
  · obtain ⟨⟨lt, dt, e⟩, htrees, h⟩ := Faulting.bind_eq_ok.mp h
    have hle : e.avail ≤ d.avail := by
      simp only [decodeTrees, Faulting.bind_eq_ok] at htrees
      obtain ⟨⟨hlit, d₁⟩, h₁, ⟨hdist, d₂⟩, h₂, ⟨hclen, d₃⟩, h₃, ⟨ls, d₄⟩, h₄, ct, _, ⟨ls', d₅⟩, h₅,
        lt', _, dt', _, hlast⟩ := htrees
      simp only [Except.ok.injEq, Prod.mk.injEq] at hlast
      have hle₁ : d₁.avail ≤ d.avail := readBits_avail h₁
      have hle₂ : d₂.avail ≤ d₁.avail := readBits_avail h₂
      have hle₃ : d₃.avail ≤ d₂.avail := readBits_avail h₃
      have hle₄ : d₄.avail ≤ d₃.avail := readCodeLengths_avail h₄
      have hle₅ : d₅.avail ≤ d₄.avail := decodeLengths_avail h₅
      obtain rfl : d₅ = e := hlast.2.2
      omega
    exact (inflateBlockData_avail h).trans hle
  · simp only [Except.ok.injEq, Prod.mk.injEq] at h
    exact h.2 ▸ le_rfl

/-- The blocks up to the final one, or up to an error. -/
def uncompressLoop (g : Tables) (code_tree : Tree) (d : Data) : Except Fault (Status × Data) :=
  match hfinal : getbit d with
  | .error e => .error e
  | .ok (bfinal, d₁) =>
    match htype : readBits d₁ 2 0 with
    | .error e => .error e
    | .ok (btype, d₂) =>
      match hblock : inflateBlock g code_tree d₂ btype with
      | .error e => .error e
      | .ok (.dataError, d₃) => .ok (.dataError, d₃)
      | .ok (.ok, d₃) => if bfinal ≠ 0 then .ok (.ok, d₃) else uncompressLoop g code_tree d₃
termination_by d.avail
decreasing_by
  exact ((inflateBlock_avail hblock).trans (readBits_avail htype)).trans_lt (getbit_avail hfinal)

/-- `tinf_uncompress`. The local `d` and the trees in it are uninitialised at first: `junk` and
`code_tree` are what the stack holds. -/
def uncompress (g : Tables) (code_tree : Tree) (junk : Data) (room : ℕ) (source : List UInt8) :
    Except Fault (Status × Data) :=
  uncompressLoop g code_tree
    { junk with source := source, bitcount := 0, room := room, dest := [], destLen := 0 }

/-! ### The checksum and the container -/

def A32_BASE : ℕ := 65521

def A32_NMAX : ℕ := 5552

/-- `s1 += b; s2 += s1;` in 32 bits -/
def addByte (s : ℕ × ℕ) (b : UInt8) : ℕ × ℕ :=
  let s1 := (s.1 + b.toNat) % 2 ^ 32
  (s1, (s.2 + s1) % 2 ^ 32)

/-- Sixteen bytes at a time, `i` times. -/
def addRows (s : ℕ × ℕ) (buf : List UInt8) : ℕ → (ℕ × ℕ) × List UInt8
  | 0 => (s, buf)
  | i + 1 => addRows ((buf.take 16).foldl addByte s) (buf.drop 16) i

def adlerLoop (s : ℕ × ℕ) (buf : List UInt8) : ℕ × ℕ :=
  if buf = [] then s
  else
    let k := min buf.length A32_NMAX
    let (s, rest) := addRows s buf (k / 16)
    let s := (rest.take (k % 16)).foldl addByte s
    adlerLoop (s.1 % A32_BASE, s.2 % A32_BASE) (buf.drop k)
termination_by buf.length
decreasing_by
  have hpos := List.length_pos_iff.mpr ‹_›
  simp [A32_NMAX]
  omega

def adler32 (data : List UInt8) : ℕ :=
  let (s1, s2) := adlerLoop (1, 0) data
  (s2 <<< 16) % 2 ^ 32 ||| s1

/-- `tinf_zlib_uncompress`: two header bytes, the stream, and the checksum in the last four bytes. -/
def zlibUncompress (g : Tables) (code_tree : Tree) (junk : Data) (room : ℕ) (src : List UInt8) :
    Except Fault (Status × Data) :=
  match src with
  | cmf :: flg :: rest =>
    if (256 * cmf.toNat + flg.toNat) % 31 ≠ 0 then .ok (.dataError, junk)
    else if cmf.toNat &&& 0x0f ≠ 8 then .ok (.dataError, junk)
    else if 7 < cmf.toNat >>> 4 then .ok (.dataError, junk)
    else if flg.toNat &&& 0x20 ≠ 0 then .ok (.dataError, junk)
    else
      match src.drop (src.length - 4) with
      | [a₀, a₁, a₂, a₃] => do
        let a32 := 256 * (256 * (256 * a₀.toNat + a₁.toNat) + a₂.toNat) + a₃.toNat
        let (res, d) ← uncompress g code_tree junk room rest
        if res ≠ .ok then .ok (.dataError, d)
        else if a32 ≠ adler32 (d.dest.take d.destLen) then .ok (.dataError, d)
        else .ok (.ok, d)
      | _ => .error .source
  | _ => .error .source

end RgcFifa.TInf
