import RgcFifa.StreamOps

/-! Fields written one after the other, and read back from where they start. -/

namespace RgcFifa

open ByteWords

theorem toNat_lt_pow {k : Scalar} (v : BitVec (8 * k.sizeof)) : v.toNat < 256 ^ k.sizeof := by
  rw [show (256 : ℕ) = 2 ^ 8 from rfl, ← pow_mul]
  exact v.isLt

theorem ofNat_leNat_le_toNat {k : Scalar} (v : BitVec (8 * k.sizeof)) :
    BitVec.ofNat (8 * k.sizeof) (leNat (le k.sizeof v.toNat)) = v := by
  rw [leNat_le_of_lt (toNat_lt_pow v), BitVec.ofNat_toNat, BitVec.setWidth_eq]

/-- The bytes of a field. -/
def Field.encoded (f : Field) : List UInt8 := f.appends.flatten

/-- The object that holds what a field says. -/
def Field.datum : Field → Option Datum
  | scalar k v => some (.scalar k v)
  | string v => some (.string v)
  | chars v => some (.string (v.getD []))
  | vector _ _ => none
  | bytes v => some (.bytes v)

/-- There is an `operator>>` for it. -/
def Field.Readable (f : Field) : Prop := ∃ d, f.datum = some d

/-- The lengths that the prefixes have room for; a C string ends at the first zero. -/
def Field.Valid : Field → Prop
  | string v => v.length < 65536
  | chars (some v) => v.length < 65536 ∧ 0 ∉ v
  | vector _ v => v.length < 2 ^ 32
  | _ => True

/-- The object that a field is read back into. -/
def Datum.Fits : Datum → Field → Prop
  | scalar k _, .scalar k' _ => k = k'
  | string _, .string _ => True
  | string _, .chars _ => True
  | bytes v, .bytes v' => v.length = v'.length
  | _, _ => False

/-- The characters of a field that is read back as a `std::string`. -/
def Field.text : Field → Option (List UInt8)
  | string v => some v
  | chars v => some (v.getD [])
  | _ => none

/-- Both string types are written, and read back, the same. -/
theorem Field.encoded_text {f : Field} {v : List UInt8} (hv : f.Valid) (ht : f.text = some v) :
    v.length < 65536 ∧ f.encoded = le 2 v.length ++ v ∧ f.datum = some (.string v) ∧
      ∀ d : Datum, d.Fits f → ∃ old, d = .string old := by
  have hstring : ∀ d : Datum, d.Fits f → ∃ old, d = .string old := by
    intro d hd
    cases f with
    | string v => cases d <;> first | exact ⟨_, rfl⟩ | exact hd.elim
    | chars v => cases d <;> first | exact ⟨_, rfl⟩ | exact hd.elim
    | _ => cases ht
  cases f with
  | string w =>
    obtain rfl := Option.some.inj ht
    have hlen : (UInt16.ofNat w.length).toNat = w.length := UInt16.toNat_ofNat_of_lt' hv
    exact ⟨hv, by simp [Field.encoded, Field.appends, hlen], rfl, hstring⟩
  | chars w =>
    obtain rfl := Option.some.inj ht
    cases w with
    | none => exact ⟨by decide, rfl, rfl, hstring⟩
    | some w =>
      have hlen : (UInt16.ofNat w.length).toNat = w.length := UInt16.toNat_ofNat_of_lt' hv.1
      exact ⟨hv.1, by simp [Field.encoded, Field.appends, hlen], rfl, hstring⟩
  | _ => cases ht

theorem Field.readable_of_fits {f : Field} {d : Datum} (hd : d.Fits f) : f.Readable := by
  cases f with
  | vector k v => cases d <;> exact hd.elim
  | _ => exact ⟨_, rfl⟩

/-- A field can be read back into an object that holds what it says already. -/
theorem Field.fits_datum {f : Field} {d : Datum} (hd : f.datum = some d) : d.Fits f := by
  cases f with
  | vector k v => cases hd
  | scalar k v =>
    obtain rfl := Option.some.inj hd
    exact rfl
  | bytes v =>
    obtain rfl := Option.some.inj hd
    exact rfl
  | _ =>
    obtain rfl := Option.some.inj hd
    exact trivial

namespace Stream

def putAll (fs : List Field) (st : Stream) : Stream := fs.foldl (fun st f => st.put f) st

def getAll : List (UInt32 × Datum) → Stream → Option (List Datum × Stream)
  | [], st => some ([], st)
  | (junk, d) :: ds, st => (st.get junk d).bind fun (v, st) =>
      (getAll ds st).map fun (vs, st) => (v :: vs, st)

variable {st : Stream} {bs rest : List UInt8} {f : Field} {d : Datum}

theorem appendAll_eq {bss : List (List UInt8)} (h : st.size + bss.flatten.length ≤ maxSize) :
    st.appendAll bss = st.append bss.flatten := by
  induction bss generalizing st with
  | nil => simp [appendAll, append]
  | cons b bss ih =>
    rw [List.flatten_cons, List.length_append] at h
    have hrest : (st.append b).size + bss.flatten.length ≤ maxSize := by
      rw [size_append]
      omega
    rw [appendAll, if_pos (by omega), ih hrest, append_append, List.flatten_cons]

theorem putAll_eq {fs : List Field} (h : st.size + (fs.flatMap Field.encoded).length ≤ maxSize) :
    st.putAll fs = st.append (fs.flatMap Field.encoded) := by
  induction fs generalizing st with
  | nil => simp [putAll, append]
  | cons f fs ih =>
    rw [List.flatMap_cons, List.length_append] at h
    have hput : st.put f = st.append f.encoded := appendAll_eq (by rw [Field.encoded] at h; omega)
    have hrest : (st.append f.encoded).size + (fs.flatMap Field.encoded).length ≤ maxSize := by
      rw [size_append]
      omega
    have hall := ih hrest
    rw [putAll] at hall ⊢
    rw [List.foldl_cons, hput, hall, append_append, List.flatMap_cons]

theorem Ahead.get_string {v : List UInt8} (junk : UInt32) (old : List UInt8)
    (h : Ahead st (le 2 v.length ++ (v ++ rest))) (hv : v.length < 65536)
    (htext : v.length ≤ (v.length + rest.length) % 2 ^ 32) :
    st.get junk (.string old) = some (.string v, st.seek (st.pos + (2 + v.length))) := by
  have hlen : textLength v.length (v ++ rest).length = v.length := by
    rw [textLength, List.length_append]
    omega
  rw [Stream.get, h.getString _ hv, hlen, List.take_left, Option.map_some, Nat.add_assoc]

/-- A field is read back from its bytes, and a string unless it is cut. -/
theorem Ahead.get (junk : UInt32) (hd : d.Fits f) (hv : f.Valid) (h : Ahead st (f.encoded ++ rest))
    (htext : ∀ v, f.text = some v → v.length ≤ (v.length + rest.length) % 2 ^ 32) :
    ∃ d', f.datum = some d' ∧
      st.get junk d = some (d', st.seek (st.pos + f.encoded.length)) := by
  have hstring : ∀ v, f.text = some v → ∃ d', f.datum = some d' ∧
      st.get junk d = some (d', st.seek (st.pos + f.encoded.length)) := by
    intro v ht
    obtain ⟨hlen, henc, hdatum, hold⟩ := f.encoded_text hv ht
    obtain ⟨old, rfl⟩ := hold d hd
    rw [henc, List.append_assoc] at h
    refine ⟨_, hdatum, ?_⟩
    rw [h.get_string junk old hlen (htext v ht), henc, List.length_append, length_le]
  cases f with
  | scalar k v =>
    cases d with
    | scalar k' old =>
      obtain rfl : k' = k := hd
      have henc : (Field.scalar k' v).encoded = le k'.sizeof v.toNat := List.append_nil _
      rw [henc] at h ⊢
      refine ⟨_, rfl, ?_⟩
      rw [Stream.get, h.readInto _ (by simp), Option.map_some]
      dsimp only
      rw [ofNat_leNat_le_toNat]
    | _ => exact hd.elim
  | string v => exact hstring v rfl
  | chars v => exact hstring _ rfl
  | vector k v =>
    obtain ⟨d', hnone⟩ := Field.readable_of_fits hd
    cases hnone
  | bytes v =>
    cases d with
    | bytes old =>
      have henc : (Field.bytes v).encoded = v := List.append_nil _
      rw [henc] at h ⊢
      refine ⟨_, rfl, ?_⟩
      rw [Stream.get, h.readInto old hd, Option.map_some]
    | _ => exact hd.elim

/-- A string that is cut comes back shorter than it was. -/
theorem Ahead.uncut {v : List UInt8} {old : List UInt8} {junk : UInt32} {t : Stream}
    (h : Ahead st (le 2 v.length ++ (v ++ rest))) (hv : v.length < 65536)
    (hget : st.get junk (.string old) = some (.string v, t)) :
    v.length ≤ (v.length + rest.length) % 2 ^ 32 := by
  rw [Stream.get, h.getString _ hv, Option.map_some, Option.some.injEq, Prod.mk.injEq,
    Datum.string.injEq] at hget
  have hlen := congrArg List.length hget.1
  rw [List.length_take, textLength, List.length_append] at hlen
  omega

end Stream

/-- Every string is as long as 32 bits say that the stream is from there on, or shorter. -/
def Uncut : List Field → Prop
  | [] => True
  | f :: fs => (∀ v, f.text = some v →
      v.length ≤ (v.length + (fs.flatMap Field.encoded).length) % 2 ^ 32) ∧ Uncut fs

namespace Stream

variable {st : Stream} {rest : List UInt8} {fs : List Field}

/-- What the fields say comes back, and the cursor stands at the end of the last. -/
def ReadsBack (st : Stream) (slots : List (UInt32 × Datum)) (fs : List Field) : Prop :=
  ∃ ds, fs.map Field.datum = ds.map some ∧ st.getAll slots = some (ds, st.seek st.size)

theorem Ahead.readsBack_iff {slots : List (UInt32 × Datum)} (hv : ∀ f ∈ fs, f.Valid)
    (hd : List.Forall₂ (fun slot f => slot.2.Fits f) slots fs)
    (h : Ahead st (fs.flatMap Field.encoded)) : st.ReadsBack slots fs ↔ Uncut fs := by
  induction hd generalizing st with
  | nil =>
    have hadd := h.pos_add
    refine iff_of_true ⟨[], rfl, ?_⟩ trivial
    rw [List.flatMap_nil, List.length_nil, Nat.add_zero] at hadd
    rw [getAll, ← hadd]
    rfl
  | @cons slot f slots fs hfits _ ih =>
    obtain ⟨junk, d⟩ := slot
    rw [List.flatMap_cons] at h
    have hf := hv f List.mem_cons_self
    have hrest := ih (fun g hg => hv g (List.mem_cons_of_mem _ hg)) h.seek
    by_cases htext : ∀ v, f.text = some v →
        v.length ≤ (v.length + (fs.flatMap Field.encoded).length) % 2 ^ 32
    · obtain ⟨d', hdatum, hget⟩ := h.get junk hfits hf htext
      rw [Uncut, and_iff_right htext, ← hrest]
      constructor
      · rintro ⟨ds, hds, hall⟩
        rw [getAll, hget, Option.bind_some] at hall
        obtain ⟨⟨vs, u⟩, hvs, hpair⟩ := Option.map_eq_some_iff.mp hall
        obtain ⟨rfl, rfl⟩ := Prod.mk.inj hpair
        exact ⟨vs, (List.cons.inj hds).2, hvs⟩
      · rintro ⟨vs, hvs, hall⟩
        refine ⟨d' :: vs, by rw [List.map_cons, List.map_cons, hdatum, hvs], ?_⟩
        rw [getAll, hget, Option.bind_some]
        dsimp only
        rw [hall]
        rfl
    · refine iff_of_false ?_ fun hu => htext hu.1
      rintro ⟨ds, hds, hall⟩
      apply htext
      intro v ht
      obtain ⟨hlen, henc, hdatum, hstring⟩ := f.encoded_text hf ht
      obtain ⟨old, rfl⟩ := hstring d hfits
      rw [getAll] at hall
      obtain ⟨⟨v', t⟩, hget, hall⟩ := Option.bind_eq_some_iff.mp hall
      obtain ⟨⟨vs, u⟩, -, hpair⟩ := Option.map_eq_some_iff.mp hall
      obtain ⟨rfl, -⟩ := Prod.mk.inj hpair
      rw [List.map_cons, List.map_cons, hdatum] at hds
      obtain rfl := Option.some.inj (List.cons.inj hds).1
      rw [henc, List.append_assoc] at h
      exact h.uncut hlen hget

theorem ahead_putAll {st : Stream} {fs : List Field}
    (hsize : st.size + (fs.flatMap Field.encoded).length ≤ maxSize) :
    Ahead ((st.putAll fs).seek st.size) (fs.flatMap Field.encoded) := by
  rw [putAll_eq hsize]
  exact ⟨⟨by simp, by simpa using hsize⟩, List.drop_left⟩

end Stream

theorem exists_fits {fs : List Field} :
    (∃ slots : List (UInt32 × Datum), List.Forall₂ (fun slot f => slot.2.Fits f) slots fs) ↔
      ∀ f ∈ fs, f.Readable := by
  induction fs with
  | nil => exact iff_of_true ⟨[], .nil⟩ (by simp)
  | cons f fs ih =>
    rw [List.forall_mem_cons, ← ih]
    constructor
    · rintro ⟨slots, hd⟩
      cases hd with
      | cons hfits hrest => exact ⟨Field.readable_of_fits hfits, _, hrest⟩
    · rintro ⟨⟨d, hd⟩, slots, hrest⟩
      exact ⟨(0, d) :: slots, .cons (Field.fits_datum hd) hrest⟩

/-- There are objects to read the fields into, and they are read back into any such objects. -/
theorem stream_fields_iff {st : Stream} {fs : List Field} (hv : ∀ f ∈ fs, f.Valid)
    (hsize : st.size + (fs.flatMap Field.encoded).length ≤ maxSize) :
    ((∃ slots : List (UInt32 × Datum), List.Forall₂ (fun slot f => slot.2.Fits f) slots fs) ∧
      ∀ slots : List (UInt32 × Datum), List.Forall₂ (fun slot f => slot.2.Fits f) slots fs →
        ((st.putAll fs).seek st.size).ReadsBack slots fs) ↔
      (∀ f ∈ fs, f.Readable) ∧ Uncut fs := by
  have hahead := Stream.ahead_putAll hsize
  rw [exists_fits]
  apply and_congr_right
  intro hread
  obtain ⟨slots, hd⟩ := exists_fits.mpr hread
  constructor
  · intro hall
    exact (hahead.readsBack_iff hv hd).mp (hall slots hd)
  · intro hcut slots' hd'
    exact (hahead.readsBack_iff hv hd').mpr hcut

/-- Behind one byte, a number, two strings and two bytes. -/
theorem stream_fields_mixed :
    let fs : List Field := [.scalar .UInt32 513#32, .string [7], .chars (some [8, 9]), .bytes [4, 5]]
    let slots : List (UInt32 × Datum) := [(0, .scalar .UInt32 0#32), (0, .string []),
      (0, .string [1]), (0, .bytes [0, 0])]
    let st : Stream := ⟨[6], 0⟩
    ((st.putAll fs).seek 1).ReadsBack slots fs := by
  intro fs slots st
  have hv : ∀ f ∈ fs, f.Valid := by simp [fs, Field.Valid]
  have hd : List.Forall₂ (fun slot f => slot.2.Fits f) slots fs := by
    simp [slots, fs, Datum.Fits]
  have hsize : st.size + (fs.flatMap Field.encoded).length ≤ maxSize := by
    simp [fs, st, Field.encoded, Field.appends, Stream.size, maxSize, Scalar.sizeof]
  refine ((stream_fields_iff hv hsize).mpr ⟨exists_fits.mp ⟨slots, hd⟩, ?_⟩).2 slots hd
  simp [Uncut, fs, Field.text, Field.encoded, Field.appends]

/-- A string of one byte, when `n` bytes follow. -/
theorem not_uncut {n : ℕ} (hn : (1 + n) % 2 ^ 32 = 0) :
    ¬ Uncut [.string [97], .bytes (List.replicate n 0)] := by
  intro h
  have hcut := h.1 [97] rfl
  rw [List.flatMap_singleton, Field.encoded, Field.appends, List.flatten_singleton,
    List.length_replicate, List.length_singleton, hn] at hcut
  omega

theorem stream_fields_cut :
    let fs : List Field := [.string [97], .bytes (List.replicate (2 ^ 32 - 1) 0)]
    let st : Stream := ⟨[], 0⟩
    let slots : List (UInt32 × Datum) :=
      [(0, .string []), (0, .bytes (List.replicate (2 ^ 32 - 1) 0))]
    (∀ f ∈ fs, f.Valid) ∧ List.Forall₂ (fun slot f => slot.2.Fits f) slots fs ∧
      ¬ ((st.putAll fs).seek 0).ReadsBack slots fs := by
  have hall : ∀ n : ℕ, n = 2 ^ 32 - 1 →
      let fs : List Field := [.string [97], .bytes (List.replicate n 0)]
      let st : Stream := ⟨[], 0⟩
      let slots : List (UInt32 × Datum) := [(0, .string []), (0, .bytes (List.replicate n 0))]
      (∀ f ∈ fs, f.Valid) ∧ List.Forall₂ (fun slot f => slot.2.Fits f) slots fs ∧
        ¬ ((st.putAll fs).seek 0).ReadsBack slots fs := by
    intro n hn fs st slots
    have hv : ∀ f ∈ fs, f.Valid := by simp [fs, Field.Valid]
    have hsize : st.size + (fs.flatMap Field.encoded).length ≤ maxSize := by
      simp [fs, st, Field.encoded, Field.appends, Stream.size, maxSize]
      omega
    have hd : List.Forall₂ (fun slot f => slot.2.Fits f) slots fs := by
      simp [slots, fs, Datum.Fits]
    refine ⟨hv, hd, fun h => not_uncut (n := n) (by omega) ?_⟩
    exact ((Stream.ahead_putAll hsize).readsBack_iff hv hd).mp h
  exact hall _ rfl

end RgcFifa
