import RgcFifa.Serialize

/-! The three sizes of a value: what `Size` computes, what `Serialize` returns, and how many
bytes `Serialize` appends. -/

namespace RgcFifa

open ByteWords

structure Agree (size : UInt32) (r : Serialized) : Prop where
  size_eq : size = r.ret
  ret_eq : r.ret.toNat = r.bytes.length

mutual

/-- The three sizes of the value agree, and those of each of its parts. -/
def Ty.Agrees : (t : Ty) → t.Val → Prop
  | .scalar k, v => Agree (Ty.Size (.scalar k) v) (Ty.Serialize (.scalar k) v)
  | .array e n, v => Agree (Ty.Size (.array e n) v) (Ty.Serialize (.array e n) v)
  | .string, v => Agree (Ty.Size .string v) (Ty.Serialize .string v)
  | .vector t, (v : List t.Val) =>
      Agree (Ty.Size (.vector t) v) (Ty.Serialize (.vector t) v) ∧ ∀ x ∈ v, t.Agrees x
  | .struct ms, v => Agree (ms.Size v 0) (ms.Serialize v 0) ∧ ms.Agrees v

def Members.Agrees : (ms : Members) → ms.Val → Prop
  | .nil, _ => True
  | .cons t ms, (v, vs) => t.Agrees v ∧ ms.Agrees vs

end

mutual

/-- The length of a value, with the lengths of strings as far as their 16 bits go. -/
def Ty.wireLength : (t : Ty) → t.Val → ℕ
  | .scalar k, _ => k.sizeof
  | .array e n, _ => e * n
  | .string, (s : List UInt8) => s.length % 65536 + 2
  | .vector t, (v : List t.Val) => 2 + (v.map t.wireLength).sum
  | .struct ms, v => ms.wireLength v

def Members.wireLength : (ms : Members) → ms.Val → ℕ
  | .nil, _ => 0
  | .cons t ms, (v, vs) => t.wireLength v + ms.wireLength vs

end

mutual

/-- No string has 65536 bytes or more, no vector comes to 65536 bytes, and nothing to `2 ^ 32`.
(A string whose length is a multiple of `2 ^ 32` goes for an empty one in all three ways.) -/
def Ty.Fits : (t : Ty) → t.Val → Prop
  | .scalar _, _ => True
  | .array e n, _ => e * n < 2 ^ 32
  | .string, (s : List UInt8) => s.length < 65536 ∨ s.length % 2 ^ 32 = 0
  | .vector t, (v : List t.Val) =>
      2 + (v.map t.wireLength).sum < 65536 ∧ ∀ x ∈ v, t.Fits x
  | .struct ms, v => ms.wireLength v < 2 ^ 32 ∧ ms.Fits v

def Members.Fits : (ms : Members) → ms.Val → Prop
  | .nil, _ => True
  | .cons t ms, (v, vs) => t.Fits v ∧ ms.Fits vs

end

theorem agree_iff {size : UInt32} {r : Serialized} :
    Agree size r ↔ size.toNat = r.ret.toNat ∧ r.ret.toNat = r.bytes.length :=
  ⟨fun h => ⟨congrArg UInt32.toNat h.size_eq, h.ret_eq⟩, fun h => ⟨UInt32.toNat_inj.mp h.1, h.2⟩⟩

theorem ret_string (s : List UInt8) :
    (Ty.Serialize .string s).ret.toNat = s.length % 65536 + 2 := by
  have hl : (UInt16.ofNat s.length).toNat = s.length % 65536 := UInt16.toNat_ofNat'
  have hmod := Nat.mod_lt s.length (by norm_num : 0 < 65536)
  simp only [Ty.Serialize, hl]
  rw [UInt32.toNat_ofNat', Nat.mod_eq_of_lt (by omega)]

theorem length_string (s : List UInt8) : (Ty.Serialize .string s).bytes.length =
    2 + if 0 < s.length % 65536 then s.length else 0 := by
  have hl : (UInt16.ofNat s.length).toNat = s.length % 65536 := UInt16.toNat_ofNat'
  have hpos : UInt16.ofNat s.length > 0 ↔ 0 < s.length % 65536 := by
    rw [gt_iff_lt, UInt16.lt_iff_toNat_lt, hl]
    rfl
  simp only [Ty.Serialize, List.length_append, length_le, hpos, apply_ite List.length,
    List.length_nil]

theorem agrees_string (s : List UInt8) :
    Agree (Ty.Size .string s) (Ty.Serialize .string s) ↔
      s.length < 65536 ∨ s.length % 2 ^ 32 = 0 := by
  have hsize : (Ty.Size .string s).toNat = (s.length + 2) % 2 ^ 32 := UInt32.toNat_ofNat'
  rw [agree_iff, hsize, ret_string, length_string]
  by_cases hzero : 0 < s.length % 65536
  · rw [if_pos hzero]
    omega
  · rw [if_neg hzero]
    omega

structure Counts (n : ℕ) (size : UInt32) (r : Serialized) : Prop where
  size_eq : size.toNat = n
  ret_eq : r.ret.toNat = n
  length_eq : r.bytes.length = n

theorem Counts.agree {n : ℕ} {size : UInt32} {r : Serialized} (h : Counts n size r) :
    Agree size r :=
  ⟨UInt32.toNat_inj.mp (h.size_eq.trans h.ret_eq.symm), h.ret_eq.trans h.length_eq.symm⟩

theorem Agree.counts {n : ℕ} {size : UInt32} {r : Serialized} (h : Agree size r)
    (hn : r.bytes.length = n) : Counts n size r :=
  ⟨(congrArg UInt32.toNat h.size_eq).trans (h.ret_eq.trans hn), h.ret_eq.trans hn, hn⟩

section

variable {total bound : ℕ} {size : UInt32} {r : Serialized}

/-- `Size` has 32 bits, and what `Serialize` returns has no more. -/
theorem counts_of_lt (hsize : size.toNat = total % 2 ^ 32) (hret : r.ret.toNat = total % bound)
    (hlen : r.bytes.length = total) (hbound : bound ≤ 2 ^ 32) (h : total < bound) :
    Counts total size r :=
  ⟨hsize.trans (Nat.mod_eq_of_lt (by omega)), hret.trans (Nat.mod_eq_of_lt h), hlen⟩

theorem agree_iff_lt (hsize : size.toNat = total % 2 ^ 32) (hret : r.ret.toNat = total % bound)
    (hlen : r.bytes.length = total) (hpos : 0 < bound) (hbound : bound ≤ 2 ^ 32) :
    Agree size r ↔ total < bound := by
  refine ⟨fun h => ?_, fun h => (counts_of_lt hsize hret hlen hbound h).agree⟩
  rw [← hlen, ← h.ret_eq, hret]
  exact Nat.mod_lt _ hpos

end

section

variable {α : Type} {f : α → Serialized} {g : α → UInt32} {w : α → ℕ} {xs : List α}

/-- The sizes of the elements are added up with 32 bits by `Size`, and with 16 by `Serialize`. -/
theorem size_elems (h : ∀ x ∈ xs, Counts (w x) (g x) (f x)) (size : UInt32) :
    (xs.foldl (fun size x => size + g x) size).toNat = (size.toNat + (xs.map w).sum) % 2 ^ 32 := by
  induction xs generalizing size with
  | nil => simp
  | cons x xs ih =>
    obtain ⟨hx, hxs⟩ := List.forall_mem_cons.mp h
    rw [List.foldl_cons, ih hxs, UInt32.toNat_add, hx.size_eq, List.map_cons, List.sum_cons]
    omega

theorem serialize_elems (h : ∀ x ∈ xs, Counts (w x) (g x) (f x)) (l : UInt16) :
    (serializeElems f xs l).1.toNat = (l.toNat + (xs.map w).sum) % 65536 ∧
      (serializeElems f xs l).2.length = (xs.map w).sum := by
  induction xs generalizing l with
  | nil => simp [serializeElems]
  | cons x xs ih =>
    obtain ⟨hx, hxs⟩ := List.forall_mem_cons.mp h
    obtain ⟨hret, hlen⟩ := ih hxs (l.toUInt32 + (f x).ret).toUInt16
    rw [serializeElems, List.map_cons, List.sum_cons]
    refine ⟨?_, by simp only [List.length_append, hx.length_eq, hlen]⟩
    have hl := l.toNat_lt
    simp only [hret, UInt32.toNat_toUInt16, UInt32.toNat_add, UInt16.toNat_toUInt32, hx.ret_eq]
    omega

end

theorem counts_string {s : List UInt8} (h : s.length < 65536 ∨ s.length % 2 ^ 32 = 0) :
    Counts (s.length % 65536 + 2) (Ty.Size .string s) (Ty.Serialize .string s) := by
  have hagree := (agrees_string s).mpr h
  exact hagree.counts (hagree.ret_eq.symm.trans (ret_string s))

theorem counts_ofNat {n : ℕ} {bytes : List UInt8} (hn : n < 2 ^ 32) (hlen : bytes.length = n) :
    Counts n (UInt32.ofNat n) ⟨UInt32.ofNat n, bytes⟩ := by
  have hret : (UInt32.ofNat n).toNat = n := by rw [UInt32.toNat_ofNat', Nat.mod_eq_of_lt hn]
  exact ⟨hret, hret, hlen⟩

theorem lengths_vector {t : Ty} {v : List t.Val}
    (h : ∀ x ∈ v, Counts (t.wireLength x) (t.Size x) (t.Serialize x)) :
    (Ty.Size (.vector t) v).toNat = (2 + (v.map t.wireLength).sum) % 2 ^ 32 ∧
      (Ty.Serialize (.vector t) v).ret.toNat = (2 + (v.map t.wireLength).sum) % 65536 ∧
      (Ty.Serialize (.vector t) v).bytes.length = 2 + (v.map t.wireLength).sum := by
  have hsize := size_elems h 2
  obtain ⟨hret, hlen⟩ := serialize_elems h 2
  rw [Ty.Size, Ty.Serialize]
  refine ⟨hsize, ?_, ?_⟩
  · rw [UInt16.toNat_toUInt32]
    exact hret
  · simp only [List.length_append, length_le, hlen]

mutual

theorem Ty.counts : (t : Ty) → (v : t.Val) → t.Fits v →
    Counts (t.wireLength v) (t.Size v) (t.Serialize v)
  | .scalar k, v, _ => by
    have hk := k.sizeof_le
    exact counts_ofNat (by omega : k.sizeof < 2 ^ 32) (length_le _ _)
  | .array e n, v, h => by
    rw [Ty.Fits] at h
    rw [Ty.wireLength, Ty.Size, Ty.Serialize]
    exact counts_ofNat h v.2
  | .string, s, h => counts_string h
  | .vector t, (v : List t.Val), h => by
    rw [Ty.Fits] at h
    obtain ⟨hsize, hret, hlen⟩ := lengths_vector fun x hx => t.counts x (h.2 x hx)
    rw [Ty.wireLength]
    exact counts_of_lt hsize hret hlen (by norm_num) h.1
  | .struct ms, v, h => by
    rw [Ty.Fits] at h
    obtain ⟨hsize, hret, hlen⟩ := ms.counts v h.2 0
    rw [UInt32.toNat_zero, Nat.zero_add] at hsize hret
    rw [Ty.wireLength, Ty.Size, Ty.Serialize]
    exact counts_of_lt hsize hret hlen le_rfl h.1

theorem Members.counts : (ms : Members) → (v : ms.Val) → ms.Fits v → (len : UInt32) →
    (ms.Size v len).toNat = (len.toNat + ms.wireLength v) % 2 ^ 32 ∧
      (ms.Serialize v len).ret.toNat = (len.toNat + ms.wireLength v) % 2 ^ 32 ∧
      (ms.Serialize v len).bytes.length = ms.wireLength v
  | .nil, _, _, len => by
    have hlt := len.toNat_lt
    simp only [Members.Size, Members.Serialize, Members.wireLength, List.length_nil, and_true]
    omega
  | .cons t ms, (v, vs), h, len => by
    rw [Members.Fits] at h
    have hv := t.counts v h.1
    have hvs := ms.counts vs h.2
    rw [Members.Size, Members.Serialize, Members.wireLength]
    refine ⟨?_, ?_, ?_⟩
    · rw [(hvs _).1, UInt32.toNat_add, hv.size_eq]
      omega
    · simp only [(hvs _).2.1, UInt32.toNat_add, hv.ret_eq]
      omega
    · simp only [List.length_append, (hvs _).2.2, hv.length_eq]

end

mutual

theorem Ty.agrees_iff : (t : Ty) → (v : t.Val) → (t.Agrees v ↔ t.Fits v)
  | .scalar k, v => iff_of_true (Ty.counts (.scalar k) v trivial).agree trivial
  | .array e n, v => by
    refine ⟨fun h => ?_, fun h => (Ty.counts (.array e n) v h).agree⟩
    have hret : (UInt32.ofNat (e * n)).toNat = v.1.length := h.ret_eq
    have hlt := (UInt32.ofNat (e * n)).toNat_lt
    rw [Ty.Fits, ← v.2, ← hret]
    exact hlt
  | .string, s => agrees_string s
  | .vector t, (v : List t.Val) => by
    rw [Ty.Agrees, Ty.Fits]
    have hall : (∀ x ∈ v, t.Agrees x) ↔ ∀ x ∈ v, t.Fits x :=
      forall₂_congr fun x _ => t.agrees_iff x
    rw [hall]
    refine and_congr_left fun hfits => ?_
    obtain ⟨hsize, hret, hlen⟩ := lengths_vector fun x hx => t.counts x (hfits x hx)
    exact agree_iff_lt hsize hret hlen (by norm_num) (by norm_num)
  | .struct ms, v => by
    rw [Ty.Agrees, Ty.Fits, ms.agrees_iff v]
    refine and_congr_left fun hfits => ?_
    obtain ⟨hsize, hret, hlen⟩ := ms.counts v hfits 0
    rw [UInt32.toNat_zero, Nat.zero_add] at hsize hret
    exact agree_iff_lt hsize hret hlen (by norm_num) le_rfl

theorem Members.agrees_iff : (ms : Members) → (v : ms.Val) → (ms.Agrees v ↔ ms.Fits v)
  | .nil, _ => iff_of_true trivial trivial
  | .cons t ms, (v, vs) => and_congr (t.agrees_iff v) (ms.agrees_iff vs)

end

/-- The length of the members behind the first `n`. -/
def Members.wireLengthAfter : ℕ → (ms : Members) → ms.Val → ℕ
  | 0, ms, v => ms.wireLength v
  | _ + 1, .nil, _ => 0
  | n + 1, .cons _ ms, (_, vs) => ms.wireLengthAfter n vs

def Message.Agrees (msg : Message) (v : msg.Val) : Prop :=
  Agree (msg.Size v) (msg.Serialize v) ∧ msg.members.Agrees v

/-- Besides the sizes, nothing is in the member that the `Size` of `MSG_SllN_12` leaves out. -/
def Message.Fits (msg : Message) (v : msg.Val) : Prop :=
  (msg.members.wireLength v < 2 ^ 32 ∧
    (msg.members.length = 12 → msg.members.wireLengthAfter 11 v = 0)) ∧ msg.members.Fits v

theorem Members.wireLengthAfter_length : (ms : Members) → (v : ms.Val) →
    ms.wireLengthAfter ms.length v = 0
  | .nil, _ => rfl
  | .cons _ ms, (_, vs) => ms.wireLengthAfter_length vs

theorem Members.toNat_sizeOfFirst : (n : ℕ) → (ms : Members) → (v : ms.Val) → ms.Fits v →
    (len : UInt32) → ms.wireLengthAfter n v ≤ ms.wireLength v ∧
      (ms.sizeOfFirst n v len).toNat =
        (len.toNat + (ms.wireLength v - ms.wireLengthAfter n v)) % 2 ^ 32
  | 0, ms, v, _, len => by
    have hlt := len.toNat_lt
    simp only [wireLengthAfter, sizeOfFirst, le_refl, true_and]
    omega
  | _ + 1, .nil, _, _, len => by
    have hlt := len.toNat_lt
    simp only [wireLengthAfter, sizeOfFirst, wireLength, le_refl, true_and]
    omega
  | n + 1, .cons t ms, (v, vs), h, len => by
    have hv := (t.counts v h.1).size_eq
    obtain ⟨hle, hsize⟩ := ms.toNat_sizeOfFirst n vs h.2 (len + t.Size v)
    simp only [wireLengthAfter, sizeOfFirst, wireLength, hsize, UInt32.toNat_add, hv]
    omega

theorem Message.agrees_iff (msg : Message) (v : msg.Val) : msg.Agrees v ↔ msg.Fits v := by
  rw [Message.Agrees, Message.Fits, msg.members.agrees_iff v]
  refine and_congr_left fun hfits => ?_
  obtain ⟨-, hret, hlen⟩ := msg.members.counts v hfits 0
  obtain ⟨hle, hsize⟩ := msg.members.toNat_sizeOfFirst
    (if msg.members.length = 12 then 11 else msg.members.length) v hfits 0
  have hmsg : (msg.Size v).toNat = _ := hsize
  have hserial : (msg.Serialize v).ret.toNat = _ := hret
  have hbytes : (msg.Serialize v).bytes.length = _ := hlen
  rw [agree_iff, hmsg, hserial, hbytes, UInt32.toNat_zero]
  by_cases hlast : msg.members.length = 12
  · simp only [if_pos hlast] at hle ⊢
    omega
  · have hnone := msg.members.wireLengthAfter_length v
    simp only [if_neg hlast, hnone]
    omega

/-- The three sizes of a value and of its parts agree exactly when no string and no vector in
it is too long for its 16 bits, nothing comes to `2 ^ 32` bytes, and a twelfth member of a
message is empty. -/
theorem serialized_sizes_iff (t : Ty) (v : t.Val) (msg : Message) (w : msg.Val) :
    (t.Agrees v ↔ t.Fits v) ∧ (msg.Agrees w ↔ msg.Fits w) :=
  ⟨t.agrees_iff v, msg.agrees_iff w⟩

def byteMembers : ℕ → Members
  | 0 => .nil
  | n + 1 => .cons (.scalar .UInt8) (byteMembers n)

def zeroBytes : (n : ℕ) → (byteMembers n).Val
  | 0 => ()
  | n + 1 => (0#8, zeroBytes n)

theorem lengths_singleton {t : Ty} {x : t.Val} (h : t.Fits x) {n : ℕ} (hn : t.wireLength x = n) :
    (Ty.Size (.vector t) [x]).toNat = (2 + n) % 2 ^ 32 ∧
      (Ty.Serialize (.vector t) [x]).ret.toNat = (2 + n) % 65536 ∧
      (Ty.Serialize (.vector t) [x]).bytes.length = 2 + n := by
  have helems : ∀ y ∈ [x], Counts (t.wireLength y) (t.Size y) (t.Serialize y) := by
    intro y hy
    obtain rfl := List.mem_singleton.mp hy
    exact t.counts y h
  have hv := lengths_vector helems
  rwa [List.map_singleton, List.sum_singleton, hn] at hv

def twelveBytes : Message := ⟨byteMembers 12, by decide⟩

/-- A message of twelve bytes, a string of 65536 bytes, and a vector of one string that
comes to 65537 bytes. -/
theorem serialized_sizes_differ :
    (twelveBytes.Size (zeroBytes 12) = 11 ∧ (twelveBytes.Serialize (zeroBytes 12)).ret = 12 ∧
      (twelveBytes.Serialize (zeroBytes 12)).bytes.length = 12) ∧
    let s : List UInt8 := List.replicate 65536 0
    let v : List (List UInt8) := [List.replicate 65533 0]
    ((Ty.Size .string s).toNat = 65538 ∧ (Ty.Serialize .string s).ret.toNat = 2 ∧
      (Ty.Serialize .string s).bytes.length = 2) ∧
    (Ty.Size (.vector .string) v).toNat = 65537 ∧ (Ty.Serialize (.vector .string) v).ret.toNat = 1 ∧
      (Ty.Serialize (.vector .string) v).bytes.length = 65537 := by
  refine ⟨by decide, ?_⟩
  intro s v
  constructor
  · have hlen : s.length = 65536 := List.length_replicate
    refine ⟨?_, by rw [ret_string, hlen], by rw [length_string, hlen]; rfl⟩
    have hsize : (Ty.Size .string s).toNat = (s.length + 2) % 2 ^ 32 := UInt32.toNat_ofNat'
    rw [hsize, hlen]
    rfl
  · have hlen : (List.replicate 65533 (0 : UInt8)).length = 65533 := List.length_replicate
    have hfits : Ty.Fits .string (List.replicate 65533 (0 : UInt8)) := .inl (by rw [hlen]; decide)
    have hwire : Ty.wireLength .string (List.replicate 65533 (0 : UInt8)) = 65535 := by
      rw [Ty.wireLength, hlen]
    exact lengths_singleton hfits hwire

end RgcFifa
