import RgcFifa.Serialize

/-! What `Serialize` has appended, `Unserialize` reads back. -/

namespace RgcFifa

open ByteWords

mutual

/-- No string has 65536 bytes or more, and no vector more than 1024 elements. -/
def Ty.Small : (t : Ty) → t.Val → Prop
  | .scalar _, _ => True
  | .array _ _, _ => True
  | .string, (s : List UInt8) => s.length < 65536
  | .vector t, (v : List t.Val) => v.length ≤ 1024 ∧ ∀ x ∈ v, t.Small x
  | .struct ms, v => ms.Small v

def Members.Small : (ms : Members) → ms.Val → Prop
  | .nil, _ => True
  | .cons t ms, (v, vs) => t.Small v ∧ ms.Small vs

end

/-- What is left at `len` starts with `bytes`. They do not reach the number that means `-1`. -/
structure Given (m : Memory) (buffer : ℕ) (size len : UInt32) (bytes : List UInt8) : Prop where
  read_eq : m.read (buffer + len.toNat) bytes.length = bytes
  fits : len.toNat + bytes.length ≤ size.toNat
  lt : len.toNat + bytes.length < 2 ^ 32 - 1

structure Restores {α : Type} (n : ℕ) (v : α) (r : Unserialized α) : Prop where
  ret_eq : r.ret.toNat = n
  value_eq : r.value = some v

theorem bytes_string {s : List UInt8} (h : s.length < 65536) :
    (Ty.Serialize .string s).bytes = le 2 s.length ++ s := by
  have hl : (UInt16.ofNat s.length).toNat = s.length := UInt16.toNat_ofNat_of_lt' h
  rw [Ty.Serialize]
  simp only [hl]
  cases s with
  | nil => rfl
  | cons x xs =>
    have hpos : UInt16.ofNat (x :: xs).length > 0 := by
      rw [gt_iff_lt, UInt16.lt_iff_toNat_lt, hl]
      exact Nat.succ_pos _
    rw [if_pos hpos]

section

variable {α β γ : Type} {m : Memory} {buffer : ℕ} {size len : UInt32} {bs vs : List UInt8}

theorem Given.len_le (h : Given m buffer size len bs) : len ≤ size := by
  have hfits := h.fits
  rw [UInt32.le_iff_toNat_le]
  omega

theorem Given.next (h : Given m buffer size len (bs ++ vs)) :
    Given m (buffer + len.toNat) (size - len) 0 bs := by
  obtain ⟨hbs, -⟩ := Memory.read_append.mp h.read_eq
  have hfits := h.fits
  have hlt := h.lt
  have hsub := UInt32.toNat_sub_of_le _ _ h.len_le
  rw [List.length_append] at hfits hlt
  refine ⟨hbs, ?_, ?_⟩
  · rw [UInt32.toNat_zero]
    omega
  · rw [UInt32.toNat_zero]
    omega

theorem Given.rest {ret : UInt32} (h : Given m buffer size len (bs ++ vs))
    (hret : ret.toNat = bs.length) :
    Given m buffer size (len + ret) vs ∧ (len + ret).toNat = len.toNat + bs.length := by
  obtain ⟨-, hvs⟩ := Memory.read_append.mp h.read_eq
  have hfits := h.fits
  have hlt := h.lt
  rw [List.length_append] at hfits hlt
  have hadd : (len + ret).toNat = len.toNat + bs.length := by
    rw [UInt32.toNat_add, hret, Nat.mod_eq_of_lt (by omega)]
  refine ⟨⟨?_, by omega, by omega⟩, hadd⟩
  rw [hadd, ← Nat.add_assoc]
  exact hvs

theorem Restores.ret_ne {n : ℕ} {v : α} {r : Unserialized α} (h : Restores n v r)
    (hn : n < 2 ^ 32 - 1) : r.ret ≠ -1 := by
  intro hret
  have hone : (-1 : UInt32).toNat = 2 ^ 32 - 1 := rfl
  have heq := h.ret_eq
  rw [hret, hone] at heq
  omega

/-- The two bytes in front of a string or a vector. -/
theorem Given.count {n : ℕ} (hn : n < 65536) (h : Given m buffer size 0 (le 2 n ++ bs)) :
    (UInt16.ofNat (leNat (m.read buffer 2))).toNat = n ∧ ¬ size < 2 ∧
      Given m buffer size 2 bs := by
  obtain ⟨hnext, -⟩ := Memory.read_append.mp h.read_eq
  have hread : m.read buffer 2 = le 2 n := hnext
  have htwo : (2 : UInt32).toNat = (le 2 n).length := (length_le 2 n).symm
  obtain ⟨hrest, -⟩ := h.rest htwo
  have hfits := hrest.fits
  rw [toNat_leNat_two, hread, leNat_le_of_lt hn]
  refine ⟨rfl, ?_, hrest⟩
  rw [UInt32.not_lt]
  exact hrest.len_le

theorem elems_restore {f : α → Serialized} {g : ℕ → UInt32 → Unserialized α} {xs : List α}
    (hg : ∀ x ∈ xs, ∀ b s, Given m b s 0 (f x).bytes → Restores (f x).bytes.length x (g b s))
    (l : UInt16) (len : UInt32) (h : Given m buffer size len (serializeElems f xs l).2) :
    Restores (len.toNat + (serializeElems f xs l).2.length) xs
      (unserializeElems g buffer size xs.length len) := by
  induction xs generalizing l len with
  | nil => exact ⟨rfl, rfl⟩
  | cons x xs ih =>
    obtain ⟨hx, hxs⟩ := List.forall_mem_cons.mp hg
    rw [serializeElems] at h ⊢
    have hr := hx _ _ h.next
    obtain ⟨hrest, hadd⟩ := h.rest hr.ret_eq
    have hq := ih hxs _ _ hrest
    have hlt := h.next.lt
    rw [UInt32.toNat_zero, Nat.zero_add] at hlt
    rw [List.length_cons, unserializeElems]
    simp only [if_neg (hr.ret_ne hlt)]
    refine ⟨?_, ?_⟩
    · rw [hq.ret_eq, hadd, List.length_append, Nat.add_assoc]
    · rw [hr.value_eq, hq.value_eq]
      rfl

theorem restores_scalar (k : Scalar) (v : BitVec (8 * k.sizeof))
    (h : Given m buffer size 0 (le k.sizeof v.toNat)) :
    Restores (le k.sizeof v.toNat).length v (Ty.Unserialize (.scalar k) m buffer size) := by
  obtain ⟨hread, hfits, -⟩ := h
  rw [UInt32.toNat_zero, length_le] at hread hfits
  have hpow : v.toNat < 256 ^ k.sizeof := by
    rw [show (256 : ℕ) = 2 ^ 8 from rfl, ← pow_mul]
    exact v.isLt
  have hk := k.sizeof_le
  have hfits' : ¬ k.sizeof > size.toNat := by omega
  unfold Ty.Unserialize
  rw [if_neg hfits']
  refine ⟨?_, ?_⟩
  · simp only
    rw [UInt32.toNat_ofNat', Nat.mod_eq_of_lt (by omega), length_le]
  · have hval : leNat (m.read buffer k.sizeof) = v.toNat := by
      rw [← leNat_le_of_lt hpow]
      exact congrArg leNat hread
    simp only
    rw [hval, BitVec.ofNat_toNat, BitVec.setWidth_eq]
    rfl

theorem restores_array {e : ℕ+} {n : ℕ} (v : { data : List UInt8 // data.length = e * n })
    (h : Given m buffer size 0 v.1) :
    Restores (e * n) v (Ty.Unserialize (.array e n) m buffer size) := by
  obtain ⟨hread, hfits, hlt⟩ := h
  rw [UInt32.toNat_zero, v.2] at hread hfits hlt
  have hpos := Nat.le_mul_of_pos_left n e.pos
  have hfits' : ¬ n > size.toNat := by omega
  unfold Ty.Unserialize
  rw [if_neg hfits']
  refine ⟨?_, ?_⟩
  · simp only
    rw [UInt32.toNat_ofNat', Nat.mod_eq_of_lt (by omega)]
  · exact congrArg some (Subtype.ext hread)

theorem restores_string {s : List UInt8} (hs : s.length < 65536)
    (h : Given m buffer size 0 (le 2 s.length ++ s)) :
    Restores (2 + s.length) s (Ty.Unserialize .string m buffer size) := by
  obtain ⟨hl, htwo, hrest⟩ := h.count hs
  have hfits := hrest.fits
  rw [toNat_two] at hfits
  have hlen : ¬ size < (UInt16.ofNat (leNat (m.read buffer 2))).toUInt32 + 2 := by
    rw [UInt32.not_lt, UInt32.le_iff_toNat_le, toNat_toUInt32_add_two, hl]
    omega
  unfold Ty.Unserialize
  rw [if_neg htwo]
  simp only [if_neg hlen, hl]
  refine ⟨?_, ?_⟩
  · rw [UInt32.toNat_ofNat', Nat.mod_eq_of_lt (by omega)]
  · exact congrArg some hrest.read_eq

theorem restores_vector {t : Ty} {v : List t.Val} {bytes : List UInt8} (hv : v.length ≤ 1024)
    (h : Given m buffer size 0 (le 2 v.length ++ bytes))
    (helems : Given m buffer size 2 bytes → Restores (2 + bytes.length) v
      (unserializeElems (t.Unserialize m) buffer size v.length 2)) :
    Restores (2 + bytes.length) v (Ty.Unserialize (.vector t) m buffer size) := by
  obtain ⟨hl, htwo, hrest⟩ := h.count (by omega)
  have hmax : ¬ UInt16.ofNat (leNat (m.read buffer 2)) > 1024 := by
    rw [gt_iff_lt, UInt16.not_lt, UInt16.le_iff_toNat_le, hl]
    exact hv
  have hr := helems hrest
  unfold Ty.Unserialize
  rw [if_neg htwo]
  simp only [if_neg hmax, hl]
  exact ⟨hr.ret_eq, hr.value_eq⟩

end

mutual

theorem Ty.restores : (t : Ty) → (v : t.Val) → t.Small v → (m : Memory) → (buffer : ℕ) →
    (size : UInt32) → Given m buffer size 0 (t.Serialize v).bytes →
    Restores (t.Serialize v).bytes.length v (t.Unserialize m buffer size)
  | .scalar k, v, _, _, _, _, h => restores_scalar k v h
  | .array e n, v, _, m, buffer, size, h => by
    rw [Ty.Serialize] at h ⊢
    rw [v.2]
    exact restores_array v h
  | .string, (s : List UInt8), hs, m, buffer, size, h => by
    rw [Ty.Small] at hs
    rw [bytes_string hs] at h ⊢
    rw [List.length_append, length_le]
    exact restores_string hs h
  | .vector t, (v : List t.Val), hs, m, buffer, size, h => by
    rw [Ty.Small] at hs
    have hlt : v.length < 65536 := by omega
    have hl : (UInt16.ofNat v.length).toNat = v.length := UInt16.toNat_ofNat_of_lt' hlt
    rw [Ty.Serialize, hl] at h ⊢
    rw [List.length_append, length_le]
    exact restores_vector hs.1 h fun hrest =>
      elems_restore (fun x hx b s hb => t.restores x (hs.2 x hx) m b s hb) _ _ hrest
  | .struct ms, v, hs, m, buffer, size, h => by
    rw [Ty.Small] at hs
    have hr := ms.restores v hs m buffer size 0 0 h
    rwa [UInt32.toNat_zero, Nat.zero_add] at hr

/-- The number that `Serialize` adds up in `acc` has no effect on the bytes. -/
theorem Members.restores : (ms : Members) → (v : ms.Val) → ms.Small v → (m : Memory) →
    (buffer : ℕ) → (size len acc : UInt32) → Given m buffer size len (ms.Serialize v acc).bytes →
    Restores (len.toNat + (ms.Serialize v acc).bytes.length) v (ms.Unserialize m buffer size len)
  | .nil, _, _, _, _, _, _, _, _ => ⟨rfl, rfl⟩
  | .cons t ms, (v, vs), hs, m, buffer, size, len, acc, h => by
    rw [Members.Small] at hs
    rw [Members.Serialize] at h ⊢
    have hr := t.restores v hs.1 m _ _ h.next
    obtain ⟨hrest, hadd⟩ := h.rest hr.ret_eq
    have hq := ms.restores vs hs.2 m buffer size _ _ hrest
    have hlt := h.next.lt
    rw [UInt32.toNat_zero, Nat.zero_add] at hlt
    rw [Members.Unserialize]
    simp only [if_neg (hr.ret_ne hlt)]
    refine ⟨?_, ?_⟩
    · rw [hq.ret_eq, hadd, List.length_append, Nat.add_assoc]
    · rw [hr.value_eq, hq.value_eq]
      rfl

end

theorem length_vector_replicate (t : Ty) (x : t.Val) (n : ℕ) :
    (Ty.Serialize (.vector t) (List.replicate n x)).bytes.length =
      2 + n * (t.Serialize x).bytes.length := by
  have helems : ∀ l, (serializeElems t.Serialize (List.replicate n x) l).2.length =
      n * (t.Serialize x).bytes.length := by
    induction n with
    | zero => simp [serializeElems]
    | succ n ih =>
      intro l
      rw [List.replicate_succ, serializeElems, List.length_append, ih, Nat.succ_mul, Nat.add_comm]
  rw [Ty.Serialize, List.length_append, length_le, helems]

theorem Members.length_serialize_cons (t : Ty) (ms : Members) (v : t.Val) (vs : ms.Val)
    (acc : UInt32) : (Members.Serialize (.cons t ms) (v, vs) acc).bytes.length =
      (t.Serialize v).bytes.length + (ms.Serialize vs (acc + (t.Serialize v).ret)).bytes.length := by
  rw [Members.Serialize, List.length_append]

theorem Members.length_serialize_nil (v : Members.nil.Val) (acc : UInt32) :
    (Members.Serialize .nil v acc).bytes.length = 0 := by
  rw [Members.Serialize, List.length_nil]

theorem length_string_replicate {n : ℕ} (hn : n < 65536) :
    (Ty.Serialize .string (List.replicate n (0 : UInt8))).bytes.length = 2 + n := by
  have hlen : (List.replicate n (0 : UInt8)).length = n := List.length_replicate
  rw [bytes_string (by rwa [hlen]), List.length_append, length_le, hlen]

/-- At `buffer` are `bytes` and then `suffix`. The size that is passed has 32 bits: it covers
`bytes`, and their number does not mean `-1`. -/
structure Received (m : Memory) (buffer : ℕ) (size : UInt32) (bytes suffix : List UInt8) :
    Prop where
  read_eq : m.read buffer (bytes ++ suffix).length = bytes ++ suffix
  size_eq : size = UInt32.ofNat (bytes ++ suffix).length
  fits : bytes.length ≤ size.toNat
  lt : bytes.length < 2 ^ 32 - 1

theorem Received.given {m : Memory} {buffer : ℕ} {size : UInt32} {bytes suffix : List UInt8}
    (h : Received m buffer size bytes suffix) : Given m buffer size 0 bytes := by
  refine ⟨(Memory.read_append.mp h.read_eq).1, ?_, ?_⟩
  · rw [UInt32.toNat_zero, Nat.zero_add]
    exact h.fits
  · rw [UInt32.toNat_zero, Nat.zero_add]
    exact h.lt

theorem Ty.restores_received (t : Ty) {v : t.Val} {suffix : List UInt8} {m : Memory}
    {buffer : ℕ} {size : UInt32} (hs : t.Small v)
    (h : Received m buffer size (t.Serialize v).bytes suffix) :
    (t.Unserialize m buffer size).ret ≠ -1 ∧
      Restores (t.Serialize v).bytes.length v (t.Unserialize m buffer size) := by
  have hr := t.restores v hs m buffer size h.given
  exact ⟨hr.ret_ne h.lt, hr⟩

/-- `Unserialize` succeeds on what `Serialize` has appended, whatever comes behind it, consumes
exactly that and gives the value back. -/
theorem unserialize_serialize :
    (∀ (t : Ty) (v : t.Val) (suffix : List UInt8) (m : Memory) (buffer : ℕ) (size : UInt32),
      t.Small v → Received m buffer size (t.Serialize v).bytes suffix →
      (t.Unserialize m buffer size).ret ≠ -1 ∧
        Restores (t.Serialize v).bytes.length v (t.Unserialize m buffer size)) ∧
    ∀ (msg : Message) (v : msg.Val) (suffix : List UInt8) (m : Memory) (buffer : ℕ)
      (size : UInt32), msg.members.Small v → Received m buffer size (msg.Serialize v).bytes suffix →
      (msg.Unserialize m buffer size).ret ≠ -1 ∧
        Restores (msg.Serialize v).bytes.length v (msg.Unserialize m buffer size) :=
  ⟨fun t _ _ _ _ _ hs h => t.restores_received hs h,
    fun msg _ _ _ _ _ hs h => Ty.restores_received (.struct msg.members) hs h⟩

def pairMembers : Members := .cons (.scalar .UInt16) (.cons (.vector .string) .nil)

theorem unserialize_serialize_pair :
    let v : pairMembers.Val := (513#16, [[7], []], ())
    let bytes := (pairMembers.Serialize v 0).bytes
    let m := (⟨fun _ => 0, []⟩ : Memory).write 0 (bytes ++ [9])
    (Ty.Unserialize (.struct pairMembers) m 0 10).ret ≠ -1 ∧
      Restores 9 v (Ty.Unserialize (.struct pairMembers) m 0 10) ∧
      Restores 9 v (Message.Unserialize ⟨pairMembers, by decide⟩ m 0 10) := by
  intro v bytes m
  have hsmall : pairMembers.Small v := by
    refine ⟨trivial, ⟨by decide, fun x hx => ?_⟩, trivial⟩
    have hlen : ∀ x ∈ ([[7], []] : List (List UInt8)), x.length < 65536 := by decide
    exact hlen x hx
  have hread : m.read 0 (bytes ++ [9]).length = bytes ++ [9] := Memory.read_write_self _ _ _
  have hreceived : Received m 0 10 bytes [9] := ⟨hread, by decide, by decide, by decide⟩
  obtain ⟨hty, hmsg⟩ := unserialize_serialize
  obtain ⟨hne, hr⟩ := hty (.struct pairMembers) v [9] m 0 10 hsmall hreceived
  exact ⟨hne, hr, (hmsg ⟨pairMembers, by decide⟩ v [9] m 0 10 hsmall hreceived).2⟩

def zeroString (n : ℕ) : List UInt8 := List.replicate n 0

def longStrings (n : ℕ) : List (List UInt8) := List.replicate n (zeroString 65535)

def longMembers : Members :=
  .cons (.vector (.vector .string)) (.cons (.vector .string) (.cons .string .nil))

def longValue : longMembers.Val :=
  (List.replicate 63 (longStrings 1024), longStrings 1022, zeroString 65405, ())

theorem small_longStrings {n : ℕ} (hn : n ≤ 1024) :
    Ty.Small (.vector .string) (longStrings n) := by
  refine ⟨List.length_replicate.trans_le hn, fun x hx => ?_⟩
  obtain rfl := List.eq_of_mem_replicate hx
  have hlen : (zeroString 65535).length = 65535 := List.length_replicate
  exact hlen.trans_lt (by norm_num)

theorem length_longStrings (n : ℕ) :
    (Ty.Serialize (.vector .string) (longStrings n)).bytes.length = 2 + n * 65537 := by
  have hvector := length_vector_replicate .string (zeroString 65535) n
  have hstring := length_string_replicate (by norm_num : 65535 < 65536)
  exact hvector.trans (congrArg (fun k => 2 + n * k) hstring)

theorem length_longValue : (longMembers.Serialize longValue 0).bytes.length = 2 ^ 32 - 1 := by
  have hfirst := length_vector_replicate (.vector .string) (longStrings 1024) 63
  have hsecond := length_longStrings 1022
  have hthird := length_string_replicate (by norm_num : 65405 < 65536)
  have hinner := length_longStrings 1024
  have hsum : (longMembers.Serialize longValue 0).bytes.length = _ :=
    (Members.length_serialize_cons _ _ _ _ _).trans (congrArg₂ (· + ·) hfirst
      ((Members.length_serialize_cons _ _ _ _ _).trans (congrArg₂ (· + ·) hsecond
        ((Members.length_serialize_cons _ _ _ _ _).trans (congrArg₂ (· + ·) hthird (Members.length_serialize_nil _ _))))))
  rw [hsum, hinner]
  norm_num

theorem length_zeros (n : ℕ) : ([0] ++ zeroString n).length = n + 1 := by
  rw [List.length_append, zeroString, List.length_replicate, List.length_singleton, Nat.add_comm]

theorem read_zeros (n : ℕ) :
    (⟨fun _ => 0, []⟩ : Memory).read 0 ([0] ++ zeroString n).length = [0] ++ zeroString n := by
  rw [length_zeros, Memory.read_eq_bytes, List.map_const', List.length_range, zeroString,
    List.replicate_succ, List.singleton_append]

/-- No string and no vector is too long, but the whole comes to `2 ^ 32 - 1` bytes, so that
what is consumed and the failure are one number. And with a suffix of that many bytes the size
comes to nothing. -/
theorem unserialize_serialize_fails :
    (longMembers.Small longValue ∧
      (longMembers.Serialize longValue 0).bytes.length = 2 ^ 32 - 1 ∧
      ∀ m buffer size, let r := Ty.Unserialize (.struct longMembers) m buffer size
        ¬ (r.ret ≠ -1 ∧ r.ret.toNat = (longMembers.Serialize longValue 0).bytes.length)) ∧
    let bytes := (Ty.Serialize (.scalar .UInt8) 0#8).bytes
    let suffix := zeroString (2 ^ 32 - 1)
    let m : Memory := ⟨fun _ => 0, []⟩
    m.read 0 (bytes ++ suffix).length = bytes ++ suffix ∧
      (Ty.Unserialize (.scalar .UInt8) m 0 (UInt32.ofNat (bytes ++ suffix).length)).ret = -1 := by
  refine ⟨⟨⟨?_, small_longStrings (by norm_num), ?_, trivial⟩, length_longValue, ?_⟩, ?_⟩
  · refine ⟨List.length_replicate.trans_le (by norm_num), fun x hx => ?_⟩
    obtain rfl := List.eq_of_mem_replicate hx
    exact small_longStrings le_rfl
  · have hlen : (zeroString 65405).length = 65405 := List.length_replicate
    exact hlen.trans_lt (by norm_num)
  · rintro m buffer size r ⟨hne, hret⟩
    rw [length_longValue] at hret
    exact hne (UInt32.toNat_inj.mp hret)
  · intro bytes suffix m
    have hlen : (bytes ++ suffix).length = 2 ^ 32 := length_zeros _
    refine ⟨read_zeros _, ?_⟩
    rw [hlen]
    decide

end RgcFifa
