import RgcFifa.SerializeBounds
import RgcFifa.SerializeRoundTrip

/-! What `Unserialize` accepts is what `Serialize` writes of the value it gives. -/

namespace RgcFifa

open ByteWords

/-- The integers other than `bool`. -/
def Scalar.IsInteger : Scalar → Prop
  | .bool | .float | .double | .pointer => False
  | _ => True

mutual

/-- The types of integers, strings, vectors and structs. -/
def Ty.Integral : Ty → Prop
  | .scalar k => k.IsInteger
  | .array _ _ => False
  | .string => True
  | .vector t => t.Integral
  | .struct ms => ms.Integral

def Members.Integral : Members → Prop
  | .nil => True
  | .cons t ms => t.Integral ∧ ms.Integral

end

/-- The bytes from `len` on, up to what is returned. -/
structure Consumed (m : Memory) (buffer : ℕ) (size len ret : UInt32) (bytes : List UInt8) :
    Prop where
  len_le : len ≤ ret
  le_size : ret ≤ size
  read_eq : m.read (buffer + len.toNat) (ret.toNat - len.toNat) = bytes

section

variable {m : Memory} {buffer : ℕ} {size len ret : UInt32} {bs vs : List UInt8}

theorem consumed_nil (hlen : len ≤ size) : Consumed m buffer size len len [] :=
  ⟨UInt32.le_refl _, hlen, by rw [Nat.sub_self]; rfl⟩

/-- A member, or an element, and then the others. -/
theorem Consumed.append {next : UInt32} (hlen : len ≤ size)
    (h : Consumed m (buffer + len.toNat) (size - len) 0 next bs)
    (hrest : Consumed m buffer size (len + next) ret vs) :
    Consumed m buffer size len ret (bs ++ vs) := by
  obtain ⟨hadd, -, -⟩ := toNat_add_of_le hlen h.le_size
  have hle := UInt32.le_iff_toNat_le.mp hrest.len_le
  have hread := h.read_eq
  have hread' := hrest.read_eq
  rw [UInt32.toNat_zero, Nat.add_zero, Nat.sub_zero] at hread
  rw [hadd] at hle hread'
  refine ⟨?_, hrest.le_size, ?_⟩
  · rw [UInt32.le_iff_toNat_le]
    omega
  · have hsplit : ret.toNat - len.toNat = next.toNat + (ret.toNat - (len.toNat + next.toNat)) := by
      omega
    rw [hsplit, Memory.read_add, hread, Nat.add_assoc, hread']

theorem consumed_ofNat {n : ℕ} (hn : n ≤ size.toNat) (hread : m.read buffer n = bs) :
    Consumed m buffer size 0 (UInt32.ofNat n) bs := by
  have hsize := size.toNat_lt
  have hret : (UInt32.ofNat n).toNat = n := by rw [UInt32.toNat_ofNat', Nat.mod_eq_of_lt (by omega)]
  refine ⟨UInt32.zero_le, ?_, ?_⟩
  · rwa [UInt32.le_iff_toNat_le, hret]
  · rw [hret]
    exact hread

theorem elems_reencode {α : Type} {f : α → Serialized} {g : ℕ → UInt32 → Unserialized α}
    (hg : ∀ b s, (g b s).ret ≠ -1 →
      ∃ x, (g b s).value = some x ∧ Consumed m b s 0 (g b s).ret (f x).bytes)
    (count : ℕ) (len : UInt32) (acc : UInt16) (hlen : len ≤ size)
    (h : (unserializeElems g buffer size count len).ret ≠ -1) :
    ∃ xs, (unserializeElems g buffer size count len).value = some xs ∧ xs.length = count ∧
      Consumed m buffer size len (unserializeElems g buffer size count len).ret
        (serializeElems f xs acc).2 := by
  induction count generalizing len acc with
  | zero => exact ⟨[], rfl, rfl, consumed_nil hlen⟩
  | succ count ih =>
    rw [unserializeElems] at h ⊢
    by_cases hfail : (g (buffer + len.toNat) (size - len)).ret = -1
    · simp only [if_pos hfail] at h
      exact absurd rfl h
    · simp only [if_neg hfail] at h ⊢
      obtain ⟨x, hx, hfirst⟩ := hg _ _ hfail
      obtain ⟨-, hsum, -⟩ := toNat_add_of_le hlen hfirst.le_size
      obtain ⟨xs, hxs, hcount, hrest⟩ := ih _ (acc.toUInt32 + (f x).ret).toUInt16 hsum h
      refine ⟨x :: xs, ?_, by rw [List.length_cons, hcount], hfirst.append hlen hrest⟩
      rw [hx, hxs]
      rfl

theorem reencode_scalar {k : Scalar} (h : (Ty.Unserialize (.scalar k) m buffer size).ret ≠ -1) :
    ∃ v, (Ty.Unserialize (.scalar k) m buffer size).value = some v ∧
      Consumed m buffer size 0 (Ty.Unserialize (.scalar k) m buffer size).ret
        (Ty.Serialize (.scalar k) v).bytes := by
  unfold Ty.Unserialize at h ⊢
  split_ifs at h ⊢ with hsize
  · exact absurd rfl h
  · refine ⟨_, rfl, consumed_ofNat (Nat.not_lt.mp hsize) ?_⟩
    have hlt := leNat_lt (m.read buffer k.sizeof)
    have hle := le_leNat (m.read buffer k.sizeof)
    rw [m.length_read] at hlt hle
    have hpow : 2 ^ (8 * k.sizeof) = 256 ^ k.sizeof := by
      rw [show (256 : ℕ) = 2 ^ 8 from rfl, ← pow_mul]
    rw [Ty.Serialize, BitVec.toNat_ofNat, hpow, Nat.mod_eq_of_lt hlt, hle]

/-- The count that is read is the one that is written. -/
theorem le_count (m : Memory) (b : ℕ) : le 2 (leNat (m.read b 2)) = m.read b 2 := by
  have hle := le_leNat (m.read b 2)
  rwa [m.length_read] at hle

theorem reencode_string (h : (Ty.Unserialize .string m buffer size).ret ≠ -1) :
    ∃ v, (Ty.Unserialize .string m buffer size).value = some v ∧
      Consumed m buffer size 0 (Ty.Unserialize .string m buffer size).ret
        (Ty.Serialize .string v).bytes := by
  unfold Ty.Unserialize at h ⊢
  split_ifs at h ⊢ with hsize
  · exact absurd rfl h
  · simp only at h ⊢
    split_ifs at h ⊢ with hlen
    · exact absurd rfl h
    · have hl := toNat_leNat_two m buffer
      have hle := UInt32.le_iff_toNat_le.mp (UInt32.not_lt.mp hlen)
      rw [toNat_toUInt32_add_two, Nat.add_comm] at hle
      have hcount := le_count m buffer
      have hs : (m.read (buffer + 2) (UInt16.ofNat (leNat (m.read buffer 2))).toNat).length <
          65536 := by
        rw [m.length_read]
        exact UInt16.toNat_lt _
      refine ⟨_, rfl, consumed_ofNat hle ?_⟩
      rw [bytes_string hs, m.length_read, m.read_add, hl, hcount]

theorem reencode_vector {t : Ty}
    (helem : ∀ b s, (t.Unserialize m b s).ret ≠ -1 →
      ∃ v, (t.Unserialize m b s).value = some v ∧
        Consumed m b s 0 (t.Unserialize m b s).ret (t.Serialize v).bytes)
    (h : (Ty.Unserialize (.vector t) m buffer size).ret ≠ -1) :
    ∃ v, (Ty.Unserialize (.vector t) m buffer size).value = some v ∧
      Consumed m buffer size 0 (Ty.Unserialize (.vector t) m buffer size).ret
        (Ty.Serialize (.vector t) v).bytes := by
  unfold Ty.Unserialize at h ⊢
  split_ifs at h ⊢ with hsize
  · exact absurd rfl h
  · simp only at h ⊢
    split_ifs at h ⊢ with hmax
    · exact absurd rfl h
    · have htwo : (2 : UInt32) ≤ size := UInt32.not_lt.mp hsize
      have hcount : Consumed m (buffer + (0 : UInt32).toNat) (size - 0) 0 2
          (le 2 (leNat (m.read buffer 2))) := by
        rw [UInt32.sub_zero, le_count]
        exact ⟨UInt32.zero_le, htwo, rfl⟩
      obtain ⟨v, hv, hlen, hrest⟩ := elems_reencode helem _ 2 2 htwo h
      have hl : UInt16.ofNat v.length = UInt16.ofNat (leNat (m.read buffer 2)) := by
        rw [hlen, UInt16.ofNat_toNat]
      have hbytes : (Ty.Serialize (.vector t) v).bytes =
          le 2 (leNat (m.read buffer 2)) ++ (serializeElems t.Serialize v 2).2 := by
        rw [Ty.Serialize, hl, toNat_leNat_two]
      refine ⟨v, hv, ?_⟩
      rw [hbytes]
      exact hcount.append UInt32.zero_le hrest

end

mutual

theorem Ty.reencode : (t : Ty) → t.Integral → (m : Memory) → (buffer : ℕ) → (size : UInt32) →
    (t.Unserialize m buffer size).ret ≠ -1 → ∃ v, (t.Unserialize m buffer size).value = some v ∧
      Consumed m buffer size 0 (t.Unserialize m buffer size).ret (t.Serialize v).bytes
  | .scalar _, _, _, _, _, h => reencode_scalar h
  | .array _ _, ht, _, _, _, _ => ht.elim
  | .string, _, _, _, _, h => reencode_string h
  | .vector t, ht, m, _, _, h => reencode_vector (fun b s hs => t.reencode ht m b s hs) h
  | .struct ms, ht, m, buffer, size, h => ms.reencode ht m buffer size 0 0 UInt32.zero_le h

theorem Members.reencode : (ms : Members) → ms.Integral → (m : Memory) → (buffer : ℕ) →
    (size len acc : UInt32) → len ≤ size → (ms.Unserialize m buffer size len).ret ≠ -1 →
    ∃ v, (ms.Unserialize m buffer size len).value = some v ∧
      Consumed m buffer size len (ms.Unserialize m buffer size len).ret (ms.Serialize v acc).bytes
  | .nil, _, _, _, _, _, _, hlen, _ => ⟨(), rfl, consumed_nil hlen⟩
  | .cons t ms, ht, m, buffer, size, len, acc, hlen, h => by
    rw [Members.Integral] at ht
    rw [Members.Unserialize] at h ⊢
    by_cases hfail : (t.Unserialize m (buffer + len.toNat) (size - len)).ret = -1
    · simp only [if_pos hfail] at h
      exact absurd rfl h
    · simp only [if_neg hfail] at h ⊢
      obtain ⟨v, hv, hfirst⟩ := t.reencode ht.1 m _ _ hfail
      obtain ⟨-, hsum, -⟩ := toNat_add_of_le hlen hfirst.le_size
      obtain ⟨vs, hvs, hrest⟩ :=
        ms.reencode ht.2 m buffer size _ (acc + (t.Serialize v).ret) hsum h
      refine ⟨(v, vs), ?_, ?_⟩
      · rw [hv, hvs]
        rfl
      · rw [Members.Serialize]
        exact hfirst.append hlen hrest

end

/-- The decoded value is written as the bytes that were consumed, so that two inputs with the same
value begin with the same bytes. -/
theorem serialize_unserialize (t : Ty) (ht : t.Integral) (m : Memory) (buffer : ℕ) (size : UInt32)
    (h : (t.Unserialize m buffer size).ret ≠ -1) :
    ∃ v, (t.Unserialize m buffer size).value = some v ∧
      (t.Unserialize m buffer size).ret ≤ size ∧
      (t.Serialize v).bytes = m.read buffer (t.Unserialize m buffer size).ret.toNat := by
  obtain ⟨v, hv, hconsumed⟩ := t.reencode ht m buffer size h
  have hread := hconsumed.read_eq
  rw [UInt32.toNat_zero, Nat.add_zero, Nat.sub_zero] at hread
  exact ⟨v, hv, hconsumed.le_size, hread.symm⟩

/-- A number and two strings, the second of which is empty, with a byte behind them. -/
theorem serialize_unserialize_pair :
    let m : Memory := ⟨fun x => [7, 0, 2, 0, 1, 0, 104, 0, 0, 9].getD x 0, []⟩
    let r := Ty.Unserialize (.struct pairMembers) m 0 10
    ∃ v, r.value = some v ∧ r.ret ≤ 10 ∧
      (Ty.Serialize (.struct pairMembers) v).bytes = m.read 0 r.ret.toNat :=
  serialize_unserialize (.struct pairMembers) ⟨trivial, trivial, trivial⟩ _ 0 10 (by decide)

end RgcFifa
