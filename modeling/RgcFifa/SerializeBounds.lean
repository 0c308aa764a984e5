import RgcFifa.Serialize

/-! Which memory `Unserialize` reads. Every trait compares what it is going to read with the
bytes that are left, but that of `Array` compares the number of its elements. -/

namespace RgcFifa

open ByteWords

/-- A call with `size` bytes at `buffer` reads no others, returns `-1` or at most `size`, and
passes on no difference that has wrapped. -/
structure Bounded {α : Type} (buffer : ℕ) (size : UInt32) (r : Unserialized α) : Prop where
  touched : ∀ p ∈ r.touched, buffer ≤ p.1 ∧ p.1 + p.2 ≤ buffer + size.toNat
  ret : r.ret = -1 ∨ r.ret ≤ size
  left : ∀ p ∈ r.left, p.2 ≤ p.1

mutual

/-- The least number of bytes that a successful call takes. -/
def Ty.least : Ty → ℕ
  | .scalar k => k.sizeof
  | .array e n => e * n
  | .string => 2
  | .vector _ => 2
  | .struct ms => ms.least

def Members.least : Members → ℕ
  | .nil => 0
  | .cons t ms => t.least + ms.least

end

mutual

/-- Every array in the type has elements of one byte, or none, or so much in front of it that
it is never reached with as many bytes left as it has elements. -/
def Ty.Sound : Ty → ℕ → Prop
  | .scalar _, _ => True
  | .array e n, room => e = 1 ∨ n = 0 ∨ room < n
  | .string, _ => True
  | .vector t, room => t.Sound (room - 2)
  | .struct ms, room => ms.Sound room

def Members.Sound : Members → ℕ → Prop
  | .nil, _ => True
  | .cons t ms, room => t.Sound room ∧ ms.Sound (room - t.least)

end

/-- What is left at `len`, for the next member or element, is no more after it. -/
theorem toNat_add_of_le {size len ret : UInt32} (hlen : len ≤ size) (hret : ret ≤ size - len) :
    (len + ret).toNat = len.toNat + ret.toNat ∧ len + ret ≤ size ∧
      (size - (len + ret)).toNat = (size - len).toNat - ret.toNat := by
  have hsub := UInt32.toNat_sub_of_le _ _ hlen
  have hle := UInt32.le_iff_toNat_le.mp hret
  have hlen' := UInt32.le_iff_toNat_le.mp hlen
  have hsize := size.toNat_lt
  rw [hsub] at hle
  have hadd : (len + ret).toNat = len.toNat + ret.toNat := by
    rw [UInt32.toNat_add, Nat.mod_eq_of_lt (by omega)]
  have hsum : len + ret ≤ size := by
    rw [UInt32.le_iff_toNat_le, hadd]
    omega
  refine ⟨hadd, hsum, ?_⟩
  rw [UInt32.toNat_sub_of_le _ _ hsum, hadd, hsub]
  omega

/-- Of a call that has consumed `len` bytes, and at least `least` more if it succeeds. -/
structure Rest {α : Type} (buffer : ℕ) (size len : UInt32) (least : ℕ) (r : Unserialized α) :
    Prop where
  bounded : Bounded buffer size r
  least_le : r.ret ≠ -1 → len.toNat + least ≤ r.ret.toNat

section

variable {α : Type} {value : Option α} {touched : List (ℕ × ℕ)} {buffer n : ℕ}
  {size len : UInt32}

theorem rest_nil (hlen : len ≤ size) : Rest buffer size len 0 ⟨len, value, [], []⟩ :=
  ⟨⟨fun _ hp => absurd hp List.not_mem_nil, .inr hlen, fun _ hp => absurd hp List.not_mem_nil⟩,
    fun _ => le_rfl⟩

theorem rest_fail (h : ∀ p ∈ touched, buffer ≤ p.1 ∧ p.1 + p.2 ≤ buffer + size.toNat) :
    Rest buffer size len n ⟨-1, value, touched, []⟩ :=
  ⟨⟨h, .inl rfl, fun _ hp => absurd hp List.not_mem_nil⟩, fun hne => absurd rfl hne⟩

theorem rest_ofNat {least : ℕ} (hn : n ≤ size.toNat) (hle : least ≤ n)
    (h : ∀ p ∈ touched, buffer ≤ p.1 ∧ p.1 + p.2 ≤ buffer + n) :
    Rest buffer size 0 least ⟨UInt32.ofNat n, value, touched, []⟩ := by
  have hsize := size.toNat_lt
  have hret : (UInt32.ofNat n).toNat = n := by rw [UInt32.toNat_ofNat', Nat.mod_eq_of_lt (by omega)]
  refine ⟨⟨fun p hp => ?_, .inr ?_, fun _ hp => absurd hp List.not_mem_nil⟩, fun _ => ?_⟩
  · have hin := h p hp
    omega
  · rw [UInt32.le_iff_toNat_le, hret]
    exact hn
  · rw [UInt32.toNat_zero, Nat.zero_add]
    exact hle.trans hret.ge

theorem rest_read (hn : n ≤ size.toNat) :
    Rest buffer size 0 n ⟨UInt32.ofNat n, value, [(buffer, n)], []⟩ :=
  rest_ofNat hn le_rfl fun p hp => by
    obtain rfl := List.mem_singleton.mp hp
    exact ⟨le_rfl, le_rfl⟩

end

section

variable {α β γ : Type} {buffer : ℕ} {size len : UInt32}

theorem Bounded.inner {r : Unserialized α} (hlen : len ≤ size)
    (h : Bounded (buffer + len.toNat) (size - len) r) :
    ∀ p ∈ r.touched, buffer ≤ p.1 ∧ p.1 + p.2 ≤ buffer + size.toNat := by
  intro p hp
  have hsub := UInt32.toNat_sub_of_le _ _ hlen
  have hle := UInt32.le_iff_toNat_le.mp hlen
  have hin := h.touched p hp
  omega

theorem Bounded.left_cons {r : Unserialized α} {left : List (UInt32 × UInt32)} (hlen : len ≤ size)
    (h : Bounded (buffer + len.toNat) (size - len) r) (hleft : ∀ p ∈ left, p.2 ≤ p.1) :
    ∀ p ∈ (size, len) :: (r.left ++ left), p.2 ≤ p.1 := by
  intro p hp
  rcases List.mem_cons.mp hp with rfl | hp
  · exact hlen
  · exact (List.mem_append.mp hp).elim (h.left p) (hleft p)

theorem Bounded.fail {r : Unserialized α} {value : Option β} (hlen : len ≤ size)
    (h : Bounded (buffer + len.toNat) (size - len) r) :
    Bounded buffer size ⟨-1, value, r.touched, (size, len) :: r.left⟩ := by
  have hin := h.inner hlen
  have hleft : ∀ p ∈ (size, len) :: (r.left ++ []), p.2 ≤ p.1 :=
    h.left_cons hlen fun _ hp => absurd hp List.not_mem_nil
  rw [List.append_nil] at hleft
  exact ⟨hin, .inl rfl, hleft⟩

theorem Bounded.rest {r : Unserialized α} {q : Unserialized β} {value : Option γ} {n k : ℕ}
    (hlen : len ≤ size) (h : Bounded (buffer + len.toNat) (size - len) r) (hr : r.ret ≠ -1)
    (hn : n ≤ r.ret.toNat) (hq : Rest buffer size (len + r.ret) k q) :
    Rest buffer size len (n + k)
      ⟨q.ret, value, r.touched ++ q.touched, (size, len) :: (r.left ++ q.left)⟩ := by
  obtain ⟨hadd, -, -⟩ := toNat_add_of_le hlen (h.ret.resolve_left hr)
  refine ⟨⟨?_, hq.bounded.ret, h.left_cons hlen hq.bounded.left⟩, fun hne => ?_⟩
  · intro p hp
    exact (List.mem_append.mp hp).elim (h.inner hlen p) (hq.bounded.touched p)
  · have hle := hq.least_le hne
    simp only
    omega

theorem elems_bounded {f : ℕ → UInt32 → Unserialized α} {room : ℕ}
    (hf : ∀ b s, s.toNat ≤ room → Bounded b s (f b s)) (count : ℕ) (len : UInt32)
    (hlen : len ≤ size) (hroom : (size - len).toNat ≤ room) :
    Rest buffer size len 0 (unserializeElems f buffer size count len) := by
  induction count generalizing len with
  | zero => exact rest_nil hlen
  | succ count ih =>
    have hr := hf (buffer + len.toNat) (size - len) hroom
    rw [unserializeElems]
    by_cases hfail : (f (buffer + len.toNat) (size - len)).ret = -1
    · simp only [if_pos hfail]
      exact ⟨hr.fail hlen, fun hne => absurd rfl hne⟩
    · simp only [if_neg hfail]
      obtain ⟨-, hsum, hleft⟩ := toNat_add_of_le hlen (hr.ret.resolve_left hfail)
      exact hr.rest hlen hfail (Nat.zero_le _) (ih _ hsum (by omega))

end

section

variable {m : Memory} {buffer : ℕ} {size : UInt32}

theorem rest_scalar (k : Scalar) :
    Rest buffer size 0 k.sizeof (Ty.Unserialize (.scalar k) m buffer size) := by
  unfold Ty.Unserialize
  split_ifs with hsize
  · exact rest_fail fun _ hp => absurd hp List.not_mem_nil
  · exact rest_read (not_lt.mp hsize)

theorem rest_array {e : ℕ+} {n room : ℕ} (hsound : e = 1 ∨ n = 0 ∨ room < n)
    (hroom : size.toNat ≤ room) :
    Rest buffer size 0 (e * n) (Ty.Unserialize (.array e n) m buffer size) := by
  unfold Ty.Unserialize
  split_ifs with hsize
  · exact rest_fail fun _ hp => absurd hp List.not_mem_nil
  · have hle : e * n ≤ size.toNat := by
      obtain rfl | rfl | hlt := hsound
      · rw [PNat.one_coe]
        omega
      · omega
      · omega
    exact rest_read hle

theorem count_read (h : ¬ size < 2) :
    ∀ p ∈ [(buffer, 2)], buffer ≤ p.1 ∧ p.1 + p.2 ≤ buffer + size.toNat := by
  intro p hp
  obtain rfl := List.mem_singleton.mp hp
  have htwo := UInt32.le_iff_toNat_le.mp (UInt32.not_lt.mp h)
  rw [toNat_two] at htwo
  omega

theorem rest_string : Rest buffer size 0 2 (Ty.Unserialize .string m buffer size) := by
  unfold Ty.Unserialize
  split_ifs with hsize
  · exact rest_fail fun _ hp => absurd hp List.not_mem_nil
  · simp only
    split_ifs with hlen
    · exact rest_fail (count_read hsize)
    · have hle := UInt32.le_iff_toNat_le.mp (UInt32.not_lt.mp hlen)
      rw [toNat_toUInt32_add_two, Nat.add_comm] at hle
      refine rest_ofNat hle (Nat.le_add_right _ _) fun p hp => ?_
      rcases List.mem_pair.mp hp with rfl | rfl
      · omega
      · omega

theorem rest_vector {t : Ty} {room : ℕ} (hroom : size.toNat ≤ room)
    (helems : ∀ b s, s.toNat ≤ room - 2 → Bounded b s (t.Unserialize m b s)) :
    Rest buffer size 0 2 (Ty.Unserialize (.vector t) m buffer size) := by
  unfold Ty.Unserialize
  split_ifs with hsize
  · exact rest_fail fun _ hp => absurd hp List.not_mem_nil
  · simp only
    split_ifs with hmax
    · exact rest_fail (count_read hsize)
    · have htwo : (2 : UInt32) ≤ size := UInt32.not_lt.mp hsize
      have hleft := UInt32.toNat_sub_of_le _ _ htwo
      rw [toNat_two] at hleft
      have h : Rest buffer size 2 0 (unserializeElems (t.Unserialize m) buffer size
          (UInt16.ofNat (leNat (m.read buffer 2))).toNat 2) :=
        elems_bounded helems _ 2 htwo (by omega)
      refine ⟨⟨fun p hp => ?_, h.bounded.ret, h.bounded.left⟩, h.least_le⟩
      rcases List.mem_cons.mp hp with rfl | hp
      · exact count_read hsize _ (List.mem_singleton_self _)
      · exact h.bounded.touched p hp

end

mutual

theorem Ty.bounded : (t : Ty) → (room : ℕ) → t.Sound room → (m : Memory) → (buffer : ℕ) →
    (size : UInt32) → size.toNat ≤ room → Rest buffer size 0 t.least (t.Unserialize m buffer size)
  | .scalar k, _, _, _, _, _, _ => rest_scalar k
  | .array _ _, _, hsound, _, _, _, hroom => rest_array hsound hroom
  | .string, _, _, _, _, _, _ => rest_string
  | .vector t, _, hsound, m, _, _, hroom =>
    rest_vector hroom fun b s hs => (t.bounded _ hsound m b s hs).bounded
  | .struct ms, room, hsound, m, buffer, size, hroom =>
    ms.bounded room hsound m buffer size 0 UInt32.zero_le (by rwa [UInt32.sub_zero])

theorem Members.bounded : (ms : Members) → (room : ℕ) → ms.Sound room → (m : Memory) →
    (buffer : ℕ) → (size len : UInt32) → len ≤ size → (size - len).toNat ≤ room →
    Rest buffer size len ms.least (ms.Unserialize m buffer size len)
  | .nil, _, _, _, _, _, _, hlen, _ => rest_nil hlen
  | .cons t ms, room, hsound, m, buffer, size, len, hlen, hroom => by
    rw [Members.Sound] at hsound
    obtain ⟨hr, hleast⟩ := t.bounded room hsound.1 m (buffer + len.toNat) (size - len) hroom
    rw [UInt32.toNat_zero, Nat.zero_add] at hleast
    rw [Members.Unserialize, Members.least]
    by_cases hfail : (t.Unserialize m (buffer + len.toNat) (size - len)).ret = -1
    · simp only [if_pos hfail]
      exact ⟨hr.fail hlen, fun hne => absurd rfl hne⟩
    · simp only [if_neg hfail]
      obtain ⟨-, hsum, hleft⟩ := toNat_add_of_le hlen (hr.ret.resolve_left hfail)
      have hn := hleast hfail
      exact hr.rest hlen hfail hn (ms.bounded _ hsound.2 m buffer size _ hsum (by omega))

end

theorem toNat_ofNat_of_lt {n : ℕ} {size : UInt32} (h : n < size.toNat) :
    (UInt32.ofNat n).toNat = n := UInt32.toNat_ofNat_of_lt' (h.trans size.toNat_lt)

theorem ne_neg_one_of_lt {ret size : UInt32} (h : ret.toNat < size.toNat) : ret ≠ -1 := by
  rintro rfl
  have hsize := size.toNat_lt
  have hone : (-1 : UInt32).toNat = 2 ^ 32 - 1 := rfl
  omega

theorem leNat_zero_pair {m : Memory} {b : ℕ} (h : ∀ x, b ≤ x → x < b + 2 → m.bytes x = 0) :
    leNat (m.read b 2) = 0 := by
  have h₀ := h b le_rfl (by omega)
  have h₁ := h (b + 1) (by omega) (by omega)
  simp [Memory.read, leNat, h₀, h₁]

mutual

/-- Zeros are accepted, and no more of them are taken than must be. -/
theorem Ty.ret_zeros : (t : Ty) → (m : Memory) → (b : ℕ) → (size : UInt32) →
    t.least < size.toNat → (∀ x, b ≤ x → x < b + t.least → m.bytes x = 0) →
    (t.Unserialize m b size).ret.toNat = t.least
  | .scalar k, m, b, size, hsize, _ => by
    rw [Ty.least] at hsize
    have hfits : ¬ k.sizeof > size.toNat := by omega
    unfold Ty.Unserialize Ty.least
    rw [if_neg hfits]
    exact toNat_ofNat_of_lt hsize
  | .array e n, m, b, size, hsize, _ => by
    rw [Ty.least] at hsize
    have hpos := Nat.le_mul_of_pos_left n e.pos
    have hfits : ¬ n > size.toNat := by omega
    unfold Ty.Unserialize Ty.least
    rw [if_neg hfits]
    exact toNat_ofNat_of_lt hsize
  | .string, m, b, size, hsize, hzero => by
    rw [Ty.least] at hsize hzero
    have htwo : ¬ size < 2 := by
      rw [UInt32.lt_iff_toNat_lt, toNat_two]
      omega
    unfold Ty.Unserialize Ty.least
    rw [if_neg htwo, leNat_zero_pair hzero]
    exact congrArg (fun r : Unserialized (List UInt8) => r.ret.toNat) (if_neg htwo)
  | .vector t, m, b, size, hsize, hzero => by
    rw [Ty.least] at hsize hzero
    have htwo : ¬ size < 2 := by
      rw [UInt32.lt_iff_toNat_lt, toNat_two]
      omega
    unfold Ty.Unserialize Ty.least
    rw [if_neg htwo, leNat_zero_pair hzero]
    rfl
  | .struct ms, m, b, size, hsize, hzero => by
    rw [Ty.least] at hsize hzero
    have h := ms.ret_zeros m b size 0 (by rwa [UInt32.toNat_zero, Nat.zero_add])
      (by rwa [UInt32.toNat_zero, Nat.add_zero])
    rwa [UInt32.toNat_zero, Nat.zero_add] at h

theorem Members.ret_zeros : (ms : Members) → (m : Memory) → (buffer : ℕ) → (size len : UInt32) →
    len.toNat + ms.least < size.toNat →
    (∀ x, buffer + len.toNat ≤ x → x < buffer + len.toNat + ms.least → m.bytes x = 0) →
    (ms.Unserialize m buffer size len).ret.toNat = len.toNat + ms.least
  | .nil, _, _, _, _, _, _ => rfl
  | .cons t ms, m, buffer, size, len, hsize, hzero => by
    rw [Members.least] at hsize hzero ⊢
    have hlen : len ≤ size := by
      rw [UInt32.le_iff_toNat_le]
      omega
    have hsub := UInt32.toNat_sub_of_le _ _ hlen
    have hret := t.ret_zeros m (buffer + len.toNat) (size - len) (by omega)
      fun x hx hlt => hzero x hx (by omega)
    have hle : (t.Unserialize m (buffer + len.toNat) (size - len)).ret ≤ size - len := by
      rw [UInt32.le_iff_toNat_le]
      omega
    obtain ⟨hadd, -, -⟩ := toNat_add_of_le hlen hle
    have hne : (t.Unserialize m (buffer + len.toNat) (size - len)).ret ≠ -1 :=
      ne_neg_one_of_lt (by omega : _ < size.toNat)
    rw [Members.Unserialize]
    simp only [if_neg hne]
    rw [ms.ret_zeros m buffer size _ (by omega) fun x hx hlt => hzero x (by omega) (by omega)]
    omega

end

theorem mem_touched_vector {t : Ty} {m : Memory} {b : ℕ} {size : UInt32} {p : ℕ × ℕ}
    (hcount : leNat (m.read b 2) = 1) (hlen : (2 : UInt32) ≤ size)
    (h : p ∈ (t.Unserialize m (b + 2) (size - 2)).touched) :
    p ∈ (Ty.Unserialize (.vector t) m b size).touched := by
  have helems : p ∈ (unserializeElems (t.Unserialize m) b size 1 2).touched := by
    rw [unserializeElems]
    split_ifs
    · exact h
    · exact List.mem_append_left _ h
  unfold Ty.Unserialize
  rw [if_neg (UInt32.not_lt.mpr hlen), hcount]
  exact List.mem_cons_of_mem _ helems

theorem mem_touched_cons {t : Ty} {ms : Members} {m : Memory} {buffer : ℕ} {size len : UInt32}
    {p : ℕ × ℕ} (h : p ∈ (t.Unserialize m (buffer + len.toNat) (size - len)).touched) :
    p ∈ (Members.Unserialize (.cons t ms) m buffer size len).touched := by
  rw [Members.Unserialize]
  split_ifs
  · exact h
  · exact List.mem_append_left _ h

theorem mem_touched_rest {t : Ty} {ms : Members} {m : Memory} {buffer : ℕ} {size len ret : UInt32}
    {p : ℕ × ℕ} (hret : (t.Unserialize m (buffer + len.toNat) (size - len)).ret = ret)
    (hne : ret ≠ -1) (h : p ∈ (ms.Unserialize m buffer size (len + ret)).touched) :
    p ∈ (Members.Unserialize (.cons t ms) m buffer size len).touched := by
  obtain rfl := hret
  rw [Members.Unserialize, if_neg hne]
  exact List.mem_append_right _ h

theorem overread_array {e : ℕ+} {n b : ℕ} {m : Memory} {size : UInt32} (he : ¬ e = 1) (hn : ¬ n = 0)
    (hsize : size.toNat = n) :
    ∃ p ∈ (Ty.Unserialize (.array e n) m b size).touched, b + n < p.1 + p.2 := by
  have hfits : ¬ n > size.toNat := by omega
  have hne : (e : ℕ) ≠ 1 := fun hone => he (PNat.coe_eq_one_iff.mp hone)
  have hpos := e.pos
  have hmul : 1 * n < e * n := Nat.mul_lt_mul_of_pos_right (by omega) (by omega)
  refine ⟨(b, e * n), ?_, ?_⟩
  · unfold Ty.Unserialize
    rw [if_neg hfits]
    exact List.mem_singleton_self _
  · simp only
    omega

mutual

/-- Bytes and a size that lead a call at `b` past them. -/
theorem Ty.exists_overread : (t : Ty) → (room : ℕ) → ¬ t.Sound room → (b : ℕ) →
    ∃ (bytes : ℕ → UInt8) (k : ℕ), 0 < k ∧ k ≤ room ∧
      ∀ (m : Memory) (size : UInt32), (∀ x, b ≤ x → m.bytes x = bytes x) → size.toNat = k →
        ∃ p ∈ (t.Unserialize m b size).touched, b + k < p.1 + p.2
  | .scalar _, _, h, _ => absurd trivial h
  | .array e n, room, h, b => by
    rw [Ty.Sound, not_or, not_or] at h
    obtain ⟨he, hn, hroom⟩ := h
    exact ⟨fun _ => 0, n, by omega, by omega, fun m size _ hsize => overread_array he hn hsize⟩
  | .string, _, h, _ => absurd trivial h
  | .vector t, room, h, b => by
    obtain ⟨bytes, k, hpos, hk, hover⟩ := t.exists_overread (room - 2) h (b + 2)
    refine ⟨fun x => if x < b + 2 then if x = b then 1 else 0 else bytes x, k + 2, by omega,
      by omega, fun m size hm hsize => ?_⟩
    have hfirst : m.bytes b = 1 :=
      (hm b le_rfl).trans ((if_pos (by omega)).trans (if_pos rfl))
    have hsecond : m.bytes (b + 1) = 0 :=
      (hm (b + 1) (by omega)).trans ((if_pos (by omega)).trans (if_neg (by omega)))
    have hcount : leNat (m.read b 2) = 1 := by
      simp [Memory.read, leNat, hfirst, hsecond]
    have hlen : (2 : UInt32) ≤ size := by
      rw [UInt32.le_iff_toNat_le, toNat_two]
      omega
    have hsub := UInt32.toNat_sub_of_le _ _ hlen
    rw [toNat_two] at hsub
    have hrest : ∀ x, b + 2 ≤ x → m.bytes x = bytes x :=
      fun x hx => (hm x (by omega)).trans (if_neg (by omega))
    obtain ⟨p, hp, hlt⟩ := hover m (size - 2) hrest (by omega)
    exact ⟨p, mem_touched_vector hcount hlen hp, by omega⟩
  | .struct ms, room, h, b => by
    obtain ⟨bytes, k, hpos, hk, hover⟩ := ms.exists_overread room h b
    refine ⟨bytes, k, hpos, hk, fun m size hm hsize => ?_⟩
    exact hover m b size 0 hm (by rw [UInt32.toNat_zero, Nat.add_zero]) UInt32.zero_le
      (by rwa [UInt32.sub_zero])

/-- The members in front of the array that goes wrong are filled with zeros. -/
theorem Members.exists_overread : (ms : Members) → (room : ℕ) → ¬ ms.Sound room → (b : ℕ) →
    ∃ (bytes : ℕ → UInt8) (k : ℕ), 0 < k ∧ k ≤ room ∧
      ∀ (m : Memory) (buffer : ℕ) (size len : UInt32), (∀ x, b ≤ x → m.bytes x = bytes x) →
        buffer + len.toNat = b → len ≤ size → (size - len).toNat = k →
        ∃ p ∈ (ms.Unserialize m buffer size len).touched, b + k < p.1 + p.2
  | .nil, _, h, _ => absurd trivial h
  | .cons t ms, room, h, b => by
    by_cases ht : t.Sound room
    · have hms : ¬ ms.Sound (room - t.least) := fun hms => h ⟨ht, hms⟩
      obtain ⟨bytes, k, hpos, hk, hover⟩ := ms.exists_overread _ hms (b + t.least)
      refine ⟨fun x => if x < b + t.least then 0 else bytes x, t.least + k, by omega, by omega,
        fun m buffer size len hm hb hlen hsize => ?_⟩
      have hret := t.ret_zeros m b (size - len) (by omega) fun x hx hlt =>
        (hm x hx).trans (if_pos hlt)
      have hle : (t.Unserialize m b (size - len)).ret ≤ size - len := by
        rw [UInt32.le_iff_toNat_le]
        omega
      obtain ⟨hadd, hsum, hleft⟩ := toNat_add_of_le hlen hle
      have hne : (t.Unserialize m b (size - len)).ret ≠ -1 :=
        ne_neg_one_of_lt (by omega : _ < (size - len).toNat)
      have hrest : ∀ x, b + t.least ≤ x → m.bytes x = bytes x :=
        fun x hx => (hm x (by omega)).trans (if_neg (by omega))
      obtain ⟨p, hp, hlt⟩ := hover m buffer size _ hrest (by omega) hsum (by omega)
      exact ⟨p, mem_touched_rest (by rw [hb]) hne hp, by omega⟩
    · obtain ⟨bytes, k, hpos, hk, hover⟩ := t.exists_overread room ht b
      refine ⟨bytes, k, hpos, hk, fun m buffer size len hm hb _ hsize => ?_⟩
      obtain ⟨p, hp, hlt⟩ := hover m (size - len) hm hsize
      obtain rfl := hb
      exact ⟨p, mem_touched_cons hp, hlt⟩

end

theorem not_bounded {t : Ty} (h : ¬ t.Sound (2 ^ 32 - 1)) :
    ∃ m buffer size, ¬ Bounded buffer size (t.Unserialize m buffer size) := by
  obtain ⟨bytes, k, -, hk, hover⟩ := t.exists_overread _ h 0
  have hsize : (UInt32.ofNat k).toNat = k := by
    rw [UInt32.toNat_ofNat', Nat.mod_eq_of_lt (by omega)]
  obtain ⟨p, hp, hlt⟩ := hover ⟨bytes, []⟩ (UInt32.ofNat k) (fun _ _ => rfl) hsize
  refine ⟨⟨bytes, []⟩, 0, UInt32.ofNat k, fun hb => ?_⟩
  have hin := (hb.touched p hp).2
  omega

theorem Ty.bounded_iff (t : Ty) :
    (∀ m buffer size, Bounded buffer size (t.Unserialize m buffer size)) ↔ t.Sound (2 ^ 32 - 1) := by
  constructor
  · intro h
    by_contra hsound
    obtain ⟨m, buffer, size, hnot⟩ := not_bounded hsound
    exact hnot (h m buffer size)
  · intro h m buffer size
    have hsize := size.toNat_lt
    exact (t.bounded _ h m buffer size (by omega)).bounded

/-- Whatever the memory, the address and the size, `Unserialize` stays in its bounds exactly
when every array in the type is one of bytes, or of none, or is never reached with as many
bytes left as it has elements. -/
theorem unserialize_bounded_iff (t : Ty) (msg : Message) :
    ((∀ m buffer size, Bounded buffer size (t.Unserialize m buffer size)) ↔
      t.Sound (2 ^ 32 - 1)) ∧
    ((∀ m buffer size, Bounded buffer size (msg.Unserialize m buffer size)) ↔
      msg.members.Sound (2 ^ 32 - 1)) :=
  ⟨t.bounded_iff, Ty.bounded_iff (.struct msg.members)⟩

/-- A message of an array of four `Int32` and a fifth, with four bytes. -/
theorem unserialize_out_of_bounds :
    let r := Message.Unserialize ⟨.cons (.array 4 4) (.cons (.scalar .Int32) .nil), by decide⟩
      ⟨fun _ => 0, []⟩ 0 4
    (r.touched = [(0, 16), (16, 4)] ∧ r.ret = 20 ∧ r.left = [(4, 0), (4, 16)]) ∧
      ¬ Bounded 0 4 r := by
  refine ⟨by decide, fun h => ?_⟩
  have hin := h.left (4, 16) (by decide)
  exact absurd hin (by decide)

end RgcFifa
