import RgcFifa.Lib.Transition
import RgcFifa.StreamOps

/-! The cursor of a `Stream` under any operations. Those that make the buffer shorter leave the
cursor where it is, and those that clamp compare a sum that wraps. -/

namespace RgcFifa

open ByteWords Transition

/-- The bytes of a `std::vector<UInt8>`. -/
abbrev Buffer := { b : List UInt8 // b.length ≤ maxSize }

def Datum.Sized : Datum → Prop
  | bytes v => v.length ≤ maxSize
  | _ => True

/-- `append` and `prepend` are given the bytes that their arguments point to, and `>>` the object
with what it holds. -/
inductive StreamOp where
  | append (b : List UInt8)
  | prepend (b : List UInt8)
  | append_zero (len : UInt64)
  | pop_front (n : UInt64)
  | remove (s n : UInt64)
  | clear
  | reset
  | read (len : UInt64)
  | skip (n : UInt32)
  | back (n : UInt32)
  | get (junk : UInt32) (d : { d : Datum // d.Sized })
  | put (f : Field)
  | eos

namespace StreamOp

def step : StreamOp → Stream → Option Stream
  | append b, st => some (st.appendAll [b])
  | prepend b, st => some (st.prepend b)
  | append_zero len, st => some (st.append_zero len.toNat)
  | pop_front n, st => some (st.pop_front n.toNat)
  | remove s n, st => st.remove s.toNat n.toNat
  | clear, st => some st.clear
  | reset, st => some st.reset
  | read len, st => (st.read len.toNat).map ReadCall.next
  | skip n, st => some (st.skip n)
  | back n, st => some (st.back n)
  | get junk d, st => (st.get junk d.1).map Prod.snd
  | put f, st => some (st.put f)
  | eos, st => some st.eos

/-- What `read` and `remove` are to do. -/
def Exact : StreamOp → Stream → Stream → Prop
  | read len, st, _ => ∃ r, st.read len.toNat = some r ∧
      r.copied.length = min len.toNat st.left ∧
      r.copied = (st.buf.drop st.pos).take (min len.toNat st.left) ∧
      r.ret = (min len.toNat st.left : ℕ)
  | remove s n, st, t => t.buf = st.buf.take s.toNat ++ st.buf.drop (s.toNat + n.toNat)
  | _, _, _ => True

/-- The operation ends with the cursor in the buffer, and does what it is to do. -/
def Meets (op : StreamOp) (st : Stream) : Prop :=
  ∃ t, op.step st = some t ∧ (t.pos ≤ t.size ∧ t.left + t.pos = t.size) ∧ op.Exact st t

/-- No sum wraps, nothing is removed from in front of the cursor, and what is read has a size that
an `int` can hold. -/
def Keeps : StreamOp → Stream → Prop
  | append_zero len, st => st.pos ≤ (st.size + len.toNat) % 2 ^ 64
  | pop_front n, st => st.pos ≤ st.size - n.toNat
  | remove s n, st => st.size ≤ s.toNat ∨
      s.toNat + n.toNat < 2 ^ 64 ∧ st.pos ≤ st.size - min n.toNat (st.size - s.toNat)
  | read len, st => st.pos + len.toNat < 2 ^ 64 ∧ min len.toNat st.left < 2 ^ 31
  | _, _ => True

end StreamOp

namespace Stream

variable {st : Stream} {d : Datum} {bss : List (List UInt8)} {n : ℕ}

theorem InBounds.seek {p : ℕ} (h : st.InBounds) (hp : p ≤ st.size) : (st.seek p).InBounds :=
  ⟨hp, h.size_le⟩

theorem InBounds.appendAll (h : st.InBounds) : (st.appendAll bss).InBounds := by
  induction bss generalizing st with
  | nil => exact h
  | cons b bss ih =>
    rw [Stream.appendAll]
    split_ifs with hle
    · apply ih
      have hpos := h.pos_le
      refine ⟨?_, by rwa [size_append]⟩
      rw [size_append]
      exact hpos.trans (Nat.le_add_right _ _)
    · exact h

theorem InBounds.prepend (b : List UInt8) (h : st.InBounds) : (st.prepend b).InBounds := by
  have hpos := h.pos_le
  rw [Stream.prepend]
  split_ifs with hle
  · refine ⟨?_, ?_⟩
    · change st.pos ≤ (b ++ st.buf).length
      rw [List.length_append]
      exact hpos.trans (Nat.le_add_left _ _)
    · change (b ++ st.buf).length ≤ maxSize
      rw [List.length_append]
      rw [size] at hle
      omega
  · exact h

theorem inBounds_clear (st : Stream) : st.clear.InBounds := ⟨le_rfl, Nat.zero_le _⟩

theorem InBounds.skip (n : UInt32) (h : st.InBounds) : (st.skip n).InBounds := by
  apply h.seek
  split_ifs with hgt
  · exact le_rfl
  · exact Nat.le_of_not_gt hgt

theorem InBounds.back (n : UInt32) (h : st.InBounds) : (st.back n).InBounds := by
  have hpos := h.pos_le
  rw [Stream.back]
  split_ifs with hlt
  · exact h.seek (Nat.zero_le _)
  · exact h.seek (by omega)

theorem InBounds.eos (h : st.InBounds) : st.eos.InBounds := by
  have hpos : st.eos.pos = st.pos := by
    rw [Stream.eos, setLength]
    split_ifs <;> rfl
  refine ⟨?_, ?_⟩
  · rw [hpos, size_eos]
    exact h.pos_le
  · rw [size_eos]
    exact h.size_le

theorem InBounds.readInto_inBounds (old : List UInt8) (h : st.InBounds)
    (hlen : old.length ≤ maxSize) : ∃ bs t, st.readInto old = some (bs, t) ∧ t.InBounds := by
  obtain ⟨bs, -, hread⟩ := h.readInto hlen
  exact ⟨bs, _, hread, h.seek_min _⟩

/-- Its length is one that is there, whatever was read for it. -/
theorem InBounds.getString (junk : UInt16) (h : st.InBounds) :
    ∃ v t, st.getString junk = some (v, t) ∧ t.InBounds := by
  have hsize : (le 2 junk.toNat).length ≤ maxSize := by
    rw [length_le]
    decide
  obtain ⟨bs, t, hread, ht⟩ := h.readInto_inBounds _ hsize
  have hleft := ht.left_eq
  have hpos := ht.pos_le
  have hlen := clamp_le (UInt16.ofNat (leNat bs)) t.left
  rw [Stream.getString, hread, Option.bind_some]
  dsimp only
  rw [if_pos (.inr (by omega))]
  exact ⟨_, _, rfl, ht.seek (by omega)⟩

theorem InBounds.get (junk : UInt32) (hd : d.Sized) (h : st.InBounds) :
    ∃ v t, st.get junk d = some (v, t) ∧ t.InBounds := by
  cases d with
  | scalar k v =>
    have hk := k.sizeof_le.2
    have hsize : (le k.sizeof v.toNat).length ≤ maxSize := by
      rw [length_le]
      exact hk.trans (by decide)
    obtain ⟨bs, t, hread, ht⟩ := h.readInto_inBounds _ hsize
    exact ⟨_, t, by rw [Stream.get, hread, Option.map_some], ht⟩
  | string v =>
    obtain ⟨w, t, hread, ht⟩ := h.getString junk.toUInt16
    exact ⟨_, t, by rw [Stream.get, hread, Option.map_some], ht⟩
  | bytes v =>
    obtain ⟨w, t, hread, ht⟩ := h.readInto_inBounds _ hd
    exact ⟨_, t, by rw [Stream.get, hread, Option.map_some], ht⟩

theorem inBounds_withBuf {b : List UInt8} (hn : b.length = n) (hmax : n ≤ maxSize) :
    ({ st with buf := b } : Stream).InBounds ↔ st.pos ≤ n := by
  constructor
  · intro ht
    exact ht.pos_le.trans_eq hn
  · intro hle
    exact ⟨hle.trans_eq hn.symm, hn.trans_le hmax⟩

theorem InBounds.append_zero_iff (h : st.InBounds) :
    (st.append_zero n).InBounds ↔ st.pos ≤ (st.size + n) % 2 ^ 64 := by
  have hpos := h.pos_le
  have hmax := h.size_le
  rw [append_zero]
  by_cases hzero : n > 0
  · rw [if_pos hzero]
    dsimp only
    split_ifs with hfit
    · apply inBounds_withBuf _ hfit
      rw [List.length_append, List.length_take, List.length_replicate, size]
      omega
    · exact iff_of_true h (by omega)
  · rw [if_neg hzero]
    refine iff_of_true h ?_
    rw [maxSize] at hmax
    omega

theorem InBounds.pop_front_iff (h : st.InBounds) :
    (st.pop_front n).InBounds ↔ st.pos ≤ st.size - n := by
  have hmax := h.size_le
  rw [pop_front]
  split_ifs with hall
  · exact inBounds_withBuf (Nat.sub_eq_zero_of_le hall).symm (by omega)
  · exact inBounds_withBuf List.length_drop (by omega)

/-- Unless the sum wraps, `remove` leaves out what is there of the range. -/
theorem remove_eq {s : ℕ} (hs : s < st.size) (hfit : s + n < 2 ^ 64) :
    st.remove s n = some { st with buf := st.buf.take s ++ st.buf.drop (s + n) } := by
  rw [remove, if_neg (Nat.not_le.mpr hs), Nat.mod_eq_of_lt hfit]
  split_ifs with hgt
  · have hend : s + (st.size - s) = st.buf.length := by
      rw [size] at hs ⊢
      omega
    have hdrop : st.buf.drop (s + n) = [] := List.drop_eq_nil_of_le (by rw [size] at hgt; omega)
    rw [if_pos (by rw [hend]; exact le_rfl), hend, List.drop_length, hdrop]
  · rw [if_pos (by omega)]

theorem remove_wraps {s : ℕ} (h : st.InBounds) (hs : s < st.size) (hn : n < 2 ^ 64)
    (hwrap : 2 ^ 64 ≤ s + n) : st.remove s n = none := by
  have hmax := h.size_le
  rw [maxSize] at hmax
  have hsum : ¬ (s + n) % 2 ^ 64 > st.size := by omega
  rw [remove, if_neg (Nat.not_le.mpr hs)]
  simp only [hsum, if_false]
  rw [if_neg (by omega)]

theorem InBounds.remove_iff {s : ℕ} (h : st.InBounds) (hn : n < 2 ^ 64) :
    (∃ t, st.remove s n = some t ∧ t.InBounds ∧ t.buf = st.buf.take s ++ st.buf.drop (s + n)) ↔
      st.size ≤ s ∨ s + n < 2 ^ 64 ∧ st.pos ≤ st.size - min n (st.size - s) := by
  have hmax := h.size_le
  by_cases hs : st.size ≤ s
  · have hall : st.buf.take s ++ st.buf.drop (s + n) = st.buf := by
      rw [List.take_of_length_le hs, List.drop_eq_nil_of_le (hs.trans (Nat.le_add_right _ _)),
        List.append_nil]
    refine iff_of_true ⟨st, ?_, h, hall.symm⟩ (.inl hs)
    rw [remove, if_pos hs]
  · rw [or_iff_right hs]
    by_cases hfit : s + n < 2 ^ 64
    · have hsize : (st.buf.take s ++ st.buf.drop (s + n)).length =
          st.size - min n (st.size - s) := by
        rw [List.length_append, List.length_take, List.length_drop]
        rw [size] at hs ⊢
        omega
      rw [remove_eq (Nat.not_le.mp hs) hfit, and_iff_right hfit,
        ← inBounds_withBuf hsize ((Nat.sub_le _ _).trans hmax)]
      constructor
      · rintro ⟨t, ht, hin, -⟩
        obtain rfl := Option.some.inj ht
        exact hin
      · intro hin
        exact ⟨_, rfl, hin, rfl⟩
    · rw [remove_wraps h (Nat.not_le.mp hs) hn (Nat.not_lt.mp hfit)]
      refine iff_of_false ?_ fun hc => hfit hc.1
      rintro ⟨t, ht, -⟩
      cases ht

/-- A sum that wraps is small, so that nothing is cut off. -/
theorem InBounds.read_wraps (h : st.InBounds) (hn : n < 2 ^ 64) (hwrap : 2 ^ 64 ≤ st.pos + n) :
    st.read n = none := by
  have hpos := h.pos_le
  have hmax := h.size_le
  rw [maxSize] at hmax
  have hsum : ¬ (st.pos + n) % 2 ^ 64 > st.size := by omega
  rw [Stream.read]
  simp only [hsum, if_false]
  rw [if_neg (by omega), if_neg (by omega)]

theorem size_append_zero_le (h : st.size ≤ maxSize) : (st.append_zero n).size ≤ maxSize := by
  rw [append_zero]
  dsimp only
  split_ifs with hzero hfit
  · change (_ ++ _ : List UInt8).length ≤ maxSize
    rw [List.length_append, List.length_take, List.length_replicate]
    rw [size] at hfit ⊢
    omega
  · exact h
  · exact h

theorem size_pop_front_le : (st.pop_front n).size ≤ st.size := by
  rw [pop_front]
  split_ifs with hall
  · exact Nat.zero_le _
  · exact (st.buf.length_drop).trans_le (Nat.sub_le _ _)

theorem bmod_eq_iff {m : ℕ} (hm : m < 2 ^ 63) : Int.bmod m (2 ^ 32) = (m : ℤ) ↔ m < 2 ^ 31 := by
  rw [Int.bmod_def]
  split_ifs <;> omega

end Stream

namespace StreamOp

variable {op : StreamOp} {st t : Stream}

theorem cursor_iff (hmax : t.size ≤ maxSize) :
    t.pos ≤ t.size ∧ t.left + t.pos = t.size ↔ t.InBounds := by
  constructor
  · intro h
    exact ⟨h.1, hmax⟩
  · intro h
    have hpos := h.pos_le
    have hleft := h.left_eq
    exact ⟨hpos, by omega⟩

theorem size_remove_le {s n : ℕ} (h : st.remove s n = some t) : t.size ≤ st.size := by
  rw [Stream.remove] at h
  dsimp only at h
  split_ifs at h
  all_goals
    obtain rfl := Option.some.inj h
    simp only [Stream.size, List.length_append, List.length_take, List.length_drop]
    omega

theorem exact_read_iff {len : UInt64} (h : st.InBounds) (hfit : st.pos + len.toNat < 2 ^ 64) :
    (read len).Exact st t ↔ min len.toNat st.left < 2 ^ 31 := by
  have hpos := h.pos_le
  have hmax := h.size_le
  have hleft := h.left_eq
  have hread := h.read hfit
  rw [maxSize] at hmax
  have hlen : ((st.buf.drop st.pos).take (min len.toNat st.left)).length =
      min len.toNat st.left := by
    rw [List.length_take, List.length_drop]
    rw [Stream.size] at hleft
    omega
  have hret : Int.bmod (min len.toNat st.left : ℕ) (2 ^ 32) = (min len.toNat st.left : ℕ) ↔
      min len.toNat st.left < 2 ^ 31 := Stream.bmod_eq_iff (by omega)
  simp only [Exact, hread, Option.some.injEq, exists_eq_left', hlen, true_and, hret]

theorem exists_step (h : st.InBounds) (hkeeps : op.Keeps st) :
    ∃ t, op.step st = some t ∧ t.InBounds ∧ op.Exact st t := by
  cases op with
  | append b => exact ⟨_, rfl, h.appendAll, trivial⟩
  | prepend b => exact ⟨_, rfl, h.prepend b, trivial⟩
  | append_zero len => exact ⟨_, rfl, h.append_zero_iff.mpr hkeeps, trivial⟩
  | pop_front n => exact ⟨_, rfl, h.pop_front_iff.mpr hkeeps, trivial⟩
  | remove s n => exact (h.remove_iff n.toNat_lt).mpr hkeeps
  | clear => exact ⟨_, rfl, st.inBounds_clear, trivial⟩
  | reset => exact ⟨_, rfl, h.seek (Nat.zero_le _), trivial⟩
  | read len =>
    have hread := h.read hkeeps.1
    have hstep : (read len).step st = some (st.seek (st.pos + min len.toNat st.left)) :=
      congrArg (Option.map _) hread
    exact ⟨_, hstep, h.seek_min _, (exact_read_iff h hkeeps.1).mpr hkeeps.2⟩
  | skip n => exact ⟨_, rfl, h.skip n, trivial⟩
  | back n => exact ⟨_, rfl, h.back n, trivial⟩
  | get junk d =>
    obtain ⟨v, t, hget, ht⟩ := h.get junk d.2
    exact ⟨t, congrArg (Option.map _) hget, ht, trivial⟩
  | put f => exact ⟨_, rfl, h.appendAll, trivial⟩
  | eos => exact ⟨_, rfl, h.eos, trivial⟩

theorem keeps_of_meets (h : st.InBounds) (hmeets : op.Meets st) : op.Keeps st := by
  obtain ⟨t, ht, hcursor, hexact⟩ := hmeets
  cases op with
  | append_zero len =>
    obtain rfl := Option.some.inj ht
    have hmax := Stream.size_append_zero_le (n := len.toNat) h.size_le
    exact h.append_zero_iff.mp ((cursor_iff hmax).mp hcursor)
  | pop_front n =>
    obtain rfl := Option.some.inj ht
    have hmax := (Stream.size_pop_front_le (n := n.toNat)).trans h.size_le
    exact h.pop_front_iff.mp ((cursor_iff hmax).mp hcursor)
  | remove s n =>
    have hmax := (size_remove_le ht).trans h.size_le
    exact (h.remove_iff n.toNat_lt).mp ⟨t, ht, (cursor_iff hmax).mp hcursor, hexact⟩
  | read len =>
    by_cases hfit : st.pos + len.toNat < 2 ^ 64
    · exact ⟨hfit, (exact_read_iff h hfit).mp hexact⟩
    · obtain ⟨r, hr, -⟩ := hexact
      rw [h.read_wraps len.toNat_lt (Nat.not_lt.mp hfit)] at hr
      cases hr
  | _ => trivial

theorem meets_iff (h : st.InBounds) : op.Meets st ↔ op.Keeps st := by
  constructor
  · intro hmeets
    exact keeps_of_meets h hmeets
  · intro hkeeps
    obtain ⟨t, hstep, ht, hexact⟩ := exists_step h hkeeps
    exact ⟨t, hstep, (cursor_iff ht.size_le).mpr ht, hexact⟩

theorem inBounds_step (h : st.InBounds) (hkeeps : op.Keeps st) (hstep : op.step st = some t) :
    t.InBounds := by
  obtain ⟨u, hu, hin, -⟩ := exists_step h hkeeps
  obtain rfl := Option.some.inj (hu.symm.trans hstep)
  exact hin

end StreamOp

theorem stream_cursor_iff (b : Buffer) (ops : List StreamOp) :
    Always StreamOp.step StreamOp.Meets ops ⟨b, 0⟩ ↔
      Always StreamOp.step StreamOp.Keeps ops ⟨b, 0⟩ := by
  have hstart : Stream.InBounds ⟨b, 0⟩ := ⟨Nat.zero_le _, b.2⟩
  apply always_congr_of _ _ hstart
  · intro op st t h hmeets hstep
    exact StreamOp.inBounds_step h (StreamOp.keeps_of_meets h hmeets) hstep
  · intro op st h
    exact StreamOp.meets_iff h

/-- Three bytes are skipped, and two of them are taken from the front: the cursor is two bytes past
the end, and the next read would copy nearly `2 ^ 64`. -/
theorem stream_cursor_past :
    ¬ Always StreamOp.step StreamOp.Meets [.skip 3, .pop_front 2] ⟨[1, 2, 3], 0⟩ := by
  rintro ⟨-, hrest⟩
  obtain ⟨⟨t, ht, hcursor, -⟩, -⟩ := hrest _ rfl
  obtain rfl := Option.some.inj ht
  revert hcursor
  decide

end RgcFifa
