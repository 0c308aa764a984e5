import RgcFifa.SerializeRoundTrip
import RgcFifa.StreamFields

/-! Strings of any length in front of another field. The length that is written has 16 bits, and
each of the three encoders has its own number of bytes behind it. -/

namespace RgcFifa

open ByteWords

section

variable {st : Stream} {s : List UInt8} {N : ℕ}

/-- How much of the string is taken for the string when `N` bytes follow it. -/
def taken (s : List UInt8) (N : ℕ) : ℕ := Stream.textLength (s.length % 65536) (s.length + N)

theorem taken_le (s : List UInt8) (N : ℕ) : taken s N ≤ s.length :=
  (min_le_left _ _).trans (Nat.mod_le _ _)

theorem taken_eq_iff : taken s N = s.length ↔
    s.length < 65536 ∧ s.length ≤ (s.length + N) % 2 ^ 32 := by
  rw [taken, Stream.textLength]
  omega

theorem encoded_string (s : List UInt8) :
    (Field.string s).encoded = le 2 (s.length % 65536) ++ s := by
  simp [Field.encoded, Field.appends]

/-- The field behind the string starts where the string is thought to end. -/
theorem ahead_second (st : Stream) (s : List UInt8) (f : Field) (junk : UInt32) (old : List UInt8)
    (hsize : st.size + (2 + s.length + f.encoded.length) ≤ maxSize) :
    ∃ t, (((st.put (.string s)).put f).seek st.size).get junk (.string old) =
        some (.string (s.take (taken s f.encoded.length)), t) ∧
      t.Ahead (s.drop (taken s f.encoded.length) ++ f.encoded) := by
  have hall : [Field.string s, f].flatMap Field.encoded =
      le 2 (s.length % 65536) ++ (s ++ f.encoded) := by
    simp [encoded_string]
  have hput := @Stream.ahead_putAll st [.string s, f] (by
    rw [hall]
    simp only [List.length_append, length_le]
    omega)
  have hle := taken_le s f.encoded.length
  rw [hall] at hput
  have hget := hput.getString junk.toUInt16 (Nat.mod_lt _ (by decide))
  have hcut : Stream.textLength (s.length % 65536) (s ++ f.encoded).length =
      taken s f.encoded.length := by rw [List.length_append, taken]
  rw [hcut] at hget
  have hsplit : le 2 (s.length % 65536) ++ (s ++ f.encoded) =
      (le 2 (s.length % 65536) ++ s.take (taken s f.encoded.length)) ++
        (s.drop (taken s f.encoded.length) ++ f.encoded) := by
    rw [List.append_assoc, ← List.append_assoc (s.take _), List.take_append_drop]
  have hend : (le 2 (s.length % 65536) ++ s.take (taken s f.encoded.length)).length =
      2 + taken s f.encoded.length := by
    rw [List.length_append, length_le, List.length_take, min_eq_left hle]
  rw [hsplit] at hput
  have hrest := hput.seek
  rw [hend, ← Nat.add_assoc] at hrest
  refine ⟨_, ?_, hrest⟩
  rw [List.take_append_of_le_length hle] at hget
  exact congrArg (Option.map _) hget

theorem getAll_pair {junk : UInt32} {d v w : Datum} (slot : UInt32 × Datum) {t u : Stream}
    (hfirst : st.get junk d = some (v, t)) (hsecond : t.get slot.1 slot.2 = some (w, u)) :
    st.getAll [(junk, d), slot] = some ([v, w], u) := by
  simp only [Stream.getAll, hfirst, hsecond, Option.bind_some, Option.map_some]

/-- What follows the string is read from the right place. -/
theorem second_get {f : Field} {slot : UInt32 × Datum} (junk : UInt32) (old : List UInt8)
    (hv : f.Valid) (hd : slot.2.Fits f)
    (hsize : st.size + (2 + s.length + f.encoded.length) ≤ maxSize)
    (htaken : taken s f.encoded.length = s.length) :
    ∃ s' d t, f.datum = some d ∧
      (((st.put (.string s)).put f).seek st.size).getAll [(junk, .string old), slot] =
        some ([.string s', d], t) := by
  obtain ⟨t, hget, ht⟩ := ahead_second st s f junk old hsize
  rw [htaken, List.drop_length, List.nil_append, ← List.append_nil f.encoded] at ht
  have htext : ∀ v, f.text = some v → v.length ≤ (v.length + List.length ([] : List UInt8)) % 2 ^ 32 := by
    intro v hfv
    have hlen := (f.encoded_text hv hfv).1
    rw [List.length_nil]
    omega
  obtain ⟨d, hdatum, hsecond⟩ := ht.get slot.1 hd hv htext
  exact ⟨_, d, _, hdatum, getAll_pair slot hget hsecond⟩

/-- Reading the string and the field behind it gives the field back. -/
def SecondKept (st : Stream) (s : List UInt8) (f : Field) : Prop :=
  ∀ (slot : UInt32 × Datum) (junk : UInt32) (old : List UInt8), slot.2.Fits f →
    ∃ s' d t, f.datum = some d ∧
      (((st.put (.string s)).put f).seek st.size).getAll [(junk, .string old), slot] =
        some ([.string s', d], t)

/-- Bytes that do not start as what is left of the string are not found. -/
theorem not_secondKept (st : Stream) {x : UInt8} {v : List UInt8}
    (hsize : st.size + (2 + s.length + (x :: v).length) ≤ maxSize)
    (hlt : taken s (x :: v).length < s.length) (hx : s[taken s (x :: v).length] ≠ x) :
    ¬ SecondKept st s (.bytes (x :: v)) := by
  intro hkept
  have henc : (Field.bytes (x :: v)).encoded = x :: v := List.append_nil _
  obtain ⟨u, hget, hu⟩ := ahead_second st s (.bytes (x :: v)) 0 []
    (by rwa [henc])
  obtain ⟨s', d, t, hdatum, hall⟩ := hkept (0, .bytes (x :: v)) 0 [] rfl
  obtain rfl := Option.some.inj hdatum
  rw [henc] at hget hu
  rw [← List.take_append_drop (x :: v).length (s.drop _ ++ x :: v)] at hu
  have hread := hu.readInto (x :: v) (by
    rw [List.length_take, List.length_append]
    omega)
  have hsecond : u.get 0 (.bytes (x :: v)) =
      some (.bytes ((s.drop (taken s (x :: v).length) ++ x :: v).take (x :: v).length), _) :=
    congrArg (Option.map _) hread
  rw [getAll_pair _ hget hsecond] at hall
  simp only [Option.some.injEq, Prod.mk.injEq, List.cons.injEq, Datum.bytes.injEq] at hall
  have heq := hall.1.2.1
  rw [List.drop_eq_getElem_cons hlt] at heq
  exact hx (List.cons.inj heq).1

theorem encoded_nil {f : Field} (h : f.encoded.length = 0) : f = .bytes [] := by
  cases f with
  | scalar k v =>
    have hk := k.sizeof_le
    simp [Field.encoded, Field.appends] at h
    omega
  | string v => simp [encoded_string] at h
  | chars v => cases v <;> simp [Field.encoded, Field.appends] at h
  | vector k v => simp [Field.encoded, Field.appends] at h
  | bytes v => simpa [Field.encoded, Field.appends] using h

/-- A field of no bytes is found anywhere. -/
theorem second_empty {f : Field} {slot : UInt32 × Datum} (junk : UInt32) (old : List UInt8)
    (hd : slot.2.Fits f) (hN : f.encoded.length = 0)
    (hsize : st.size + (2 + s.length + f.encoded.length) ≤ maxSize) :
    ∃ s' d t, f.datum = some d ∧
      (((st.put (.string s)).put f).seek st.size).getAll [(junk, .string old), slot] =
        some ([.string s', d], t) := by
  obtain ⟨t, hget, ht⟩ := ahead_second st s f junk old hsize
  obtain rfl := encoded_nil hN
  obtain ⟨junk', d⟩ := slot
  cases d with
  | bytes v =>
    obtain rfl : v = [] := List.eq_nil_of_length_eq_zero hd
    rw [← List.nil_append (_ ++ _)] at ht
    have hread := ht.readInto [] rfl
    have hsecond : t.get junk' (.bytes []) = some (.bytes [], _) := congrArg (Option.map _) hread
    exact ⟨_, _, _, rfl, getAll_pair (junk', .bytes []) hget hsecond⟩
  | _ => exact hd.elim

theorem secondKept_iff (hsize : st.size + (2 + s.length + N) ≤ maxSize) :
    (∀ f : Field, f.Valid → f.Readable → f.encoded.length = N → SecondKept st s f) ↔
      N = 0 ∨ s.length < 65536 ∧ s.length ≤ (s.length + N) % 2 ^ 32 := by
  rw [← taken_eq_iff]
  constructor
  · intro hkept
    by_contra hnot
    obtain ⟨hN, hne⟩ := not_or.mp hnot
    obtain ⟨n, rfl⟩ : ∃ n, N = n + 1 := ⟨N - 1, by omega⟩
    have hlt := (taken_le s (n + 1)).lt_of_ne hne
    let v : List UInt8 := (s[taken s (n + 1)] + 1) :: List.replicate n 0
    have hlen : v.length = n + 1 := by simp [v]
    refine not_secondKept st (s := s) (x := s[taken s (n + 1)] + 1)
      (v := List.replicate n 0) (by simpa using hsize) (by simpa using hlt) (by simp)
      (hkept (.bytes v) trivial ⟨_, rfl⟩ ?_)
    rw [← hlen]
    exact congrArg List.length (List.append_nil v)
  · rintro hcond f hv - rfl slot junk old hd
    rcases hcond with hzero | htaken
    · exact second_empty junk old hd hzero hsize
    · exact second_get junk old hv hd hsize htaken

/-- Without the end of the string `operator<<` for a `const char *` goes only as far as 16 bits
reach. -/
theorem put_chars_iff (hsize : st.size + (2 + s.length) ≤ maxSize) :
    st.put (.string s) = st.put (.chars (some s)) ↔ s.length < 65536 := by
  have hstring : st.put (.string s) = st.append (Field.string s).encoded :=
    Stream.appendAll_eq (by
      simp only [Field.appends, List.flatten_cons, List.flatten_nil, List.append_nil,
        List.length_append, length_le]
      omega)
  have hchars : st.put (.chars (some s)) = st.append (Field.chars (some s)).encoded :=
    Stream.appendAll_eq (by
      simp only [Field.appends, List.flatten_cons, List.flatten_nil, List.append_nil,
        List.length_append, length_le, List.length_take]
      omega)
  have hlen : (UInt16.ofNat s.length).toNat = s.length % 65536 := UInt16.toNat_ofNat'
  rw [hstring, hchars]
  simp only [Field.encoded, Field.appends, Stream.append, hlen, List.flatten_cons,
    List.flatten_nil, List.append_nil, Stream.mk.injEq, and_true, List.append_cancel_left_eq]
  constructor
  · intro heq
    have hcut := congrArg List.length heq
    rw [List.length_take] at hcut
    omega
  · intro hlt
    rw [Nat.mod_eq_of_lt hlt, List.take_length]

end

/-! `S11NTraits<std::string>`, which leaves the characters out when the 16 bits are zero. -/

section

variable {s bs : List UInt8} {N : ℕ} {ms : Members} {v : ms.Val} {m : Memory} {buffer : ℕ}
  {size : UInt32}

def payload (s : List UInt8) : List UInt8 := if 65536 ∣ s.length then [] else s

theorem serialize_string (s : List UInt8) :
    (Ty.Serialize .string s).bytes = le 2 (s.length % 65536) ++ payload s := by
  have hlen : (UInt16.ofNat s.length).toNat = s.length % 65536 := UInt16.toNat_ofNat'
  have hpos : UInt16.ofNat s.length > 0 ↔ ¬ 65536 ∣ s.length := by
    rw [gt_iff_lt, UInt16.lt_iff_toNat_lt, hlen, Nat.dvd_iff_mod_eq_zero]
    exact Nat.pos_iff_ne_zero
  rw [Ty.Serialize, payload]
  simp only [hlen, hpos, ite_not]

/-- The number added up does not come into the bytes. -/
theorem Members.bytes_acc : (ms : Members) → (v : ms.Val) → (acc acc' : UInt32) →
    (ms.Serialize v acc).bytes = (ms.Serialize v acc').bytes
  | .nil, _, _, _ => rfl
  | .cons t ms, (v, vs), acc, acc' => by
    simp only [Members.Serialize]
    rw [ms.bytes_acc vs (acc + _) (acc' + _)]

/-- A message of a string and other members. -/
abbrev withString (ms : Members) : Ty := .struct (.cons .string ms)

theorem serialize_withString (ms : Members) (s : List UInt8) (v : ms.Val) :
    ((withString ms).Serialize (s, v)).bytes =
      le 2 (s.length % 65536) ++ (payload s ++ (ms.Serialize v 0).bytes) := by
  rw [← List.append_assoc, ← serialize_string,
    ms.bytes_acc v 0 (0 + (Ty.Serialize .string s).ret)]
  rfl

/-- The string is read as far as 16 bits say, and the members after it from there. -/
theorem unserialize_withString (ms : Members) {n : ℕ} (hn : n < 65536) (hle : n ≤ bs.length)
    (h : Given m buffer size 0 (le 2 n ++ bs)) :
    ∃ len, Given m buffer size len (bs.drop n) ∧ len.toNat = 2 + n ∧
      ((withString ms).Unserialize m buffer size).ret = (ms.Unserialize m buffer size len).ret ∧
      ((withString ms).Unserialize m buffer size).value =
        (ms.Unserialize m buffer size len).value.map (bs.take n, ·) := by
  have hlen : (bs.take n).length = n := by rw [List.length_take, min_eq_left hle]
  have hsplit : le 2 n ++ bs = (le 2 (bs.take n).length ++ bs.take n) ++ bs.drop n := by
    rw [hlen, List.append_assoc, List.take_append_drop]
  rw [hsplit] at h
  have hr := restores_string (by omega) h.next
  have hne := hr.ret_ne (by omega)
  have hcount : (le 2 (bs.take n).length ++ bs.take n).length = 2 + n := by
    rw [List.length_append, length_le, hlen]
  have hret := hr.ret_eq
  rw [hlen, ← hcount] at hret
  obtain ⟨hrest, hadd⟩ := h.rest hret
  rw [hcount, UInt32.toNat_zero, Nat.zero_add] at hadd
  refine ⟨_, hrest, hadd, ?_, ?_⟩
  · change (Members.Unserialize (.cons .string ms) m buffer size 0).ret = _
    rw [Members.Unserialize]
    simp only [if_neg hne]
  · change (Members.Unserialize (.cons .string ms) m buffer size 0).value = _
    rw [Members.Unserialize]
    simp only [if_neg hne, hr.value_eq]
    rfl

/-- `Unserialize` gives the members behind the string back. -/
def MembersKept (s : List UInt8) (ms : Members) (v : ms.Val) : Prop :=
  ∀ m buffer size suffix, Received m buffer size ((withString ms).Serialize (s, v)).bytes suffix →
    ∃ s', ((withString ms).Unserialize m buffer size).ret ≠ -1 ∧
      ((withString ms).Unserialize m buffer size).value = some (s', v)

theorem Given.left {len : UInt32} {vs : List UInt8} (h : Given m buffer size len (bs ++ vs)) :
    Given m buffer size len bs := by
  have hfits := h.fits
  have hlt := h.lt
  rw [List.length_append] at hfits hlt
  exact ⟨(Memory.read_append.mp h.read_eq).1, by omega, by omega⟩

/-- The members are read from what the string has left for them. -/
theorem membersKept_of_prefix (hv : ms.Small v)
    (hpre : (ms.Serialize v 0).bytes <+:
      (payload s ++ (ms.Serialize v 0).bytes).drop (s.length % 65536))
    (hle : s.length % 65536 ≤ (payload s).length) : MembersKept s ms v := by
  intro m buffer size suffix hrec
  have hgiven := hrec.given
  rw [serialize_withString] at hgiven
  obtain ⟨len, hrest, -, hret, hvalue⟩ := unserialize_withString ms (Nat.mod_lt _ (by decide))
    (by rw [List.length_append]; omega) hgiven
  obtain ⟨vs, hvs⟩ := hpre
  rw [← hvs] at hrest
  have hr := ms.restores v hv m buffer size len 0 hrest.left
  rw [hr.value_eq] at hvalue
  exact ⟨_, hret ▸ hr.ret_ne hrest.left.lt, hvalue⟩

theorem received_write (bs : List UInt8) (h : bs.length < 2 ^ 32 - 1) :
    Received (Memory.write ⟨fun _ => 0, []⟩ 0 bs) 0 (UInt32.ofNat bs.length) bs [] := by
  have hofNat : (UInt32.ofNat bs.length).toNat = bs.length := by
    rw [UInt32.toNat_ofNat', Nat.mod_eq_of_lt (by omega)]
  refine ⟨?_, by rw [List.append_nil], hofNat.ge, h⟩
  rw [List.append_nil]
  exact Memory.read_write_self _ 0 bs

theorem read_of_array {n : ℕ} {x : (Ty.array 1 n).Val}
    (h : (Ty.Unserialize (.array 1 n) m buffer size).value = some x) :
    x.1 = m.read buffer n := by
  have hx : x.1 = m.read buffer ((1 : ℕ+) * n) := by
    rw [Ty.Unserialize] at h
    split_ifs at h
    exact congrArg Subtype.val (Option.some.inj h).symm
  rw [hx, PNat.one_coe, Nat.one_mul]

theorem unserialize_single {t : Ty} {x : t.Val} {len : UInt32}
    (h : (Members.Unserialize (.cons t .nil) m buffer size len).value = some (x, ())) :
    (t.Unserialize m (buffer + len.toNat) (size - len)).value = some x := by
  rw [Members.Unserialize] at h
  split_ifs at h
  obtain ⟨y, hy, hpair⟩ := Option.bind_eq_some_iff.mp h
  obtain ⟨_, _, heq⟩ := Option.map_eq_some_iff.mp hpair
  rw [hy, (Prod.mk.inj heq).1]

/-- An array that does not start as the string goes on is lost. -/
theorem not_membersKept {x : UInt8} {v : List UInt8} {n : ℕ}
    (hdata : (x :: v).length = (1 : ℕ+) * n) (hsize : 2 + s.length + n < 2 ^ 32 - 1)
    (hlt : s.length % 65536 < s.length) (hdvd : ¬ 65536 ∣ s.length)
    (hx : s[s.length % 65536] ≠ x) :
    ¬ MembersKept s (.cons (.array 1 n) .nil) (⟨x :: v, hdata⟩, ()) := by
  intro hkept
  have hlen : (x :: v).length = n := hdata.trans (by rw [PNat.one_coe, Nat.one_mul])
  have hwhole := serialize_withString (.cons (.array 1 n) .nil) s (⟨x :: v, hdata⟩, ())
  have hbytes : ((Members.cons (.array 1 n) .nil).Serialize (⟨x :: v, hdata⟩, ()) 0).bytes =
      x :: v := List.append_nil _
  have hpay : payload s = s := if_neg hdvd
  rw [hbytes, hpay] at hwhole
  have hrec := received_write (le 2 (s.length % 65536) ++ (s ++ x :: v)) (by
    simp only [List.length_append, length_le, hlen]
    omega)
  have hgiven := hrec.given
  rw [← hwhole] at hrec
  obtain ⟨s', -, hvalue⟩ := hkept _ _ _ _ hrec
  rw [hwhole] at hvalue
  obtain ⟨len, hrest, -, -, hmap⟩ := unserialize_withString (.cons (.array 1 n) .nil)
    (Nat.mod_lt _ (by decide)) (by rw [List.length_append]; omega) hgiven
  rw [hmap] at hvalue
  obtain ⟨y, hy, hpair⟩ := Option.map_eq_some_iff.mp hvalue
  obtain ⟨-, rfl⟩ := Prod.mk.inj hpair
  have hread : x :: v = _ := read_of_array (unserialize_single hy)
  rw [List.drop_append_of_le_length hlt.le, List.drop_eq_getElem_cons hlt] at hrest
  obtain ⟨hfirst, -⟩ := List.cons.inj hrest.read_eq
  obtain rfl : n = v.length + 1 := hlen.symm
  rw [Memory.read] at hread
  obtain ⟨hlost, -⟩ := List.cons.inj hread
  exact hx (hfirst.symm.trans hlost.symm)

theorem membersKept_iff (hsize : 2 + s.length + N < 2 ^ 32 - 1) :
    (∀ (ms : Members) (v : ms.Val), ms.Small v → (ms.Serialize v 0).bytes.length = N →
      MembersKept s ms v) ↔ N = 0 ∨ s.length < 65536 ∨ 65536 ∣ s.length := by
  constructor
  · intro hkept
    by_contra hnot
    simp only [not_or, not_lt] at hnot
    obtain ⟨hN, hlong, hdvd⟩ := hnot
    obtain ⟨n, rfl⟩ : ∃ n, N = n + 1 := ⟨N - 1, by omega⟩
    have hlt : s.length % 65536 < s.length := by omega
    have hdata : ((s[s.length % 65536] + 1) :: List.replicate n 0).length =
        (1 : ℕ+) * (n + 1) := by simp
    refine not_membersKept hdata hsize hlt hdvd (by simp)
      (hkept (.cons (.array 1 (n + 1)) .nil) (⟨_, hdata⟩, ()) ⟨trivial, trivial⟩ ?_)
    exact (congrArg List.length (List.append_nil _)).trans (hdata.trans (by simp))
  · rintro hcond ms v hv hN
    have hmod : s.length % 65536 ≤ s.length := Nat.mod_le _ _
    by_cases hdvd : 65536 ∣ s.length
    · have hzero := Nat.mod_eq_zero_of_dvd hdvd
      exact membersKept_of_prefix hv (by rw [payload, if_pos hdvd, hzero]; exact List.prefix_rfl)
        (by omega)
    · have hpay : payload s = s := if_neg hdvd
      rcases hcond with hzero | hlt | hd
      · obtain rfl : N = 0 := hzero
        refine membersKept_of_prefix hv ?_ (by rwa [hpay])
        rw [List.eq_nil_of_length_eq_zero hN]
        exact List.nil_prefix
      · refine membersKept_of_prefix hv ?_ (by rwa [hpay])
        rw [hpay, Nat.mod_eq_of_lt hlt, List.drop_left]
      · exact absurd hd hdvd

end

/-- The fields behind a string, the two overloads for a string without zeros, and the members
behind a `std::string`. -/
theorem string_fields_iff {st : Stream} {s : List UInt8} {N : ℕ}
    (hsize : st.size + (2 + s.length + N) ≤ maxSize) :
    ((∀ f : Field, f.Valid → f.Readable → f.encoded.length = N → SecondKept st s f) ↔
      N = 0 ∨ s.length < 65536 ∧ s.length ≤ (s.length + N) % 2 ^ 32) ∧
    (0 ∉ s → (st.put (.string s) = st.put (.chars (some s)) ↔ s.length < 65536)) ∧
    (2 + s.length + N < 2 ^ 32 - 1 →
      ((∀ (ms : Members) (v : ms.Val), ms.Small v → (ms.Serialize v 0).bytes.length = N →
        MembersKept s ms v) ↔ N = 0 ∨ s.length < 65536 ∨ 65536 ∣ s.length)) :=
  ⟨secondKept_iff hsize, fun _ => put_chars_iff (by omega), membersKept_iff⟩

theorem string_fields_short :
    SecondKept ⟨[5], 0⟩ [97] (.bytes [98]) ∧
      MembersKept [97] (.cons (.scalar .UInt8) .nil) (98#8, ()) := by
  obtain ⟨hfields, -, hmembers⟩ := @string_fields_iff ⟨[5], 0⟩ [97] 1 (by decide)
  exact ⟨hfields.mpr (.inr (by decide)) _ trivial ⟨_, rfl⟩ rfl,
    (hmembers (by decide)).mpr (.inr (.inl (by decide))) _ _ ⟨trivial, trivial⟩ rfl⟩

theorem string_fields_long :
    ¬ SecondKept ⟨[], 0⟩ (List.replicate 65536 97) (.bytes [98]) ∧
    (⟨[], 0⟩ : Stream).put (.string (List.replicate 65536 97)) ≠
      (⟨[], 0⟩ : Stream).put (.chars (some (List.replicate 65536 97))) ∧
    ¬ MembersKept (List.replicate 65537 97) (.cons (.array 1 1) .nil) (⟨[98], rfl⟩, ()) := by
  have hlen : (List.replicate 65536 (97 : UInt8)).length = 65536 := List.length_replicate
  have hlen' : (List.replicate 65537 (97 : UInt8)).length = 65537 := List.length_replicate
  have htaken : taken (List.replicate 65536 97) [(98 : UInt8)].length = 0 := by
    rw [taken, hlen]
    rfl
  refine ⟨not_secondKept _ ?_ ?_ ?_, fun heq => ?_, not_membersKept rfl ?_ ?_ ?_ ?_⟩
  · rw [hlen]
    decide
  · rw [htaken, hlen]
    decide
  · rw [List.getElem_replicate]
    decide
  · have hlt := (put_chars_iff (by rw [hlen]; decide)).mp heq
    rw [hlen] at hlt
    exact absurd hlt (by decide)
  · rw [hlen']
    decide
  · rw [hlen']
    decide
  · rw [hlen']
    decide
  · rw [List.getElem_replicate]
    decide

end RgcFifa
