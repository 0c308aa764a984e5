import RgcFifa.Stream
import RgcFifa.Lib.Reassembly

/-! The two copies of `parsePacket`, on a flat view of the input buffer, and
their agreement with the header that `Stream` writes. -/

namespace RgcFifa

/-- What `parsePacket` returns and stores in its reference parameters. -/
structure Packet where
  cmd : Int
  off : ℕ
  len : ℕ
  target : ℕ
  source : ℕ
  deriving DecidableEq, Repr

/-- The early exits: no command, no length. They leave `target` and `source`
unset, and no caller looks at these while `len` is zero. -/
def Packet.incomplete : Packet := ⟨0, 0, 0, 0, 0⟩

def GameClient.parsePacket (buf : List UInt8) : Packet :=
  let l := buf.length
  if l < 10 then .incomplete
  else
    let len2 := ByteWords.leNat (buf.take 2)
    if len2 + 10 > l then .incomplete
    else
      { off := 10
        len := len2 + 10
        target := ((buf.getD 6 0).toNat <<< 8) + (buf.getD 7 0).toNat
        source := ((buf.getD 8 0).toNat <<< 8) + (buf.getD 9 0).toNat
        cmd := (((buf.getD 2 0).toUInt32 <<< 24) + ((buf.getD 3 0).toUInt32 <<< 16) +
          ((buf.getD 4 0).toUInt32 <<< 8) + (buf.getD 5 0).toUInt32).toInt32.toInt }

def ClientConn.parsePacket (buf : List UInt8) : Packet :=
  let l := buf.length
  if l < 10 then .incomplete
  else
    let len2 := ByteWords.leNat (buf.take 2)
    if len2 + 10 > l then .incomplete
    else
      { off := 10
        len := len2 + 10
        target := ((buf.getD 6 0).toNat <<< 8) + (buf.getD 7 0).toNat
        source := ((buf.getD 8 0).toNat <<< 8) + (buf.getD 9 0).toNat
        cmd := (((buf.getD 2 0).toUInt32 <<< 24) + ((buf.getD 3 0).toUInt32 <<< 16) +
          ((buf.getD 4 0).toUInt32 <<< 8) + (buf.getD 5 0).toUInt32).toInt32.toInt }

theorem parsePacket_agree : ClientConn.parsePacket = GameClient.parsePacket := rfl

def headerPacket (buf : List UInt8) : Packet where
  off := 10
  len := ByteWords.leNat (buf.take 2) + 10
  target := ByteWords.beNat ((buf.drop 6).take 2)
  source := ByteWords.beNat ((buf.drop 8).take 2)
  cmd := (UInt32.ofNat (ByteWords.beNat ((buf.drop 2).take 4))).toInt32.toInt

def Complete (buf : List UInt8) : Prop :=
  10 ≤ buf.length ∧ ByteWords.leNat (buf.take 2) + 10 ≤ buf.length

instance (buf : List UInt8) : Decidable (Complete buf) := inferInstanceAs (Decidable (_ ∧ _))

theorem exists_header {buf : List UInt8} (h : 10 ≤ buf.length) :
    ∃ b0 b1 b2 b3 b4 b5 b6 b7 b8 b9 rest,
      buf = b0 :: b1 :: b2 :: b3 :: b4 :: b5 :: b6 :: b7 :: b8 :: b9 :: rest := by
  match buf, h with
  | b0 :: b1 :: b2 :: b3 :: b4 :: b5 :: b6 :: b7 :: b8 :: b9 :: rest, _ =>
    exact ⟨b0, b1, b2, b3, b4, b5, b6, b7, b8, b9, rest, rfl⟩

theorem command_toNat (b2 b3 b4 b5 : UInt8) :
    ((b2.toUInt32 <<< 24) + (b3.toUInt32 <<< 16) + (b4.toUInt32 <<< 8) + b5.toUInt32).toNat =
      ByteWords.beNat [b2, b3, b4, b5] := by
  have h2 := b2.toNat_lt
  have h3 := b3.toNat_lt
  have h4 := b4.toNat_lt
  have h5 := b5.toNat_lt
  simp only [UInt32.toNat_add, UInt32.toNat_shiftLeft, UInt8.toNat_toUInt32, UInt32.toNat_ofNat,
    Nat.shiftLeft_eq, ByteWords.beNat, ByteWords.leNat, List.reverse_cons, List.reverse_nil,
    List.nil_append, List.cons_append]
  norm_num
  omega

theorem word_toNat (a b : UInt8) : (a.toNat <<< 8) + b.toNat = ByteWords.beNat [a, b] := by
  simp only [Nat.shiftLeft_eq, ByteWords.beNat, ByteWords.leNat, List.reverse_cons,
    List.reverse_nil, List.nil_append, List.cons_append]
  omega

theorem parsePacket_eq (buf : List UInt8) :
    GameClient.parsePacket buf = if Complete buf then headerPacket buf else .incomplete := by
  by_cases h : 10 ≤ buf.length
  · by_cases hl : ByteWords.leNat (buf.take 2) + 10 ≤ buf.length
    · obtain ⟨b0, b1, b2, b3, b4, b5, b6, b7, b8, b9, rest, rfl⟩ := exists_header h
      have hc : UInt32.ofNat (ByteWords.beNat [b2, b3, b4, b5]) =
          (b2.toUInt32 <<< 24) + (b3.toUInt32 <<< 16) + (b4.toUInt32 <<< 8) + b5.toUInt32 := by
        rw [← command_toNat, UInt32.ofNat_toNat]
      rw [if_pos ⟨h, hl⟩, GameClient.parsePacket, if_neg (by omega), if_neg (by omega)]
      simp only [headerPacket, List.drop_succ_cons, List.drop_zero, List.take_succ_cons,
        List.take_zero, hc, ← word_toNat, List.getD_cons_succ, List.getD_cons_zero]
    · rw [if_neg (fun hh => hl hh.2), GameClient.parsePacket, if_neg (by omega),
        if_pos (by omega)]
  · rw [if_neg (fun hh => h hh.1), GameClient.parsePacket, if_pos (by omega)]

theorem parsePacket_len_pos (buf : List UInt8) :
    0 < (GameClient.parsePacket buf).len ↔ Complete buf := by
  rw [parsePacket_eq]
  split_ifs with h
  · simp [headerPacket, h]
  · simp [Packet.incomplete, h]

theorem slice_take {buf : List UInt8} {i k n : ℕ} (h : i + k ≤ n) :
    ((buf.take n).drop i).take k = (buf.drop i).take k := by
  rw [List.drop_take, List.take_take, Nat.min_eq_left (by omega)]

theorem headerPacket_take {buf : List UInt8} {n : ℕ} (h : 10 ≤ n) :
    headerPacket (buf.take n) = headerPacket buf := by
  have h0 : (buf.take n).take 2 = buf.take 2 := by
    rw [List.take_take, Nat.min_eq_left (by omega)]
  simp only [headerPacket, h0, slice_take (show 2 + 4 ≤ n by omega),
    slice_take (show 6 + 2 ≤ n by omega), slice_take (show 8 + 2 ≤ n by omega)]

theorem headerPacket_append {buf : List UInt8} (h : 10 ≤ buf.length) (c : List UInt8) :
    headerPacket (buf ++ c) = headerPacket buf := by
  have ht : (buf ++ c).take buf.length = buf := List.take_left' rfl
  calc headerPacket (buf ++ c) = headerPacket ((buf ++ c).take buf.length) :=
        (headerPacket_take h).symm
    _ = headerPacket buf := by rw [ht]

theorem Complete.append {buf : List UInt8} (h : Complete buf) (c : List UInt8) :
    Complete (buf ++ c) := by
  have hl := congrArg Packet.len (headerPacket_append h.1 c)
  simp only [headerPacket] at hl
  refine ⟨?_, ?_⟩
  · simp only [List.length_append]; have := h.1; omega
  · simp only [List.length_append]; have := h.2; omega

theorem Complete.take {buf : List UInt8} (h : Complete buf) :
    Complete (buf.take (headerPacket buf).len) := by
  have hlen : (buf.take (headerPacket buf).len).length = (headerPacket buf).len :=
    List.length_take_of_le h.2
  have hn : 10 ≤ (headerPacket buf).len := Nat.le_add_left _ _
  have hh : headerPacket (buf.take (headerPacket buf).len) = headerPacket buf :=
    headerPacket_take hn
  refine ⟨by omega, ?_⟩
  rw [hlen]
  exact (congrArg Packet.len hh).le

theorem uint32_toInt (x : UInt32) :
    x.toInt32.toInt = if x.toNat < 2 ^ 31 then (x.toNat : Int) else (x.toNat : Int) - 2 ^ 32 := by
  have hx : x.toInt32.toInt = x.toBitVec.toInt := rfl
  have hn : x.toBitVec.toNat = x.toNat := rfl
  have h := x.toNat_lt
  rw [hx, BitVec.toInt_eq_toNat_cond, hn]
  split_ifs <;> omega

theorem ofInt_toInt (x : UInt32) : UInt32.ofInt x.toInt32.toInt = x := by
  have h := x.toNat_lt
  have hm : (x.toInt32.toInt % 2 ^ 32).toNat = x.toNat := by
    rw [uint32_toInt]
    split_ifs <;> omega
  rw [UInt32.ofInt, hm, UInt32.ofNat_toNat]

theorem headerPacket_cmd_neg {buf : List UInt8} (h : 10 ≤ buf.length) :
    (headerPacket buf).cmd < 0 ↔ 2 ^ 31 ≤ ByteWords.beNat ((buf.drop 2).take 4) := by
  have hlt := ByteWords.beNat_lt ((buf.drop 2).take 4)
  have hlen : ((buf.drop 2).take 4).length = 4 := by
    simp only [List.length_take, List.length_drop]; omega
  rw [hlen] at hlt
  have hn : (UInt32.ofNat (ByteWords.beNat ((buf.drop 2).take 4))).toNat =
      ByteWords.beNat ((buf.drop 2).take 4) := by
    rw [UInt32.toNat_ofNat', Nat.mod_eq_of_lt (by omega)]
  simp only [headerPacket, uint32_toInt, hn]
  split_ifs <;> omega

end RgcFifa
