import RgcFifa.Packet

/-! The frame layout on the wire. What `Stream` and `Stream::eos` build is what
`parsePacket` takes apart, and conversely. -/

namespace RgcFifa

structure Frame where
  cmd : UInt32
  target : UInt16
  source : UInt16
  body : List UInt8
  cmd_lt : cmd.toNat < 2 ^ 31
  body_le : body.length ≤ 65535

/-- `Stream(cmd, target, source)`, the body appended, then `Stream::eos`. -/
def frameBytes (cmd : UInt32) (target source : UInt16) (body : List UInt8) : List UInt8 :=
  ((Stream.ofHeader cmd target source).append body).eos.buf

def Frame.bytes (f : Frame) : List UInt8 := frameBytes f.cmd f.target f.source f.body

structure Recv where
  cmd : Int
  len : ℕ
  buf : List UInt8
  target : ℕ
  source : ℕ
  deriving DecidableEq, Repr

def Packet.recv (p : Packet) (buf : List UInt8) : Recv :=
  ⟨p.cmd, p.len - p.off, (buf.take p.len).drop p.off, p.target, p.source⟩

def Frame.recv (f : Frame) : Recv :=
  ⟨f.cmd.toNat, f.body.length, f.body, f.target.toNat, f.source.toNat⟩

theorem Packet.recv_append {p : Packet} {buf : List UInt8} (h : p.len ≤ buf.length)
    (c : List UInt8) : p.recv (buf ++ c) = p.recv buf := by
  rw [recv, recv, List.take_append_of_le_length h]

theorem Packet.recv_take (p : Packet) (buf : List UInt8) :
    p.recv (buf.take p.len) = p.recv buf := by
  rw [recv, recv, List.take_take, Nat.min_self]

theorem decoder_next_eq {accept : Packet → Bool} {buf : List UInt8} {n : ℕ} {v : Recv} :
    (if 0 < (GameClient.parsePacket buf).len ∧ accept (GameClient.parsePacket buf) then
      some ((GameClient.parsePacket buf).len, (GameClient.parsePacket buf).recv buf) else none) =
        some (n, v) ↔
      Complete buf ∧ accept (headerPacket buf) ∧ (headerPacket buf).len = n ∧
        (headerPacket buf).recv buf = v := by
  by_cases hc : Complete buf
  · have hp : GameClient.parsePacket buf = headerPacket buf := by rw [parsePacket_eq, if_pos hc]
    have hl : 0 < (headerPacket buf).len := Nat.succ_pos _
    simp [hp, hl, hc]
  · simp [parsePacket_len_pos, hc]

/-- Packets are parsed off the head of a buffer and their reported length is
dropped, as far as a test of the parsed header allows. -/
def decoder (accept : Packet → Bool) : Reassembly.Decoder UInt8 Recv where
  next buf :=
    let p := GameClient.parsePacket buf
    if 0 < p.len ∧ accept p then some (p.len, p.recv buf) else none
  pos := by
    intro b n v h
    obtain ⟨_, _, rfl, _⟩ := decoder_next_eq.mp h
    exact Nat.succ_pos _
  le := by
    intro b n v h
    obtain ⟨hc, _, rfl, _⟩ := decoder_next_eq.mp h
    exact hc.2
  take := by
    intro b n v h
    obtain ⟨hc, ha, rfl, rfl⟩ := decoder_next_eq.mp h
    have hh : headerPacket (b.take (headerPacket b).len) = headerPacket b :=
      headerPacket_take (Nat.le_add_left _ _)
    exact decoder_next_eq.mpr ⟨hc.take, by rwa [hh], by rw [hh], by rw [hh, Packet.recv_take]⟩
  stable := by
    intro b n v h c
    obtain ⟨hc, ha, rfl, rfl⟩ := decoder_next_eq.mp h
    have hh := headerPacket_append hc.1 c
    exact decoder_next_eq.mpr
      ⟨hc.append c, by rwa [hh], by rw [hh], by rw [hh, Packet.recv_append hc.2]⟩

theorem decoder_next {accept : Packet → Bool} {buf : List UInt8} {n : ℕ} {v : Recv} :
    (decoder accept).next buf = some (n, v) ↔
      Complete buf ∧ accept (headerPacket buf) ∧ (headerPacket buf).len = n ∧
        (headerPacket buf).recv buf = v :=
  decoder_next_eq

theorem uint8_eq {a b : UInt8} (h : a.toNat = b.toNat) : a = b := UInt8.toNat_inj.mp h

theorem ofHeader_buf (cmd : UInt32) (target source : UInt16) :
    (Stream.ofHeader cmd target source).buf = 0 :: 0 :: (ByteWords.be 4 cmd.toNat ++
      ByteWords.be 2 target.toNat ++ ByteWords.be 2 source.toNat) := by
  have h255 : (0xFF : UInt32).toNat = 255 := rfl
  have h255' : (0xFF : UInt16).toNat = 255 := rfl
  have hand (n : ℕ) : n &&& 255 = n % 256 := Nat.and_two_pow_sub_one_eq_mod n 8
  simp only [Stream.ofHeader, ByteWords.be, ByteWords.le, List.reverse_cons, List.reverse_nil,
    List.nil_append, List.cons_append, List.cons.injEq, and_true, true_and]
  refine ⟨?_, ?_, ?_, ?_, ?_, ?_, ?_, ?_⟩ <;> apply uint8_eq <;>
    simp only [UInt32.toNat_toUInt8, UInt32.toNat_and, UInt32.toNat_shiftRight, h255,
      UInt16.toNat_toUInt8, UInt16.toNat_and, UInt16.toNat_shiftRight, h255',
      hand, UInt8.toNat_ofNat', Nat.shiftRight_eq_div_pow,
      UInt32.toNat_ofNat, UInt16.toNat_ofNat, Nat.reducePow, Nat.reduceMod] <;> omega

theorem frameBytes_eq (cmd : UInt32) (target source : UInt16) (body : List UInt8) :
    frameBytes cmd target source body =
      ByteWords.le 2 (body.length % 65536) ++ ByteWords.be 4 cmd.toNat ++
        ByteWords.be 2 target.toNat ++ ByteWords.be 2 source.toNat ++ body := by
  rw [frameBytes, Stream.buf_eos, ofHeader_buf]
  simp only [List.drop_succ_cons, List.drop_zero, List.append_assoc]

theorem length_frameBytes (cmd : UInt32) (target source : UInt16) (body : List UInt8) :
    (frameBytes cmd target source body).length = 10 + body.length := by
  simp only [frameBytes_eq, List.length_append, ByteWords.length_le, ByteWords.length_be]

theorem slice_mid {a b c : List UInt8} {i k : ℕ} (ha : a.length = i) (hb : b.length = k) :
    ((a ++ (b ++ c)).drop i).take k = b := by
  rw [List.drop_left' ha, List.take_left' hb]

theorem headerPacket_frameBytes (cmd : UInt32) (target source : UInt16) (body : List UInt8) :
    headerPacket (frameBytes cmd target source body) =
      ⟨cmd.toInt32.toInt, 10, body.length % 65536 + 10, target.toNat, source.toNat⟩ := by
  have hlen : (frameBytes cmd target source body).take 2 =
      ByteWords.le 2 (body.length % 65536) := by
    simp only [frameBytes_eq, List.append_assoc]
    exact List.take_left' (ByteWords.length_le _ _)
  have hcmd : ((frameBytes cmd target source body).drop 2).take 4 = ByteWords.be 4 cmd.toNat := by
    simp only [frameBytes_eq, List.append_assoc]
    exact slice_mid (ByteWords.length_le _ _) (ByteWords.length_be _ _)
  have htarget : ((frameBytes cmd target source body).drop 6).take 2 =
      ByteWords.be 2 target.toNat := by
    rw [frameBytes_eq, List.append_assoc, List.append_assoc]
    exact slice_mid (by simp) (ByteWords.length_be _ _)
  have hsource : ((frameBytes cmd target source body).drop 8).take 2 =
      ByteWords.be 2 source.toNat := by
    rw [frameBytes_eq, List.append_assoc]
    exact slice_mid (by simp) (ByteWords.length_be _ _)
  have hmod : body.length % 65536 < 256 ^ 2 := by omega
  rw [headerPacket, hlen, hcmd, htarget, hsource, ByteWords.leNat_le_of_lt hmod,
    ByteWords.beNat_be_of_lt cmd.toNat_lt, ByteWords.beNat_be_of_lt target.toNat_lt,
    ByteWords.beNat_be_of_lt source.toNat_lt, UInt32.ofNat_toNat]

theorem Frame.complete (f : Frame) : Complete f.bytes := by
  have hl := congrArg Packet.len (headerPacket_frameBytes f.cmd f.target f.source f.body)
  have hb := f.body_le
  simp only [headerPacket] at hl
  refine ⟨?_, ?_⟩
  · rw [bytes, length_frameBytes]; omega
  · rw [bytes, length_frameBytes]; omega

theorem Frame.next (f : Frame) :
    (decoder fun _ => true).next f.bytes = some (f.bytes.length, f.recv) := by
  have hb := f.body_le
  have hh := headerPacket_frameBytes f.cmd f.target f.source f.body
  have hlen : f.bytes.length = f.body.length + 10 := by rw [bytes, length_frameBytes]; omega
  have hmod : f.body.length % 65536 = f.body.length := Nat.mod_eq_of_lt (by omega)
  rw [hmod] at hh
  refine decoder_next.mpr ⟨f.complete, rfl, ?_, ?_⟩
  · rw [hlen]; exact congrArg Packet.len hh
  · have hbody : f.bytes.drop 10 = f.body := by
      rw [bytes, frameBytes_eq]
      exact List.drop_left' (by simp)
    have hcmd := f.cmd_lt
    rw [Packet.recv, show headerPacket f.bytes = _ from hh, ← hlen, List.take_length, recv, hbody,
      uint32_toInt, if_pos hcmd, hlen, Nat.add_sub_cancel]

theorem frameBytes_headerPacket {buf : List UInt8} (h : Complete buf) :
    frameBytes (UInt32.ofInt (headerPacket buf).cmd) (UInt16.ofNat (headerPacket buf).target)
      (UInt16.ofNat (headerPacket buf).source) ((headerPacket buf).recv buf).buf =
      buf.take (headerPacket buf).len := by
  let n := ByteWords.leNat (buf.take 2)
  have hbody : ((headerPacket buf).recv buf).buf = (buf.take (n + 10)).drop 10 := rfl
  have hbodylen : ((headerPacket buf).recv buf).buf.length = n := by
    have hl : n + 10 ≤ buf.length := h.2
    rw [hbody, List.length_drop, List.length_take_of_le hl, Nat.add_sub_cancel]
  have hbytes (i k : ℕ) (hik : i + k ≤ 10) : ((buf.drop i).take k).length = k := by
    have := h.1
    rw [List.length_take, List.length_drop]; omega
  have hn : n % 65536 = n := by
    have hlt := ByteWords.leNat_lt (buf.take 2)
    rw [show (buf.take 2).length = 2 from hbytes 0 2 (by omega)] at hlt
    exact Nat.mod_eq_of_lt hlt
  have hlen : ByteWords.le 2 n = buf.take 2 := by
    have hh := ByteWords.le_leNat (buf.take 2)
    rwa [show (buf.take 2).length = 2 from hbytes 0 2 (by omega)] at hh
  have hbe (i k : ℕ) (hik : i + k ≤ 10) :
      ByteWords.be k (ByteWords.beNat ((buf.drop i).take k)) = (buf.drop i).take k := by
    have hh := ByteWords.be_beNat ((buf.drop i).take k)
    rwa [hbytes i k hik] at hh
  have hnat (i k : ℕ) (hik : i + k ≤ 10) : ByteWords.beNat ((buf.drop i).take k) < 256 ^ k := by
    have hh := ByteWords.beNat_lt ((buf.drop i).take k)
    rwa [hbytes i k hik] at hh
  rw [frameBytes_eq, hbodylen, hn, hlen, hbody]
  simp only [headerPacket, ofInt_toInt, UInt32.toNat_ofNat', UInt16.toNat_ofNat']
  rw [Nat.mod_eq_of_lt (show _ < 2 ^ 32 from hnat 2 4 (by omega)),
    Nat.mod_eq_of_lt (show _ < 2 ^ 16 from hnat 6 2 (by omega)),
    Nat.mod_eq_of_lt (show _ < 2 ^ 16 from hnat 8 2 (by omega)),
    hbe 2 4 (by omega), hbe 6 2 (by omega), hbe 8 2 (by omega)]
  obtain ⟨b0, b1, b2, b3, b4, b5, b6, b7, b8, b9, rest, rfl⟩ := exists_header h.1
  rfl

theorem exists_frame {buf : List UInt8} (h : Complete buf) (hcmd : 0 ≤ (headerPacket buf).cmd) :
    ∃ f : Frame, buf.take (headerPacket buf).len = f.bytes ∧ (headerPacket buf).recv buf = f.recv := by
  have hlt : (UInt32.ofInt (headerPacket buf).cmd).toNat < 2 ^ 31 := by
    have hi := uint32_toInt (UInt32.ofNat (ByteWords.beNat ((buf.drop 2).take 4)))
    simp only [headerPacket] at hcmd ⊢
    rw [ofInt_toInt]
    rw [hi] at hcmd
    split_ifs at hcmd with hsmall
    · exact hsmall
    · have := (UInt32.ofNat (ByteWords.beNat ((buf.drop 2).take 4))).toNat_lt
      omega
  have hbody : ((headerPacket buf).recv buf).buf.length ≤ 65535 := by
    have hn := ByteWords.leNat_lt (buf.take 2)
    have hl : (buf.take 2).length ≤ 2 := List.length_take_le _ _
    have hp : 256 ^ (buf.take 2).length ≤ 256 ^ 2 := Nat.pow_le_pow_right (by omega) hl
    simp only [Packet.recv, headerPacket, List.length_drop, List.length_take]
    omega
  let f : Frame := ⟨UInt32.ofInt (headerPacket buf).cmd, UInt16.ofNat (headerPacket buf).target,
    UInt16.ofNat (headerPacket buf).source, ((headerPacket buf).recv buf).buf, hlt, hbody⟩
  have hbytes : f.bytes = buf.take (headerPacket buf).len := frameBytes_headerPacket h
  refine ⟨f, hbytes.symm, ?_⟩
  have hnext : (decoder fun _ => true).next buf =
      some ((headerPacket buf).len, (headerPacket buf).recv buf) := decoder_next.mpr ⟨h, rfl, rfl, rfl⟩
  have htake := (decoder fun _ => true).take hnext
  rw [← hbytes, f.next] at htake
  exact (congrArg Prod.snd (Option.some.inj htake)).symm

/-- The frame encoder and the two packet parsers are inverse to each other. -/
theorem frame_codec_inverse :
    (∀ fs : List Frame,
      (decoder fun _ => true).drain (fs.map Frame.bytes).flatten = (fs.map Frame.recv, [])) ∧
    (∀ buf : List UInt8, 0 < (GameClient.parsePacket buf).len →
      0 ≤ (GameClient.parsePacket buf).cmd →
      frameBytes (UInt32.ofInt (GameClient.parsePacket buf).cmd)
          (UInt16.ofNat (GameClient.parsePacket buf).target)
          (UInt16.ofNat (GameClient.parsePacket buf).source)
          ((GameClient.parsePacket buf).recv buf).buf =
        buf.take (GameClient.parsePacket buf).len) ∧
    ∀ buf : List UInt8, GameClient.parsePacket buf = ClientConn.parsePacket buf := by
  refine ⟨?_, ?_, fun buf => congrFun parsePacket_agree.symm buf⟩
  · intro fs
    have hf : List.Forall₂ (fun i v => (decoder fun _ => true).next i = some (i.length, v))
        (fs.map Frame.bytes) (fs.map Frame.recv) := by
      rw [List.forall₂_map_left_iff, List.forall₂_map_right_iff]
      exact List.forall₂_same.mpr fun f _ => f.next
    have hempty : (decoder fun _ => true).next [] = none := by decide
    have hd := Reassembly.Decoder.drain_flatten hf []
    rw [List.append_nil, Reassembly.Decoder.drain_none hempty, List.append_nil] at hd
    exact hd
  · intro buf hlen _
    have hc := (parsePacket_len_pos buf).mp hlen
    rw [parsePacket_eq, if_pos hc]
    exact frameBytes_headerPacket hc

end RgcFifa
