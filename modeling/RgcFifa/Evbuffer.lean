import RgcFifa.ConduitRead

/-! The header as `parsePacket` reads it out of the chunks of an `evbuffer`. It pulls up
eight bytes and reads ten. -/

namespace RgcFifa

open ByteWords

structure Evbuffer where
  chunks : List (List UInt8)
  deriving DecidableEq, Repr

namespace Evbuffer

def bytes (b : Evbuffer) : List UInt8 := b.chunks.flatten

/-- `evbuffer_get_length`. -/
def length (b : Evbuffer) : ℕ := b.bytes.length

/-- The length of the first chunk. -/
def first (b : Evbuffer) : ℕ := (b.chunks.headD []).length

/-- How many bytes are contiguous at the pointer that `evbuffer_pullup` returns. -/
def contiguous (n : ℕ) (b : Evbuffer) : ℕ := max n b.first

/-- What is read through that pointer. Behind the contiguous bytes it may be anything. -/
def pullup (junk : ℕ → UInt8) (n : ℕ) (b : Evbuffer) (i : ℕ) : UInt8 :=
  if i < b.contiguous n then b.bytes.getD i 0 else junk i

end Evbuffer

/-- The packet, and the indices that were read through the pointer. -/
structure HeaderRead where
  packet : Packet
  touched : List ℕ
  deriving DecidableEq, Repr

def GameClient.parseChunks (junk : ℕ → UInt8) (buf : Evbuffer) : HeaderRead :=
  let l := buf.length
  if l < 10 then ⟨.incomplete, []⟩
  else
    let buf_ := buf.pullup junk 8
    let len2 := leNat [buf_ 0, buf_ 1]
    if len2 + 10 > l then ⟨.incomplete, [0, 1]⟩
    else
      { packet :=
          { off := 10
            len := len2 + 10
            target := ((buf_ 6).toNat <<< 8) + (buf_ 7).toNat
            source := ((buf_ 8).toNat <<< 8) + (buf_ 9).toNat
            cmd := (((buf_ 2).toUInt32 <<< 24) + ((buf_ 3).toUInt32 <<< 16) +
              ((buf_ 4).toUInt32 <<< 8) + (buf_ 5).toUInt32).toInt32.toInt }
        touched := [0, 1, 6, 7, 8, 9, 2, 3, 4, 5] }

def ClientConn.parseChunks (junk : ℕ → UInt8) (buf : Evbuffer) : HeaderRead :=
  let l := buf.length
  if l < 10 then ⟨.incomplete, []⟩
  else
    let buf_ := buf.pullup junk 8
    let len2 := leNat [buf_ 0, buf_ 1]
    if len2 + 10 > l then ⟨.incomplete, [0, 1]⟩
    else
      { packet :=
          { off := 10
            len := len2 + 10
            target := ((buf_ 6).toNat <<< 8) + (buf_ 7).toNat
            source := ((buf_ 8).toNat <<< 8) + (buf_ 9).toNat
            cmd := (((buf_ 2).toUInt32 <<< 24) + ((buf_ 3).toUInt32 <<< 16) +
              ((buf_ 4).toUInt32 <<< 8) + (buf_ 5).toUInt32).toInt32.toInt }
        touched := [0, 1, 6, 7, 8, 9, 2, 3, 4, 5] }

theorem parseChunks_agree : ClientConn.parseChunks = GameClient.parseChunks := rfl

/-- The header of `b` and of `b'` comes out the same whatever lies behind the contiguous
bytes, and none of those bytes is read. -/
structure ChunkingFree (parse : (ℕ → UInt8) → Evbuffer → HeaderRead) (b b' : Evbuffer) : Prop where
  agree : ∀ junk junk', (parse junk b).packet = (parse junk' b').packet
  inside : ∀ junk, (∀ i ∈ (parse junk b).touched, i < b.contiguous 8) ∧
    ∀ i ∈ (parse junk b').touched, i < b'.contiguous 8

section

variable {b b' : Evbuffer} {junk : ℕ → UInt8}

theorem pullup_of_lt {n i : ℕ} (h : i < b.contiguous n) : b.pullup junk n i = b.bytes.getD i 0 :=
  if_pos h

theorem lt_contiguous {n i : ℕ} (h : i < n) : i < b.contiguous n := h.trans_le (le_max_left _ _)

theorem length_word (h : 2 ≤ b.length) :
    leNat [b.pullup junk 8 0, b.pullup junk 8 1] = leNat (b.bytes.take 2) := by
  have h0 : b.pullup junk 8 0 = b.bytes.getD 0 0 := pullup_of_lt (lt_contiguous (by omega))
  have h1 : b.pullup junk 8 1 = b.bytes.getD 1 0 := pullup_of_lt (lt_contiguous (by omega))
  have hlen : 2 ≤ b.bytes.length := h
  rw [h0, h1]
  generalize b.bytes = bytes at hlen
  match bytes, hlen with
  | x :: y :: rest, _ => rfl

/-- An incomplete frame is recognised from bytes that have been pulled up. -/
theorem parseChunks_incomplete (hlen : 10 ≤ b.length) (h : ¬ Complete b.bytes) :
    GameClient.parseChunks junk b = ⟨.incomplete, [0, 1]⟩ := by
  have hword : leNat (b.bytes.take 2) + 10 > b.length := by
    by_contra hle
    exact h ⟨hlen, not_lt.mp hle⟩
  simp only [GameClient.parseChunks, length_word (by omega : 2 ≤ b.length), if_neg (not_lt.mpr hlen),
    if_pos hword]

theorem pullup_header {i : ℕ} (h : 10 ≤ b.first) (hi : i < 10) :
    b.pullup junk 8 i = b.bytes.getD i 0 :=
  pullup_of_lt (hi.trans_le (h.trans (le_max_right _ _)))

/-- If the first chunk holds the header, the packet is that of the flat buffer. -/
theorem parseChunks_contiguous (h : 10 ≤ b.first) :
    (GameClient.parseChunks junk b).packet = GameClient.parsePacket b.bytes := by
  unfold GameClient.parseChunks GameClient.parsePacket
  dsimp only
  by_cases hlen : b.length < 10
  · have hbytes : b.bytes.length < 10 := hlen
    rw [if_pos hlen, if_pos hbytes]
  · have hbytes : ¬ b.bytes.length < 10 := hlen
    have hview {i : ℕ} (hi : i < 10) : b.pullup junk 8 i = b.bytes.getD i 0 := pullup_header h hi
    rw [if_neg hlen, if_neg hbytes, length_word (by omega)]
    rw [show b.length = b.bytes.length from rfl]
    split_ifs with hshort
    · rfl
    · simp only [hview (show 2 < 10 by omega), hview (show 3 < 10 by omega),
        hview (show 4 < 10 by omega), hview (show 5 < 10 by omega), hview (show 6 < 10 by omega),
        hview (show 7 < 10 by omega), hview (show 8 < 10 by omega), hview (show 9 < 10 by omega)]

theorem parseChunks_complete (h : Complete b.bytes) :
    (GameClient.parseChunks junk b).packet.source % 256 = (b.pullup junk 8 9).toNat ∧
      (GameClient.parseChunks junk b).touched = [0, 1, 6, 7, 8, 9, 2, 3, 4, 5] := by
  obtain ⟨hlen, hword⟩ := h
  have hb := (b.pullup junk 8 9).toNat_lt
  have hlong : ¬ b.length < 10 := not_lt.mpr hlen
  have hfit : ¬ leNat (b.bytes.take 2) + 10 > b.length := not_lt.mpr hword
  simp only [GameClient.parseChunks, length_word (le_trans (by decide) hlen), if_neg hlong, if_neg hfit,
    Nat.shiftLeft_eq, and_true]
  omega

/-- The last byte of the header lies behind the contiguous bytes unless the first chunk
holds it. -/
theorem first_of_agree (h : Complete b.bytes) (h' : Complete b'.bytes)
    (hagree : ∀ junk junk', (GameClient.parseChunks junk b).packet =
      (GameClient.parseChunks junk' b').packet) : 10 ≤ b.first := by
  by_contra hfirst
  have hbehind : ¬ 9 < b.contiguous 8 := by
    rw [Evbuffer.contiguous]
    omega
  let x := b'.pullup (fun _ => 0) 8 9
  have hsource := congrArg (fun p : Packet => p.source % 256) (hagree (fun _ => x + 1) fun _ => 0)
  have hjunk : b.pullup (fun _ => x + 1) 8 9 = x + 1 := if_neg hbehind
  simp only [(parseChunks_complete h).1, (parseChunks_complete h').1, hjunk] at hsource
  have hnext : (x + 1).toNat = (x.toNat + 1) % 256 := UInt8.toNat_add x 1
  have hsame : (x + 1).toNat = x.toNat := hsource
  omega

theorem chunkingFree_iff (hsame : b.bytes = b'.bytes) (hlen : 10 ≤ b.length) :
    ChunkingFree GameClient.parseChunks b b' ↔
      ¬ Complete b.bytes ∨ 10 ≤ b.first ∧ 10 ≤ b'.first := by
  have hlen' : 10 ≤ b'.length := by
    rw [Evbuffer.length, ← hsame]
    exact hlen
  by_cases hc : Complete b.bytes
  · have hc' : Complete b'.bytes := hsame ▸ hc
    constructor
    · intro hfree
      exact .inr ⟨first_of_agree hc hc' hfree.agree,
        first_of_agree hc' hc fun junk junk' => (hfree.agree junk' junk).symm⟩
    · intro hfirst
      obtain ⟨hb, hb'⟩ := hfirst.resolve_left (fun hn => hn hc)
      have hinside {e : Evbuffer} {junk : ℕ → UInt8} (he : Complete e.bytes) (h : 10 ≤ e.first) :
          ∀ i ∈ (GameClient.parseChunks junk e).touched, i < e.contiguous 8 := by
        rw [(parseChunks_complete he).2]
        intro i hi
        have hten : i < 10 := by
          revert i
          decide
        exact hten.trans_le (h.trans (le_max_right _ _))
      refine ⟨fun junk junk' => ?_, fun junk => ⟨hinside hc hb, hinside hc' hb'⟩⟩
      rw [parseChunks_contiguous hb, parseChunks_contiguous hb', hsame]
  · have hc' : ¬ Complete b'.bytes := hsame ▸ hc
    refine iff_of_true ⟨fun junk junk' => ?_, fun junk => ?_⟩ (.inl hc)
    · rw [parseChunks_incomplete hlen hc, parseChunks_incomplete hlen' hc']
    · rw [parseChunks_incomplete hlen hc, parseChunks_incomplete hlen' hc']
      have hinside (e : Evbuffer) : ∀ i ∈ [0, 1], i < e.contiguous 8 := by
        intro i hi
        have htwo : i < 8 := by
          revert i
          decide
        exact lt_contiguous htwo
      exact ⟨hinside b, hinside b'⟩

end

/-- Two chunkings of a stream give the same header if the frame is not complete, or if the
first chunk of each of them holds the header; and then only. -/
theorem header_chunking_iff {b b' : Evbuffer} (hsame : b.bytes = b'.bytes) (hlen : 10 ≤ b.length) :
    (ChunkingFree GameClient.parseChunks b b' ↔
      ¬ Complete b.bytes ∨ 10 ≤ b.first ∧ 10 ≤ b'.first) ∧
    (ChunkingFree ClientConn.parseChunks b b' ↔
      ¬ Complete b.bytes ∨ 10 ≤ b.first ∧ 10 ≤ b'.first) :=
  ⟨chunkingFree_iff hsame hlen, by rw [parseChunks_agree]; exact chunkingFree_iff hsame hlen⟩

theorem header_chunking_long_chunks :
    ChunkingFree GameClient.parseChunks ⟨[[1, 0, 0, 0, 0, 7, 1, 1, 5, 1, 9]]⟩
      ⟨[[1, 0, 0, 0, 0, 7, 1, 1, 5, 1], [9]]⟩ :=
  (header_chunking_iff (by decide) (by decide)).1.mpr (.inr (by decide))

/-- A frame without a body whose last two bytes are in a second chunk: the source id is
whatever lies behind the first. -/
theorem header_chunking_split :
    let whole : Evbuffer := ⟨[[0, 0, 0, 0, 0, 7, 1, 1, 5, 1]]⟩
    let split : Evbuffer := ⟨[[0, 0, 0, 0, 0, 7, 1, 1], [5, 1]]⟩
    whole.bytes = split.bytes ∧
      (GameClient.parseChunks (fun _ => 0) whole).packet.source = 0x0501 ∧
      (GameClient.parseChunks (fun _ => 0) split).packet.source = 0 ∧
      (ClientConn.parseChunks (fun _ => 0) split).packet.source = 0 ∧
      ¬ ChunkingFree GameClient.parseChunks whole split ∧
      ¬ ChunkingFree ClientConn.parseChunks whole split := by
  intro whole split
  have hnot : ¬ ChunkingFree GameClient.parseChunks whole split := fun h =>
    absurd (h.agree (fun _ => 0) fun _ => 0) (by decide)
  exact ⟨by decide, by decide, by decide, by decide, hnot, hnot⟩

end RgcFifa
