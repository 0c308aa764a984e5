import RgcFifa.HashList
import RgcFifa.Lib.ByteWords
import RgcFifa.StringTokenizer

/-! The addresses from which `Cfg` lets an administrator in, with the functions of the C library that
it reads them with. -/

namespace RgcFifa

open ByteWords

/-- The number that decimal digits stand for. -/
def decimal (digits : List Char) : ℕ := digits.foldl (fun n c => 10 * n + (c.toNat - 48)) 0

/-- Undefined where the number is no `int`. -/
def atoi (s : List Char) : Option ℤ :=
  match s.dropWhile Char.isWhitespace with
  | '-' :: s => toInt (-(decimal (s.takeWhile Char.isDigit) : ℤ))
  | '+' :: s => toInt (decimal (s.takeWhile Char.isDigit))
  | s => toInt (decimal (s.takeWhile Char.isDigit))

/-- One part of an address, which may be octal or hexadecimal. -/
def inetPart : List Char → Option ℕ
  | '0' :: 'x' :: s | '0' :: 'X' :: s =>
      if s ≠ [] ∧ s.all fun c => c.isDigit ∨ 'a' ≤ c.toLower ∧ c.toLower ≤ 'f' then
        some (s.foldl (fun n c => 16 * n + if c.isDigit then c.toNat - 48 else c.toLower.toNat - 87) 0)
      else none
  | '0' :: s =>
      if s.all fun c => c.isDigit ∧ c < '8' then
        some (s.foldl (fun n c => 8 * n + (c.toNat - 48)) 0)
      else none
  | s => if s ≠ [] ∧ s.all Char.isDigit then some (decimal s) else none

/-- The bytes of a number in the other order. -/
def htonl (x : UInt32) : UInt32 := UInt32.ofNat (beNat (le 4 x.toNat))

def ntohl (x : UInt32) : UInt32 := htonl x

/-- Up to four parts, of which the last has the bytes that are left. -/
def inet_addr (s : List Char) : UInt32 :=
  match (s.splitOn '.').mapM inetPart with
  | some [a] => if a < 2 ^ 32 then htonl (UInt32.ofNat a) else -1
  | some [a, b] =>
      if a < 256 ∧ b < 2 ^ 24 then htonl (UInt32.ofNat (a * 2 ^ 24 + b)) else -1
  | some [a, b, c] =>
      if a < 256 ∧ b < 256 ∧ c < 2 ^ 16 then
        htonl (UInt32.ofNat (a * 2 ^ 24 + b * 2 ^ 16 + c)) else -1
  | some [a, b, c, d] =>
      if a < 256 ∧ b < 256 ∧ c < 256 ∧ d < 256 then
        htonl (UInt32.ofNat (a * 2 ^ 24 + b * 2 ^ 16 + c * 2 ^ 8 + d)) else -1
  | _ => -1

structure IPMask where
  addr : UInt32
  mask : UInt32
  deriving DecidableEq

/-- The member of `Cfg` that these functions use. -/
structure Cfg where
  adminIPAllowed : List IPMask := []

namespace Cfg

/-- Undefined where the number behind the slash is no `int`, or 32 less it. -/
def parseAddress (addr : List Char) : Option IPMask :=
  match StringTokenizer ['/'] addr with
  | [] => some ⟨0, 0⟩
  | [a] => some ⟨ntohl (inet_addr a), 0⟩
  | a :: n :: _ => (atoi n).bind fun n => (toInt (32 - n)).map fun mask =>
      ⟨ntohl (inet_addr a), UInt32.ofInt mask⟩

/-- The loop of `setAdminAllowedIP`. -/
def allowAll : List (List Char) → Cfg → Option Cfg
  | [], cfg => some cfg
  | token :: tk, cfg => (parseAddress token).bind fun ipm =>
      allowAll tk (if ipm.mask < 32 then ⟨cfg.adminIPAllowed ++ [ipm]⟩ else cfg)

def setAdminAllowedIP (str : List Char) (cfg : Cfg) : Option Cfg :=
  allowAll (StringTokenizer [' '] str) cfg

def isAdminIPAllowed (ip : UInt32) (cfg : Cfg) : Bool :=
  cfg.adminIPAllowed.isEmpty || cfg.adminIPAllowed.any fun ipm => (ipm.addr ^^^ ip) >>> ipm.mask = 0

end Cfg

/-- A number as text, which may begin with zeros. -/
structure Numeral where
  neg : Bool
  digits : List Char
  isDigit : ∀ c ∈ digits, c.isDigit = true
  ne_nil : digits ≠ []

namespace Numeral

def text (n : Numeral) : List Char := if n.neg then '-' :: n.digits else n.digits

def value (n : Numeral) : ℤ := if n.neg then -(decimal n.digits : ℤ) else decimal n.digits

end Numeral

/-- An address with or without a number behind a slash. -/
structure AllowEntry where
  a : UInt8
  b : UInt8
  c : UInt8
  d : UInt8
  number : Option Numeral

namespace AllowEntry

def quad (e : AllowEntry) : List Char :=
  ['.'].intercalate ([e.a, e.b, e.c, e.d].map fun x => Nat.toDigits 10 x.toNat)

def text (e : AllowEntry) : List Char :=
  match e.number with
  | none => e.quad
  | some n => e.quad ++ '/' :: n.text

def addr (e : AllowEntry) : UInt32 :=
  UInt32.ofNat (e.a.toNat * 2 ^ 24 + e.b.toNat * 2 ^ 16 + e.c.toNat * 2 ^ 8 + e.d.toNat)

/-- The length of the prefix, all of the address where there is no number. -/
def prefixLength (e : AllowEntry) : ℤ := (e.number.map Numeral.value).getD 32

/-- The first bits, as many as the prefix is long, are those of the address. -/
def Agrees (e : AllowEntry) (ip : UInt32) : Prop :=
  ∀ i : ℕ, (i : ℤ) < e.prefixLength → e.addr.toNat.testBit (31 - i) = ip.toNat.testBit (31 - i)

end AllowEntry

section

variable {e : AllowEntry} {ip : UInt32}

theorem ntohl_htonl (x : UInt32) : ntohl (htonl x) = x := by
  have hlen : (le 4 x.toNat).reverse.length = 4 := by rw [List.length_reverse, length_le]
  have hbytes := le_leNat (le 4 x.toNat).reverse
  have hlt := leNat_lt (le 4 x.toNat).reverse
  rw [hlen] at hbytes hlt
  have hnum : (htonl x).toNat = leNat (le 4 x.toNat).reverse := by
    rw [htonl, UInt32.toNat_ofNat', beNat, Nat.mod_eq_of_lt (hlt.trans_eq (by decide))]
  rw [ntohl, htonl, hnum, hbytes, beNat, List.reverse_reverse, leNat_le_of_lt x.toNat_lt,
    UInt32.ofNat_toNat]

theorem digits_spec (x : UInt8) : inetPart (Nat.toDigits 10 x.toNat) = some x.toNat ∧
    ∀ c ∈ Nat.toDigits 10 x.toNat, c.isDigit = true := by
  have hall : ∀ n : Fin 256, inetPart (Nat.toDigits 10 n) = some n.1 ∧
      (Nat.toDigits 10 n).all Char.isDigit = true := by decide +kernel
  obtain ⟨hpart, hdigits⟩ := hall ⟨x.toNat, x.toNat_lt⟩
  exact ⟨hpart, List.all_eq_true.mp hdigits⟩

theorem ne_of_isDigit {c d : Char} (hc : c.isDigit = true) (hd : d.isDigit = false) : c ≠ d := by
  rintro rfl
  exact Bool.false_ne_true (hd.symm.trans hc)

theorem inet_addr_quad (e : AllowEntry) : ntohl (inet_addr e.quad) = e.addr := by
  have hfree : ∀ l ∈ [e.a, e.b, e.c, e.d].map fun x => Nat.toDigits 10 x.toNat, '.' ∉ l := by
    intro l hl hdot
    obtain ⟨x, -, rfl⟩ := List.mem_map.mp hl
    exact ne_of_isDigit ((digits_spec x).2 _ hdot) (by decide) rfl
  have hsplit : e.quad.splitOn '.' = [e.a, e.b, e.c, e.d].map fun x => Nat.toDigits 10 x.toNat :=
    List.splitOn_intercalate _ hfree (by simp)
  have hparts : (e.quad.splitOn '.').mapM inetPart =
      some [e.a.toNat, e.b.toNat, e.c.toNat, e.d.toNat] := by
    rw [hsplit]
    simp [(digits_spec _).1]
  have hlt := fun x : UInt8 => x.toNat_lt
  rw [inet_addr, hparts]
  dsimp only
  rw [if_pos ⟨hlt _, hlt _, hlt _, hlt _⟩, ntohl_htonl, AllowEntry.addr]

theorem mem_quad {c : Char} (hc : c ∈ e.quad) : c.isDigit = true ∨ c = '.' := by
  simp only [AllowEntry.quad, List.intercalate, List.map_cons, List.map_nil, List.intersperse,
    List.flatten_cons, List.flatten_nil, List.mem_append, List.mem_singleton,
    List.append_nil] at hc
  have hdigit := fun x : UInt8 => (digits_spec x).2 c
  rcases hc with hc | hc | hc | hc | hc | hc | hc
  · exact .inl (hdigit _ hc)
  · exact .inr hc
  · exact .inl (hdigit _ hc)
  · exact .inr hc
  · exact .inl (hdigit _ hc)
  · exact .inr hc
  · exact .inl (hdigit _ hc)

theorem quad_ne_nil (e : AllowEntry) : e.quad ≠ [] := by
  simp [AllowEntry.quad, List.intercalate]

theorem mem_number {n : Numeral} {c : Char} (hc : c ∈ n.text) : c.isDigit = true ∨ c = '-' := by
  rw [Numeral.text] at hc
  split_ifs at hc with hneg
  · rcases List.mem_cons.mp hc with rfl | hc
    · exact .inr rfl
    · exact .inl (n.isDigit c hc)
  · exact .inl (n.isDigit c hc)

theorem not_mem_quad {c : Char} (hc : c.isDigit = false) (hdot : c ≠ '.') : c ∉ e.quad := by
  intro hmem
  rcases mem_quad hmem with hdigit | heq
  · exact ne_of_isDigit hdigit hc rfl
  · exact hdot heq

theorem not_mem_number {n : Numeral} {c : Char} (hc : c.isDigit = false) (hneg : c ≠ '-') :
    c ∉ n.text := by
  intro hmem
  rcases mem_number hmem with hdigit | heq
  · exact ne_of_isDigit hdigit hc rfl
  · exact hneg heq

theorem number_ne_nil (n : Numeral) : n.text ≠ [] := by
  rw [Numeral.text]
  split_ifs
  · simp
  · exact n.ne_nil

theorem text_ne_nil (e : AllowEntry) : e.text ≠ [] := by
  rw [AllowEntry.text]
  cases e.number with
  | none => exact quad_ne_nil e
  | some n => simp

theorem not_mem_text (e : AllowEntry) : ' ' ∉ e.text := by
  rw [AllowEntry.text]
  cases e.number with
  | none => exact not_mem_quad (by decide) (by decide)
  | some n =>
    dsimp only
    rw [List.mem_append, List.mem_cons]
    rintro (hmem | heq | hmem)
    · exact not_mem_quad (by decide) (by decide) hmem
    · exact absurd heq (by decide)
    · exact not_mem_number (by decide) (by decide) hmem

theorem atoi_text (n : Numeral) : atoi n.text = toInt n.value := by
  obtain ⟨neg, digits, hdigits, hne⟩ := n
  have htake : digits.takeWhile Char.isDigit = digits := List.takeWhile_eq_self_iff.mpr hdigits
  cases neg with
  | true =>
    simp [atoi, Numeral.text, Numeral.value, htake]
  | false =>
    cases digits with
    | nil => exact absurd rfl hne
    | cons c digits =>
      have hc := hdigits c List.mem_cons_self
      have hspace : ¬ c.isWhitespace = true := by
        intro hspace
        simp only [Char.isWhitespace, Bool.or_eq_true, decide_eq_true_eq] at hspace
        rcases hspace with ((rfl | rfl) | rfl) | rfl <;> exact absurd hc (by decide)
      have hstart : (c :: digits).dropWhile Char.isWhitespace = c :: digits :=
        List.dropWhile_cons_of_neg hspace
      have hminus := ne_of_isDigit hc (d := '-') (by decide)
      have hplus := ne_of_isDigit hc (d := '+') (by decide)
      simp only [atoi, Numeral.text, Numeral.value, Bool.false_eq_true, if_false, hstart]
      split
      · rename_i heq
        exact absurd (List.cons.inj heq).1 hminus
      · rename_i heq
        exact absurd (List.cons.inj heq).1 hplus
      · rw [htake]

/-- The number is an `int`, and so is 32 less it. -/
def AllowEntry.InRange (e : AllowEntry) : Prop :=
  ∀ n, e.number = some n → -2 ^ 31 + 33 ≤ n.value ∧ n.value < 2 ^ 31

def AllowEntry.ipMask (e : AllowEntry) : IPMask := ⟨e.addr, UInt32.ofInt (32 - e.prefixLength)⟩

theorem toInt_eq_some {x : ℤ} (h : -2 ^ 31 ≤ x ∧ x < 2 ^ 31) : toInt x = some x := if_pos h

theorem toInt_eq_none {x : ℤ} (h : ¬ (-2 ^ 31 ≤ x ∧ x < 2 ^ 31)) : toInt x = none := if_neg h

theorem mask_text (n : Numeral) : (atoi n.text).bind (fun n => toInt (32 - n)) =
    if -2 ^ 31 + 33 ≤ n.value ∧ n.value < 2 ^ 31 then some (32 - n.value) else none := by
  rw [atoi_text]
  by_cases hint : -2 ^ 31 ≤ n.value ∧ n.value < 2 ^ 31
  · rw [toInt_eq_some hint, Option.bind_some]
    split_ifs with hrange
    · exact toInt_eq_some (by omega)
    · exact toInt_eq_none (by omega)
  · rw [toInt_eq_none hint, Option.bind_none, if_neg (by omega)]

theorem parseAddress_text (e : AllowEntry) [Decidable e.InRange] :
    Cfg.parseAddress e.text = if e.InRange then some e.ipMask else none := by
  have hquad : ∀ c ∈ e.quad, c ∉ ['/'] := by
    intro c hc hslash
    rw [List.mem_singleton] at hslash
    exact not_mem_quad (by decide) (by decide) (hslash ▸ hc)
  cases hn : e.number with
  | none =>
    have hrange : e.InRange := fun n hsome => by rw [hn] at hsome; cases hsome
    have htext : e.text = e.quad := by rw [AllowEntry.text, hn]
    rw [if_pos hrange, Cfg.parseAddress, htext, tokenizer_last hquad (quad_ne_nil e)]
    simp only [inet_addr_quad, AllowEntry.ipMask, AllowEntry.prefixLength, hn]
    rfl
  | some n =>
    have hslash : ∀ c ∈ n.text, c ∉ ['/'] := by
      intro c hc hslash
      rw [List.mem_singleton] at hslash
      exact not_mem_number (by decide) (by decide) (hslash ▸ hc)
    have htext : e.text = e.quad ++ '/' :: n.text := by rw [AllowEntry.text, hn]
    have htokens : StringTokenizer ['/'] e.text = [e.quad, n.text] := by
      rw [htext, tokenizer_cons hquad (List.mem_singleton_self _),
        tokenizer_last hslash (number_ne_nil n)]
    have hparse : Cfg.parseAddress e.text = ((atoi n.text).bind fun n => toInt (32 - n)).map
        fun mask => ⟨e.addr, UInt32.ofInt mask⟩ := by
      rw [Cfg.parseAddress, htokens, Option.map_bind, ← inet_addr_quad]
      rfl
    have hrange : e.InRange ↔ -2 ^ 31 + 33 ≤ n.value ∧ n.value < 2 ^ 31 := by
      simp [AllowEntry.InRange, hn]
    rw [hparse, mask_text]
    by_cases hin : e.InRange
    · rw [if_pos hin, if_pos (hrange.mp hin)]
      simp [AllowEntry.ipMask, AllowEntry.prefixLength, hn]
    · rw [if_neg hin, if_neg fun h => hin (hrange.mpr h)]
      rfl

/-- An entry is kept when its prefix has from 1 to 32 bits. -/
def AllowEntry.Kept (e : AllowEntry) : Prop := 1 ≤ e.prefixLength ∧ e.prefixLength ≤ 32

theorem toNat_ofInt (x : ℤ) : ((UInt32.ofInt x).toNat : ℤ) = x % 2 ^ 32 := by
  have hnonneg := Int.emod_nonneg x (b := 2 ^ 32) (by decide)
  have hlt := Int.emod_lt_of_pos x (b := 2 ^ 32) (by decide)
  rw [UInt32.ofInt, UInt32.toNat_ofNat', Nat.mod_eq_of_lt (by omega)]
  omega

theorem prefixLength_range (h : e.InRange) :
    -2 ^ 31 + 33 ≤ e.prefixLength ∧ e.prefixLength < 2 ^ 31 := by
  cases hn : e.number with
  | none => simp [AllowEntry.prefixLength, hn]
  | some n => simpa [AllowEntry.prefixLength, hn] using h n hn

theorem mask_lt_iff (h : e.InRange) : e.ipMask.mask < 32 ↔ e.Kept := by
  have hrange := prefixLength_range h
  have hmask : ((e.ipMask.mask).toNat : ℤ) = (32 - e.prefixLength) % 2 ^ 32 := toNat_ofInt _
  have h32 : (32 : UInt32).toNat = 32 := rfl
  rw [UInt32.lt_iff_toNat_lt, h32, AllowEntry.Kept]
  omega

theorem shiftRight_xor_eq_zero (a b m : ℕ) :
    (a ^^^ b) >>> m = 0 ↔ ∀ j, a.testBit (m + j) = b.testBit (m + j) := by
  constructor
  · intro h j
    have hbit := congrArg (·.testBit j) h
    simpa using hbit
  · intro h
    apply Nat.eq_of_testBit_eq
    intro j
    simp [h j]

/-- No bit is left of the difference when those of the prefix are the same. -/
theorem matches_iff (h : e.Kept) : (e.ipMask.addr ^^^ ip) >>> e.ipMask.mask = 0 ↔ e.Agrees ip := by
  obtain ⟨hone, hle⟩ := h
  have hmask : ((e.ipMask.mask).toNat : ℤ) = (32 - e.prefixLength) % 2 ^ 32 := toNat_ofInt _
  obtain ⟨m, hm⟩ : ∃ m, m = e.ipMask.mask.toNat := ⟨_, rfl⟩
  have hlt : m < 32 := by omega
  have haddr : e.ipMask.addr = e.addr := rfl
  rw [← UInt32.toNat_inj, UInt32.toNat_shiftRight, UInt32.toNat_xor, ← hm, Nat.mod_eq_of_lt hlt,
    UInt32.toNat_zero, shiftRight_xor_eq_zero, haddr, AllowEntry.Agrees]
  constructor
  · intro hall i hi
    have hbit := hall (31 - i - m)
    rwa [Nat.add_sub_cancel' (by omega)] at hbit
  · intro hall j
    by_cases hj : m + j < 32
    · have hbit := hall (31 - (m + j)) (by omega)
      rwa [Nat.sub_sub_self (by omega)] at hbit
    · have hpow : 2 ^ 32 ≤ 2 ^ (m + j) := Nat.pow_le_pow_right (by decide) (Nat.not_lt.mp hj)
      rw [Nat.testBit_lt_two_pow (e.addr.toNat_lt.trans_le hpow),
        Nat.testBit_lt_two_pow (ip.toNat_lt.trans_le hpow)]

end

section

variable {words : List (Option AllowEntry)} {cfg : Cfg} {ip : UInt32}

/-- The token of a word; between two spaces it is empty. -/
def wordText (w : Option AllowEntry) : List Char := (w.map AllowEntry.text).getD []

def wordMask (w : Option AllowEntry) : IPMask := (w.map AllowEntry.ipMask).getD ⟨0, 0⟩

theorem parseAddress_word {w : Option AllowEntry} (h : ∀ e, w = some e → e.InRange) :
    Cfg.parseAddress (wordText w) = some (wordMask w) := by
  classical
  cases w with
  | none => simp [wordText, wordMask, Cfg.parseAddress, tokenizer_nil]
  | some e =>
    have hparse := parseAddress_text e
    rwa [if_pos (h e rfl)] at hparse

theorem allowAll_words (h : ∀ e, some e ∈ words → e.InRange) :
    Cfg.allowAll (words.map wordText) cfg =
      some ⟨cfg.adminIPAllowed ++ (words.map wordMask).filter (·.mask < 32)⟩ := by
  induction words generalizing cfg with
  | nil => simp [Cfg.allowAll]
  | cons w words ih =>
    have hw : ∀ e, w = some e → e.InRange := fun e he => h e (he ▸ List.mem_cons_self)
    have hws := fun e he => h e (List.mem_cons_of_mem _ he)
    rw [List.map_cons, Cfg.allowAll, parseAddress_word hw, Option.bind_some, ih hws, List.map_cons]
    by_cases hlt : (wordMask w).mask < 32
    · simp [hlt]
    · simp [hlt]

theorem allowAll_out_of_range {e : AllowEntry} (he : some e ∈ words) (h : ¬ e.InRange) :
    Cfg.allowAll (words.map wordText) cfg = none := by
  classical
  induction words generalizing cfg with
  | nil => cases he
  | cons w words ih =>
    rw [List.map_cons, Cfg.allowAll]
    rcases List.mem_cons.mp he with rfl | he
    · have hparse : Cfg.parseAddress (wordText (some e)) = none :=
        (parseAddress_text e).trans (if_neg h)
      rw [hparse, Option.bind_none]
    · cases hp : Cfg.parseAddress (wordText w) with
      | none => rfl
      | some ipm => exact ih he

theorem mem_masks (h : ∀ e, some e ∈ words → e.InRange) {ipm : IPMask} :
    ipm ∈ ((trimmed words).map wordMask).filter (·.mask < 32) ↔
      none ∈ words.dropLast ∧ ipm = ⟨0, 0⟩ ∨ ∃ e, some e ∈ words ∧ e.Kept ∧ ipm = e.ipMask := by
  rw [List.mem_filter, List.mem_map, decide_eq_true_eq]
  constructor
  · rintro ⟨⟨w, hw, rfl⟩, hlt⟩
    cases w with
    | none => exact .inl ⟨none_mem_trimmed.mp hw, rfl⟩
    | some e =>
      have he := some_mem_trimmed.mp hw
      exact .inr ⟨e, he, (mask_lt_iff (h e he)).mp hlt, rfl⟩
  · rintro (⟨hnone, rfl⟩ | ⟨e, he, hkept, rfl⟩)
    · exact ⟨⟨none, none_mem_trimmed.mpr hnone, rfl⟩, by decide⟩
    · exact ⟨⟨some e, some_mem_trimmed.mpr he, rfl⟩, (mask_lt_iff (h e he)).mpr hkept⟩

/-- An empty word is kept as the address 0.0.0.0, and without any mask everybody is let in. -/
theorem isAdminIPAllowed_iff (h : ∀ e, some e ∈ words → e.InRange) :
    Cfg.isAdminIPAllowed ip ⟨((trimmed words).map wordMask).filter (·.mask < 32)⟩ = true ↔
      (none ∉ words.dropLast ∧ ∀ e, some e ∈ words → ¬ e.Kept) ∨
      (none ∈ words.dropLast ∧ ip = 0) ∨ ∃ e, some e ∈ words ∧ e.Kept ∧ e.Agrees ip := by
  have hmem := fun ipm => @mem_masks words h ipm
  have hzero : (0 ^^^ ip) >>> 0 = 0 ↔ ip = 0 := by simp
  rw [Cfg.isAdminIPAllowed, Bool.or_eq_true, List.isEmpty_iff, List.any_eq_true,
    List.eq_nil_iff_forall_not_mem]
  simp only [hmem, decide_eq_true_eq]
  constructor
  · rintro (hempty | ⟨ipm, ⟨hnone, rfl⟩ | ⟨e, he, hkept, rfl⟩, hmatch⟩)
    · refine .inl ⟨fun hnone => hempty ⟨0, 0⟩ (.inl ⟨hnone, rfl⟩), fun e he hkept => ?_⟩
      exact hempty _ (.inr ⟨e, he, hkept, rfl⟩)
    · exact .inr (.inl ⟨hnone, hzero.mp hmatch⟩)
    · exact .inr (.inr ⟨e, he, hkept, (matches_iff hkept).mp hmatch⟩)
  · rintro (⟨hnone, hnot⟩ | ⟨hnone, rfl⟩ | ⟨e, he, hkept, hagrees⟩)
    · refine .inl fun ipm hin => ?_
      rcases hin with ⟨hin, -⟩ | ⟨e, he, hkept, -⟩
      · exact hnone hin
      · exact hnot e he hkept
    · exact .inr ⟨_, .inl ⟨hnone, rfl⟩, hzero.mpr rfl⟩
    · exact .inr ⟨_, .inr ⟨e, he, hkept, rfl⟩, (matches_iff hkept).mpr hagrees⟩

end

/-- The words with a space between any two; an empty word is one space too many. -/
def allowText (words : List (Option AllowEntry)) : List Char :=
  [' '].intercalate (words.map wordText)

/-- Some entry has a valid prefix, in which the address agrees with it. -/
def Listed (words : List (Option AllowEntry)) (ip : UInt32) : Prop :=
  ∃ e, some e ∈ words ∧ (0 ≤ e.prefixLength ∧ e.prefixLength ≤ 32) ∧ e.Agrees ip

theorem setAdminAllowedIP_text (words : List (Option AllowEntry)) (cfg : Cfg) :
    cfg.setAdminAllowedIP (allowText words) = Cfg.allowAll ((trimmed words).map wordText) cfg := by
  have hfree : ∀ w ∈ words, ' ' ∉ wordText w := by
    intro w _
    cases w with
    | none => exact List.not_mem_nil
    | some e => exact not_mem_text e
  rw [Cfg.setAdminAllowedIP, allowText, tokenizer_intercalate rfl text_ne_nil hfree]

theorem listed_iff {words : List (Option AllowEntry)} {ip : UInt32} : Listed words ip ↔
    (∃ e, some e ∈ words ∧ e.Kept ∧ e.Agrees ip) ∨ ∃ e, some e ∈ words ∧ e.prefixLength = 0 := by
  constructor
  · rintro ⟨e, he, ⟨hnonneg, hle⟩, hagrees⟩
    by_cases hzero : e.prefixLength = 0
    · exact .inr ⟨e, he, hzero⟩
    · exact .inl ⟨e, he, ⟨by omega, hle⟩, hagrees⟩
  · rintro (⟨e, he, hkept, hagrees⟩ | ⟨e, he, hzero⟩)
    · exact ⟨e, he, ⟨by have := hkept.1; omega, hkept.2⟩, hagrees⟩
    · refine ⟨e, he, ⟨hzero.ge, by omega⟩, fun i hi => ?_⟩
      omega

/-- Who is let in is listed, for an address that agrees with an entry whose prefix is not empty, or
else where an entry has the empty prefix just when the list that is kept lets the address in. -/
theorem admin_allowed_iff (words : List (Option AllowEntry)) (ip : UInt32) :
    (∃ cfg, Cfg.setAdminAllowedIP (allowText words) {} = some cfg ∧
      (cfg.isAdminIPAllowed ip = true ↔ Listed words ip)) ↔
    (∀ e, some e ∈ words → e.InRange) ∧
      ((∃ e, some e ∈ words ∧ e.Kept ∧ e.Agrees ip) ∨
        ((∃ e, some e ∈ words ∧ e.prefixLength = 0) ↔
          (none ∈ words.dropLast ∧ ip = 0) ∨
          (none ∉ words.dropLast ∧ ∀ e, some e ∈ words → ¬ e.Kept))) := by
  by_cases hrange : ∀ e, some e ∈ words → e.InRange
  · have hall : ∀ e, some e ∈ trimmed words → e.InRange :=
      fun e he => hrange e (some_mem_trimmed.mp he)
    have hset : Cfg.setAdminAllowedIP (allowText words) {} =
        some ⟨((trimmed words).map wordMask).filter (·.mask < 32)⟩ := by
      rw [setAdminAllowedIP_text, allowAll_words hall, List.nil_append]
    have hallowed := @isAdminIPAllowed_iff words ip hrange
    have hsame : ∀ A Z E N : Prop, (N ∨ E ∨ A ↔ A ∨ Z) ↔ A ∨ (Z ↔ E ∨ N) := by
      intro A Z E N
      by_cases hA : A <;> simp [hA, or_comm, iff_comm]
    rw [and_iff_right hrange, ← hsame, ← hallowed, ← listed_iff, hset]
    simp only [Option.some.injEq, exists_eq_left']
  · refine iff_of_false ?_ fun h => hrange h.1
    push Not at hrange
    obtain ⟨e, he, hout⟩ := hrange
    rintro ⟨cfg, hset, -⟩
    rw [setAdminAllowedIP_text, allowAll_out_of_range (some_mem_trimmed.mpr he) hout] at hset
    cases hset

/-- One entry has the prefix length 33: nobody is listed, and everybody is let in. Of the other two
one lists everybody, and only those of the first are let in. -/
theorem admin_allowed_differs :
    let bad : List (Option AllowEntry) :=
      [some ⟨10, 0, 0, 8, some ⟨false, ['3', '3'], by simp, by simp⟩⟩]
    let all : List (Option AllowEntry) :=
      [some ⟨10, 0, 0, 8, some ⟨false, ['2', '4'], by simp, by simp⟩⟩,
        some ⟨0, 0, 0, 0, some ⟨false, ['0'], by simp, by simp⟩⟩]
    (allowText bad = "10.0.0.8/33".toList ∧ ¬ Listed bad 0x01020304 ∧
      ∃ cfg, Cfg.setAdminAllowedIP (allowText bad) {} = some cfg ∧
        cfg.isAdminIPAllowed 0x01020304 = true) ∧
    allowText all = "10.0.0.8/24 0.0.0.0/0".toList ∧ Listed all 0x01020304 ∧
      ∃ cfg, Cfg.setAdminAllowedIP (allowText all) {} = some cfg ∧
        cfg.isAdminIPAllowed 0x01020304 = false := by
  intro bad all
  have hset : ∀ words : List (Option AllowEntry), (∀ e, some e ∈ trimmed words → e.InRange) →
      Cfg.setAdminAllowedIP (allowText words) {} =
        some ⟨((trimmed words).map wordMask).filter (·.mask < 32)⟩ := by
    intro words h
    rw [setAdminAllowedIP_text, allowAll_words h, List.nil_append]
  refine ⟨⟨by decide, ?_, _, hset bad ?_, by decide +kernel⟩, by decide, ?_, _, hset all ?_,
    by decide +kernel⟩
  · rintro ⟨e, he, hvalid, -⟩
    obtain rfl := Option.some.inj (List.mem_singleton.mp he)
    revert hvalid
    decide
  · intro e he n hn
    obtain rfl := Option.some.inj (List.mem_singleton.mp he)
    obtain rfl := Option.some.inj hn
    decide
  · refine ⟨_, List.mem_cons_of_mem _ (List.mem_singleton_self _), by decide, fun i hi => ?_⟩
    exact absurd hi (by change ¬ (i : ℤ) < 0; omega)
  · intro e he n hn
    rcases List.mem_pair.mp he with he | he
    · obtain rfl := Option.some.inj he
      obtain rfl := Option.some.inj hn
      decide
    · obtain rfl := Option.some.inj he
      obtain rfl := Option.some.inj hn
      decide

end RgcFifa
