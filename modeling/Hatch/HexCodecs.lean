import Hatch.FaultProgram
import Hatch.HexText
import Hatch.JavaLatin1

/-!
# Four encoders and four decoders

The encoders of `Convert.java` and `Sm4.java` write one text, and every decoder reads it back in
either case; from `2 ^ 30` bytes on no string can hold the text and every encoder throws. The
decoders differ on other texts: `decodeHex` takes digits only, `hexToByte` and `hex2byte` take
a sign in front of a digit for a number, and `hexStringToBytes` takes everything.
-/

namespace Hatch.Convert

open Java
open FaultProgram (bind_eq_ok)

section Encoders

theorem substring_toString16 : ∀ b : Byte,
    substring (toString16 (unsigned b + 0x100)) 1 = .ok (digitPair hexDigit b) := by
  decide

theorem getHexString_eq (p : Platform) (bytes : List Byte) :
    getHexString p bytes true =
      if 2 * bytes.length < 2 ^ 31 then .ok (hexText bytes) else .error .outOfMemory := by
  have hdigits : (bytes.mapM fun b => substring (toString16 (unsigned b + 0x100)) 1) =
      .ok (bytes.map (digitPair hexDigit)) := by
    rw [funext substring_toString16]
    exact List.mapM_pure
  have hlen : (bytes.map (digitPair hexDigit)).flatten.length = 2 * bytes.length := by
    rw [← List.flatMap_def, length_digitPairs]
  have hupper := toUpperCase_digitPairs p hexDigit_plain asciiUpper_hexDigit bytes
  rw [List.flatMap_def] at hupper
  rw [getHexString, hdigits]
  change (alloc _ >>= _) = _
  rw [alloc, hlen]
  split
  · rw [← hupper]
    rfl
  · rfl

theorem digitAt_high : ∀ b : Byte, digitAt digitsUpper ((0xF0 &&& b.signExtend 32) >>> 4) =
    .ok (hexChar (b.toNat / 16)) := by
  decide

theorem digitAt_low : ∀ b : Byte, digitAt digitsUpper (0x0F &&& b.signExtend 32) =
    .ok (hexChar (b.toNat % 16)) := by
  decide

theorem encodePairs_eq (bytes : List Byte) :
    encodePairs digitsUpper bytes = .ok (hexText bytes) := by
  induction bytes with
  | nil => rfl
  | cons b bytes ih =>
      rw [encodePairs, digitAt_high, digitAt_low, ih]
      rfl

/-- The size of the array of characters is negative as soon as it does not fit. -/
theorem shiftLeft_neg_iff {n : ℕ} (h : n < 2 ^ 31) :
    (BitVec.ofNat 32 n <<< 1).toInt < 0 ↔ ¬ 2 * n < 2 ^ 31 := by
  have hsize : (BitVec.ofNat 32 n <<< 1).toNat = 2 * n := by
    rw [BitVec.toNat_shiftLeft, BitVec.toNat_ofNat, Nat.shiftLeft_eq]
    omega
  rw [BitVec.toInt_eq_toNat_cond, hsize]
  split <;> omega

theorem encodeHexString_eq {bytes : List Byte} (h : bytes.length < 2 ^ 31) :
    encodeHexString bytes false =
      if 2 * bytes.length < 2 ^ 31 then .ok (hexText bytes) else .error .negativeArraySize := by
  change encodeHex bytes digitsUpper = _
  rw [encodeHex, encodePairs_eq]
  by_cases hn : 2 * bytes.length < 2 ^ 31
  · rw [if_pos hn, if_neg fun hneg => (shiftLeft_neg_iff h).mp hneg hn]
  · rw [if_neg hn, if_pos ((shiftLeft_neg_iff h).mpr hn)]

end Encoders

structure EncodedAs (p : Platform) (bytes : List Byte) (w : Str) : Prop where
  byteToHex : byteToHex p (some bytes) = .ok w
  getHexString : getHexString p bytes true = .ok w
  encodeHexString : encodeHexString bytes false = .ok w
  parseByte2HexStr : Sm4.parseByte2HexStr p bytes = .ok w

structure DecodedAs (p : Platform) (w : Str) (bytes : List Byte) : Prop where
  hexStringToBytes : hexStringToBytes p (some w) = some bytes
  hexToByte : hexToByte p w = .ok bytes
  decodeHex : decodeHex p w = .ok bytes
  hex2byte : Sm4.hex2byte p (p.getBytes w) = .ok bytes

/-- The encoders write one text, and the decoders read it and its lower case back. -/
def CodecsAgree (p : Platform) (bytes : List Byte) : Prop :=
  ∃ w, EncodedAs p bytes w ∧ DecodedAs p w bytes ∧ DecodedAs p (w.map asciiLower) bytes

def NoneEncodes (p : Platform) (bytes : List Byte) : Prop :=
  byteToHex p (some bytes) = .error .outOfMemory ∧
  getHexString p bytes true = .error .outOfMemory ∧
  encodeHexString bytes false = .error .negativeArraySize ∧
  Sm4.parseByte2HexStr p bytes = .error .outOfMemory

section Agreement

variable {p : Platform} {w : Str} {bytes : List Byte}

theorem Spells.decodedAs (h : Spells w bytes) (hne : bytes ≠ []) (p : Platform) :
    DecodedAs p w bytes where
  hexStringToBytes := h.hexStringToBytes hne p
  hexToByte := h.hexToByte p
  decodeHex := h.decodeHex p
  hex2byte := by
    rw [Sm4.hex2byte_getBytes p h.plain.isAscii]
    exact h.hexToByte p

theorem asciiUpper_asciiLower_hexChar : ∀ n : Fin 16,
    asciiUpper (asciiLower (hexChar n)) = hexChar n := by
  decide

theorem spells_lower (bytes : List Byte) : Spells ((hexText bytes).map asciiLower) bytes := by
  apply spells_of_map_asciiUpper
  rw [List.map_map, hexText, List.map_flatMap]
  simp only [map_digitPair (f := asciiUpper ∘ asciiLower) asciiUpper_asciiLower_hexChar]

theorem encodedAs_hexText (p : Platform) (h : 2 * bytes.length < 2 ^ 31) :
    EncodedAs p bytes (hexText bytes) where
  byteToHex := by rw [byteToHex_eq, if_pos h]
  getHexString := by rw [getHexString_eq, if_pos h]
  encodeHexString := by rw [encodeHexString_eq (by omega), if_pos h]
  parseByte2HexStr := by rw [Sm4.parseByte2HexStr_eq, if_pos h]

theorem noneEncodes (p : Platform) (hlen : bytes.length < 2 ^ 31)
    (h : ¬ 2 * bytes.length < 2 ^ 31) : NoneEncodes p bytes := by
  refine ⟨?_, ?_, ?_, ?_⟩
  · rw [byteToHex_eq, if_neg h]
  · rw [getHexString_eq, if_neg h]
  · rw [encodeHexString_eq hlen, if_neg h]
  · rw [Sm4.parseByte2HexStr_eq, if_neg h]

theorem not_codecsAgree (h : ¬ 2 * bytes.length < 2 ^ 31) : ¬ CodecsAgree p bytes := by
  rintro ⟨w, henc, -⟩
  have hw := henc.byteToHex
  rw [byteToHex_eq, if_neg h] at hw
  cases hw

end Agreement

/-- Below `2 ^ 30` bytes the codecs agree, and from there on every encoder throws. -/
theorem hexCodecs_agree (p : Platform) (b : Java.Bytes) (hb : b.toList ≠ []) :
    (2 * b.toList.length < 2 ^ 31 → CodecsAgree p b.toList) ∧
      (2 ^ 31 ≤ 2 * b.toList.length → NoneEncodes p b.toList) := by
  constructor
  · intro hlen
    exact ⟨hexText b.toList, encodedAs_hexText p hlen, (spells_hexText b.toList).decodedAs hb p,
      (spells_lower b.toList).decodedAs hb p⟩
  · intro hlen
    exact noneEncodes p b.length_lt (Nat.not_lt_of_le hlen)

theorem hexCodecs_agree_a5 : CodecsAgree latin1 [0xA5] :=
  (hexCodecs_agree latin1 ⟨[0xA5], by decide⟩ (List.cons_ne_nil _ _)).1 (by decide)

/-- The text of `2 ^ 30` bytes is a character too long for a string. -/
theorem hexCodecs_too_long :
    List.replicate (2 ^ 30) (0 : Byte) ≠ [] ∧ (List.replicate (2 ^ 30) (0 : Byte)).length < 2 ^ 31 ∧
      ¬ CodecsAgree latin1 (List.replicate (2 ^ 30) 0) := by
  refine ⟨?_, ?_, not_codecsAgree ?_⟩
  · rw [Ne, List.replicate_eq_nil_iff]
    omega
  · rw [List.length_replicate]
    omega
  · rw [List.length_replicate]
    omega

structure AsciiString where
  toList : Str
  ascii : IsAscii toList
  length_lt : toList.length < 2 ^ 31

inductive Decoder
  | hexStringToBytes | hexToByte | decodeHex | hex2byte

def Decoder.decode (p : Platform) (w : Str) : Decoder → Except Throwable (Option (List Byte))
  | .hexStringToBytes => .ok (Convert.hexStringToBytes p (some w))
  | .hexToByte => (Convert.hexToByte p w).map some
  | .decodeHex => (Convert.decodeHex p w).map some
  | .hex2byte => (Sm4.hex2byte p (p.getBytes w)).map some

/-- An array that the decoder returns has the string as its text, up to letter case. -/
def OnlyHex (p : Platform) (d : Decoder) (w : Str) : Prop :=
  ∀ b, d.decode p w = .ok (some b) →
    ∃ v, byteToHex p (some b) = .ok v ∧ v.map asciiUpper = w.map asciiUpper

def IsHex (w : Str) : Prop := w.length % 2 = 0 ∧ ∀ c ∈ w, (asciiDigit c).isSome

def IsSign (c : Char16) : Prop := c = 0x2D ∨ c = 0x2B

def NumberPairs : Str → Prop
  | c0 :: c1 :: rest =>
      ((asciiDigit c0).isSome ∨ IsSign c0) ∧ (asciiDigit c1).isSome ∧ NumberPairs rest
  | [] => True
  | [_] => False

/-- The strings on which a decoder takes nothing but hexadecimal text. -/
def Decoder.Strict (w : Str) : Decoder → Prop
  | .hexStringToBytes => IsHex w
  | .hexToByte | .hex2byte => ¬ (NumberPairs w ∧ ∃ c ∈ w, IsSign c)
  | .decodeHex => True

section Decoders

variable {p : Platform} {w : Str} {bytes : List Byte}

theorem Spells.isHex (h : Spells w bytes) : IsHex w := by
  refine ⟨by rw [h.length]; omega, ?_⟩
  induction h with
  | nil => exact nofun
  | cons high low rest ih =>
      exact List.forall_mem_cons.mpr ⟨Option.isSome_of_eq_some high,
        List.forall_mem_cons.mpr ⟨Option.isSome_of_eq_some low, ih⟩⟩

theorem IsHex.spells (h : IsHex w) : ∃ bytes, Spells w bytes := by
  obtain ⟨hlen, hall⟩ := h
  induction w using List.twoStepInduction with
  | nil => exact ⟨[], .nil⟩
  | singleton c => cases hlen
  | cons_cons c0 c1 w ih _ =>
      obtain ⟨h0, hall⟩ := List.forall_mem_cons.mp hall
      obtain ⟨h1, hall⟩ := List.forall_mem_cons.mp hall
      obtain ⟨x, hx⟩ := Option.isSome_iff_exists.mp h0
      obtain ⟨y, hy⟩ := Option.isSome_iff_exists.mp h1
      obtain ⟨bytes, hbytes⟩ := ih (by rw [← hlen, List.length_cons, List.length_cons]; omega) hall
      have hx16 := (asciiDigit_spec hx).1
      have hy16 := (asciiDigit_spec hy).1
      have hb : (BitVec.ofNat 8 (16 * x + y)).toNat = 16 * x + y := by
        rw [BitVec.toNat_ofNat]
        omega
      refine ⟨BitVec.ofNat 8 (16 * x + y) :: bytes, .cons ?_ ?_ hbytes⟩
      · rw [hb, hx]
        congr 1
        omega
      · rw [hb, hy]
        congr 1
        omega

/-- The text of an array decides what spells it. -/
theorem onlyHex_iff {d : Decoder} (hlen : w.length < 2 ^ 31) :
    OnlyHex p d w ↔ ∀ b, d.decode p w = .ok (some b) → Spells w b := by
  constructor
  · intro h b hb
    obtain ⟨v, hv, hcase⟩ := h b hb
    rw [byteToHex_eq] at hv
    split at hv
    · cases hv
      rw [(spells_hexText b).map_asciiUpper] at hcase
      exact spells_of_map_asciiUpper hcase.symm
    · cases hv
  · intro h b hb
    have hs := h b hb
    have htext := hs.length
    refine ⟨hexText b, ?_, ?_⟩
    · rw [byteToHex_eq, if_pos (by omega)]
    · rw [(spells_hexText b).map_asciiUpper, hs.map_asciiUpper]

/-- A decoder that reads hexadecimal text as the array it spells takes nothing else just if
what it takes is hexadecimal text. -/
theorem onlyHex_iff_isHex {d : Decoder} (hlen : w.length < 2 ^ 31)
    (hd : ∀ b, Spells w b → d.decode p w = .ok (some b) ∨ d.decode p w = .ok none) :
    OnlyHex p d w ↔ ((∃ b, d.decode p w = .ok (some b)) → IsHex w) := by
  rw [onlyHex_iff hlen]
  constructor
  · rintro h ⟨b, hb⟩
    exact (h b hb).isHex
  · intro h b hb
    obtain ⟨b', hs⟩ := (h ⟨b, hb⟩).spells
    rcases hd b' hs with hd | hd
    · rw [hb] at hd
      cases hd
      exact hs
    · rw [hb] at hd
      cases hd

theorem map_some_eq_ok {e : Except Throwable (List Byte)} {b : List Byte} :
    e.map some = .ok (some b) ↔ e = .ok b := by
  cases e with
  | error e => exact ⟨nofun, nofun⟩
  | ok a =>
      constructor
      · intro h
        cases h
        rfl
      · intro h
        cases h
        rfl

theorem parsePairs_of_numberPairs (h : NumberPairs w) : ∃ b, parsePairs p w = .ok b := by
  induction w using List.twoStepInduction with
  | nil => exact ⟨[], rfl⟩
  | singleton c => exact h.elim
  | cons_cons c0 c1 w ih _ =>
      obtain ⟨h0, h1, hrest⟩ := h
      obtain ⟨y, hy⟩ := Option.isSome_iff_exists.mp h1
      obtain ⟨b, hb⟩ := ih hrest
      have hvalue : ∃ v, parseInt p [c0, c1] = .ok v := by
        rcases h0 with h0 | rfl | rfl
        · obtain ⟨x, hx⟩ := Option.isSome_iff_exists.mp h0
          exact ⟨_, parseInt_digits p hx hy⟩
        · exact ⟨_, parseInt_minus p hy⟩
        · exact ⟨_, parseInt_plus p hy⟩
      obtain ⟨v, hv⟩ := hvalue
      rw [parsePairs, hv, hb]
      exact ⟨_, rfl⟩

theorem numberPairs_of_parsePairs (hascii : IsAscii w) (heven : w.length % 2 = 0)
    (h : parsePairs p w = .ok bytes) : NumberPairs w := by
  induction w using List.twoStepInduction generalizing bytes with
  | nil => trivial
  | singleton c => cases heven
  | cons_cons c0 c1 w ih _ =>
      obtain ⟨h0, hascii⟩ := List.forall_mem_cons.mp hascii
      obtain ⟨h1, hascii⟩ := List.forall_mem_cons.mp hascii
      rw [List.length_cons, List.length_cons] at heven
      rw [parsePairs] at h
      obtain ⟨v, hv, h⟩ := bind_eq_ok h
      obtain ⟨b, hb, -⟩ := bind_eq_ok h
      obtain ⟨hhigh, hlow⟩ := parseInt_pair_ok p h0 h1 hv
      exact ⟨hhigh, hlow, ih hascii (by omega) hb⟩

theorem NumberPairs.even (h : NumberPairs w) : w.length % 2 = 0 := by
  induction w using List.twoStepInduction with
  | nil => rfl
  | singleton c => exact h.elim
  | cons_cons c0 c1 w ih _ =>
      rw [List.length_cons, List.length_cons]
      have hrest := ih h.2.2
      omega

theorem hexToByte_ok_iff (hascii : IsAscii w) :
    (∃ b, hexToByte p w = .ok b) ↔ NumberPairs w := by
  rw [hexToByte]
  constructor
  · rintro ⟨b, hb⟩
    split at hb
    · cases hb
    · next heven => exact numberPairs_of_parsePairs hascii (by omega) hb
  · intro h
    rw [if_neg (by rw [h.even]; decide)]
    exact parsePairs_of_numberPairs h

theorem NumberPairs.isHex (h : NumberPairs w) (hsign : ∀ c ∈ w, ¬ IsSign c) : IsHex w := by
  refine ⟨h.even, ?_⟩
  induction w using List.twoStepInduction with
  | nil => exact nofun
  | singleton c => exact h.elim
  | cons_cons c0 c1 w ih _ =>
      obtain ⟨hs0, hsign⟩ := List.forall_mem_cons.mp hsign
      obtain ⟨hs1, hsign⟩ := List.forall_mem_cons.mp hsign
      exact List.forall_mem_cons.mpr ⟨h.1.resolve_right hs0,
        List.forall_mem_cons.mpr ⟨h.2.1, ih h.2.2 hsign⟩⟩

theorem IsHex.not_sign (h : IsHex w) : ∀ c ∈ w, ¬ IsSign c := by
  intro c hc hs
  have hd := h.2 c hc
  rcases hs with rfl | rfl
  · cases hd
  · cases hd

theorem isSome_of_toDigit {c : Char16} (hc : c < 0x80) {j : ℕ} {f : BitVec 32}
    (h : toDigit p c j = .ok f) : (asciiDigit c).isSome := by
  rw [toDigit, p.digit_ascii c hc] at h
  cases hd : asciiDigit c with
  | none =>
      rw [hd] at h
      cases h
  | some d => rfl

theorem isHex_of_decodePairs (hascii : IsAscii w) (heven : w.length % 2 = 0) {j : ℕ}
    (h : decodePairs p j w = .ok bytes) : IsHex w := by
  refine ⟨heven, ?_⟩
  induction w using List.twoStepInduction generalizing j bytes with
  | nil => exact nofun
  | singleton c => cases heven
  | cons_cons c0 c1 w ih _ =>
      obtain ⟨h0, hascii⟩ := List.forall_mem_cons.mp hascii
      obtain ⟨h1, hascii⟩ := List.forall_mem_cons.mp hascii
      rw [List.length_cons, List.length_cons] at heven
      rw [decodePairs] at h
      obtain ⟨f, hf, h⟩ := bind_eq_ok h
      obtain ⟨g, hg, h⟩ := bind_eq_ok h
      obtain ⟨b, hb, -⟩ := bind_eq_ok h
      exact List.forall_mem_cons.mpr ⟨isSome_of_toDigit h0 hf,
        List.forall_mem_cons.mpr ⟨isSome_of_toDigit h1 hg, ih hascii (by omega) hb⟩⟩

/-- What is taken as numbers is hexadecimal text unless it has a sign. -/
theorem numberPairs_imp_isHex_iff :
    (NumberPairs w → IsHex w) ↔ ¬ (NumberPairs w ∧ ∃ c ∈ w, IsSign c) := by
  constructor
  · rintro h ⟨hpairs, c, hc, hs⟩
    exact (h hpairs).not_sign c hc hs
  · intro h hpairs
    exact hpairs.isHex fun c hc hs => h ⟨hpairs, c, hc, hs⟩

theorem onlyHex_hexToByte_iff (hascii : IsAscii w) (hlen : w.length < 2 ^ 31) :
    OnlyHex p .hexToByte w ↔ ¬ (NumberPairs w ∧ ∃ c ∈ w, IsSign c) := by
  have hread : ∀ b, Spells w b → Decoder.decode p w .hexToByte = .ok (some b) ∨
      Decoder.decode p w .hexToByte = .ok none :=
    fun b hs => .inl (map_some_eq_ok.mpr (hs.hexToByte p))
  rw [onlyHex_iff_isHex hlen hread, ← numberPairs_imp_isHex_iff,
    ← hexToByte_ok_iff (p := p) hascii]
  simp only [Decoder.decode, map_some_eq_ok]

theorem onlyHex_hex2byte_iff (hascii : IsAscii w) (hlen : w.length < 2 ^ 31) :
    OnlyHex p .hex2byte w ↔ ¬ (NumberPairs w ∧ ∃ c ∈ w, IsSign c) := by
  have hsame : Decoder.decode p w .hex2byte = Decoder.decode p w .hexToByte := by
    rw [Decoder.decode, Decoder.decode, Sm4.hex2byte_getBytes p hascii]
  rw [OnlyHex, hsame]
  exact onlyHex_hexToByte_iff hascii hlen

/-- Every text but the empty one is read as some array. -/
theorem onlyHex_hexStringToBytes_iff (hlen : w.length < 2 ^ 31) :
    OnlyHex p .hexStringToBytes w ↔ IsHex w := by
  have hread : ∀ b, Spells w b → Decoder.decode p w .hexStringToBytes = .ok (some b) ∨
      Decoder.decode p w .hexStringToBytes = .ok none := by
    intro b hs
    by_cases hb : b = []
    · subst hb
      obtain rfl : w = [] := List.eq_nil_of_length_eq_zero hs.length
      exact .inr rfl
    · left
      rw [Decoder.decode, hs.hexStringToBytes hb p]
  rw [onlyHex_iff_isHex hlen hread]
  constructor
  · intro h
    cases w with
    | nil => exact Spells.nil.isHex
    | cons c cs => exact h ⟨pairsToBytes (p.toUpperCase (c :: cs)), rfl⟩
  · intro h _
    exact h

theorem onlyHex_decodeHex (hascii : IsAscii w) (hlen : w.length < 2 ^ 31) :
    OnlyHex p .decodeHex w := by
  have hread : ∀ b, Spells w b → Decoder.decode p w .decodeHex = .ok (some b) ∨
      Decoder.decode p w .decodeHex = .ok none :=
    fun b hs => .inl (map_some_eq_ok.mpr (hs.decodeHex p))
  refine (onlyHex_iff_isHex hlen hread).mpr ?_
  rintro ⟨b, hb⟩
  have hdecode := map_some_eq_ok.mp hb
  rw [decodeHex] at hdecode
  split at hdecode
  · cases hdecode
  · next heven => exact isHex_of_decodePairs hascii (by omega) hdecode

end Decoders

/-- `decodeHex` takes nothing but hexadecimal text, `hexStringToBytes` takes every text, and the
other two take a sign in the place of the first digit. -/
theorem decoder_onlyHex_iff (p : Platform) (d : Decoder) (w : AsciiString) :
    OnlyHex p d w.toList ↔ d.Strict w.toList := by
  cases d with
  | hexStringToBytes => exact onlyHex_hexStringToBytes_iff w.length_lt
  | hexToByte => exact onlyHex_hexToByte_iff w.ascii w.length_lt
  | hex2byte => exact onlyHex_hex2byte_iff w.ascii w.length_lt
  | decodeHex => exact iff_of_true (onlyHex_decodeHex w.ascii w.length_lt) trivial

/-- `-1` is read as the byte `FF`, `+1` as `01` and `zz` as `FF`. -/
theorem decoders_accept_others :
    ¬ OnlyHex latin1 .hexToByte (literal ['-', '1']) ∧
    ¬ OnlyHex latin1 .hex2byte (literal ['+', '1']) ∧
    ¬ OnlyHex latin1 .hexStringToBytes (literal ['z', 'z']) := by
  refine ⟨fun h => ?_, fun h => ?_, fun h => ?_⟩
  · have hs := (onlyHex_iff (by decide)).mp h [0xFF] rfl
    exact absurd (hs.isHex.2 0x2D (by decide)) (by decide)
  · have hs := (onlyHex_iff (by decide)).mp h [0x01] rfl
    exact absurd (hs.isHex.2 0x2B (by decide)) (by decide)
  · have hs := (onlyHex_iff (by decide)).mp h [0xFF] rfl
    exact absurd (hs.isHex.2 0x7A (by decide)) (by decide)

end Hatch.Convert
