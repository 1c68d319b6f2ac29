import Hatch.Sm4Text

/-!
# Hexadecimal text

The text of an array has two upper-case digits per byte. `byteToHex` and `parseByte2HexStr`
write it. A text spells an array when it has the digits of its bytes in either case; all four
decoders read a text as the array it spells, and `hex2byte` does on ASCII text what `hexToByte`
does.
-/

namespace Hatch.Convert

open Java

def hexChar (n : ℕ) : Char16 := BitVec.ofNat 16 (if n < 10 then 0x30 + n else 0x37 + n)

def digitPair (d : ℕ → Char16) (b : Byte) : Str := [d (b.toNat / 16), d (b.toNat % 16)]

def hexText (bytes : List Byte) : Str := bytes.flatMap (digitPair hexChar)

section Digits

variable (d : ℕ → Char16)

theorem length_digitPairs (bytes : List Byte) :
    (bytes.flatMap (digitPair d)).length = 2 * bytes.length := by
  induction bytes with
  | nil => rfl
  | cons b bytes ih =>
      rw [List.flatMap_cons, List.length_append, ih, List.length_cons, digitPair, List.length_cons,
        List.length_singleton]
      omega

end Digits

/-- ASCII text without `i`, which has the same upper case in every locale. -/
def Plain (s : Str) : Prop := ∀ c ∈ s, c < 0x80 ∧ c ≠ 0x69

theorem Plain.isAscii {s : Str} (h : Plain s) : IsAscii s := fun c hc => (h c hc).1

theorem Plain.toUpperCase {s : Str} (h : Plain s) (p : Platform) :
    p.toUpperCase s = s.map asciiUpper := by
  rw [p.toUpperCase_ascii s h.isAscii]
  exact List.map_congr_left fun c hc => if_neg (h c hc).2

theorem Plain.flatMap {f : Byte → Str} (h : ∀ b, Plain (f b)) (bytes : List Byte) :
    Plain (bytes.flatMap f) := by
  intro c hc
  obtain ⟨b, -, hb⟩ := List.mem_flatMap.mp hc
  exact h b c hb

section Case

variable {d e : ℕ → Char16}

theorem plain_digitPair (h : ∀ n : Fin 16, d n < 0x80 ∧ d n ≠ 0x69) (b : Byte) :
    Plain (digitPair d b) := by
  have hb := b.isLt
  intro c hc
  rw [digitPair, List.mem_cons, List.mem_singleton] at hc
  rcases hc with rfl | rfl
  · exact h ⟨b.toNat / 16, by omega⟩
  · exact h ⟨b.toNat % 16, by omega⟩

theorem map_digitPair {f : Char16 → Char16} (h : ∀ n : Fin 16, f (d n) = e n) (b : Byte) :
    (digitPair d b).map f = digitPair e b := by
  have hb := b.isLt
  have hhigh := h ⟨b.toNat / 16, by omega⟩
  have hlow := h ⟨b.toNat % 16, by omega⟩
  rw [digitPair, List.map_cons, List.map_singleton, hhigh, hlow]
  rfl

/-- Digits of either case become upper-case text. -/
theorem toUpperCase_digitPairs (p : Platform) (hplain : ∀ n : Fin 16, d n < 0x80 ∧ d n ≠ 0x69)
    (hupper : ∀ n : Fin 16, asciiUpper (d n) = hexChar n) (bytes : List Byte) :
    p.toUpperCase (bytes.flatMap (digitPair d)) = hexText bytes := by
  rw [(Plain.flatMap (plain_digitPair hplain) bytes).toUpperCase, hexText, List.map_flatMap]
  simp only [map_digitPair hupper]

end Case

/-- Of the eight digits of a byte as an `int` the first six are zeros. -/
theorem digits_unsigned (b : Byte) :
    [28, 24, 20, 16, 12, 8, 4, 0].map (fun k => hexDigit ((unsigned b).toNat / 2 ^ k % 16)) =
      List.replicate 6 0x30 ++ digitPair hexDigit b := by
  have hb := b.isLt
  have hnat : (unsigned b).toNat = b.toNat := by
    rw [unsigned_eq, BitVec.toNat_setWidth]
    omega
  have hzero (k : ℕ) (hk : 2 ^ 8 ≤ 2 ^ k) : hexDigit (b.toNat / 2 ^ k % 16) = 0x30 := by
    rw [Nat.div_eq_of_lt (hb.trans_le hk)]
    rfl
  have hhigh : b.toNat / 2 ^ 4 % 16 = b.toNat / 16 := by omega
  simp only [hnat, List.map_cons, List.map_nil, hhigh, Nat.pow_zero, Nat.div_one]
  rw [hzero 28 (by decide), hzero 24 (by decide), hzero 20 (by decide), hzero 16 (by decide),
    hzero 12 (by decide), hzero 8 (by decide)]
  rfl

theorem hexPair_eq : hexPair = digitPair hexDigit := by
  funext b
  -- `toHexString` drops the zeros in front, and `hexPair` puts one back
  simp only [hexPair, toHexString, digits_unsigned, digitPair]
  by_cases hhigh : hexDigit (b.toNat / 16) = 0x30#16
  · by_cases hlow : hexDigit (b.toNat % 16) = 0x30#16
    · simp [hhigh, hlow]
    · simp [hhigh, hlow]
  · simp [hhigh]

theorem hexDigit_plain : ∀ n : Fin 16, hexDigit n < 0x80 ∧ hexDigit n ≠ 0x69 := by decide

theorem asciiUpper_hexDigit : ∀ n : Fin 16, asciiUpper (hexDigit n) = hexChar n := by decide

theorem hexChar_plain : ∀ n : Fin 16, hexChar n < 0x80 ∧ hexChar n ≠ 0x69 := by decide

theorem asciiUpper_hexChar : ∀ n : Fin 16, asciiUpper (hexChar n) = hexChar n := by decide

theorem toUpperCase_hexPairs (p : Platform) (bytes : List Byte) :
    p.toUpperCase (bytes.flatMap hexPair) = hexText bytes := by
  rw [hexPair_eq]
  exact toUpperCase_digitPairs p hexDigit_plain asciiUpper_hexDigit bytes

theorem length_hexText (bytes : List Byte) : (hexText bytes).length = 2 * bytes.length :=
  length_digitPairs hexChar bytes

theorem isAscii_hexText (bytes : List Byte) : IsAscii (hexText bytes) :=
  (Plain.flatMap (plain_digitPair hexChar_plain) bytes).isAscii

theorem byteToHex_eq (p : Platform) (bytes : List Byte) :
    byteToHex p (some bytes) =
      if 2 * bytes.length < 2 ^ 31 then .ok (hexText bytes) else .error .outOfMemory := by
  have hlen : (bytes.flatMap hexPair).length = 2 * bytes.length := by
    rw [hexPair_eq, length_digitPairs]
  rw [byteToHex, alloc, hlen]
  split
  · rw [← toUpperCase_hexPairs p]
    rfl
  · rfl

theorem forall_ascii {P : Char16 → Prop} (h : ∀ n : Fin 128, P (BitVec.ofNat 16 n)) {c : Char16}
    (hc : c < 0x80) : P c := by
  have hlt : c.toNat < 128 := hc
  have hP := h ⟨c.toNat, hlt⟩
  rwa [BitVec.ofNat_toNat, BitVec.setWidth_eq] at hP

section Digit

variable {c : Char16} {n : ℕ}

theorem ascii_of_asciiDigit (h : asciiDigit c = some n) : c < 0x80 := by
  unfold asciiDigit at h
  change c.toNat < 0x80
  split at h
  · next hc =>
    have hle : c.toNat ≤ 0x39 := hc.2
    omega
  · split at h
    · next hc =>
      have hle : c.toNat ≤ 0x46 := hc.2
      omega
    · split at h
      · next hc =>
        have hle : c.toNat ≤ 0x66 := hc.2
        omega
      · cases h

theorem asciiDigit_table : ∀ m : Fin 128, ∀ n ∈ asciiDigit (BitVec.ofNat 16 m),
    n < 16 ∧ asciiUpper (BitVec.ofNat 16 m) = hexChar n ∧ BitVec.ofNat 16 m ≠ 0x69 ∧
      ¬ BitVec.ofNat 16 m < (0x30 : Char16) := by
  decide

/-- A digit is ASCII, below 16 and no sign, and its upper case is that of its value. -/
theorem asciiDigit_spec (h : asciiDigit c = some n) :
    n < 16 ∧ asciiUpper c = hexChar n ∧ c ≠ 0x69 ∧ ¬ c < 0x30 :=
  forall_ascii (P := fun c => ∀ n ∈ asciiDigit c,
    n < 16 ∧ asciiUpper c = hexChar n ∧ c ≠ 0x69 ∧ ¬ c < 0x30)
    asciiDigit_table (ascii_of_asciiDigit h) n h

theorem asciiDigit_hexChar : ∀ n : Fin 16, asciiDigit (hexChar n) = some n.val := by decide

theorem asciiDigit_lower : ∀ n : Fin 16, 0x61 ≤ hexChar n + 0x20 →
    asciiDigit (hexChar n + 0x20) = some n.val := by
  decide

/-- A character whose upper case is a digit is this digit in either case. -/
theorem asciiDigit_of_upper {n : Fin 16} (h : asciiUpper c = hexChar n) :
    asciiDigit c = some n.val := by
  unfold asciiUpper at h
  split at h
  · next hc =>
    obtain rfl : c = hexChar n + 0x20 := by rw [← h, BitVec.sub_add_cancel]
    exact asciiDigit_lower n hc.1
  · rw [h]
    exact asciiDigit_hexChar n

end Digit

/-- The text has the digits of the array, each in either case. -/
inductive Spells : Str → List Byte → Prop
  | nil : Spells [] []
  | cons {c0 c1 : Char16} {w : Str} {b : Byte} {bytes : List Byte}
      (high : asciiDigit c0 = some (b.toNat / 16)) (low : asciiDigit c1 = some (b.toNat % 16))
      (rest : Spells w bytes) : Spells (c0 :: c1 :: w) (b :: bytes)

section Spelling

variable {w : Str} {bytes : List Byte}

theorem Spells.map_asciiUpper (h : Spells w bytes) : w.map asciiUpper = hexText bytes := by
  induction h with
  | nil => rfl
  | cons high low rest ih =>
      rw [List.map_cons, List.map_cons, ih, (asciiDigit_spec high).2.1, (asciiDigit_spec low).2.1]
      rfl

theorem spells_of_map_asciiUpper (h : w.map asciiUpper = hexText bytes) : Spells w bytes := by
  induction bytes generalizing w with
  | nil =>
      obtain rfl : w = [] := List.map_eq_nil_iff.mp h
      exact .nil
  | cons b bytes ih =>
      have hb := b.isLt
      match w, h with
      | [c0], h => cases (List.cons.inj h).2
      | c0 :: c1 :: rest, h =>
          obtain ⟨h0, h⟩ := List.cons.inj h
          obtain ⟨h1, h⟩ := List.cons.inj h
          exact .cons (asciiDigit_of_upper (n := ⟨b.toNat / 16, by omega⟩) h0)
            (asciiDigit_of_upper (n := ⟨b.toNat % 16, by omega⟩) h1) (ih h)

theorem spells_hexText (bytes : List Byte) : Spells (hexText bytes) bytes := by
  refine spells_of_map_asciiUpper ?_
  rw [hexText, List.map_flatMap]
  simp only [map_digitPair asciiUpper_hexChar]

theorem Spells.plain (h : Spells w bytes) : Plain w := by
  induction h with
  | nil => exact nofun
  | cons high low rest ih =>
      intro c hc
      rcases List.mem_cons.mp hc with rfl | hc
      · exact ⟨ascii_of_asciiDigit high, (asciiDigit_spec high).2.2.1⟩
      · rcases List.mem_cons.mp hc with rfl | hc
        · exact ⟨ascii_of_asciiDigit low, (asciiDigit_spec low).2.2.1⟩
        · exact ih c hc

theorem Spells.length (h : Spells w bytes) : w.length = 2 * bytes.length := by
  rw [← length_hexText, ← h.map_asciiUpper, List.length_map]

theorem charToByte_hexChar : ∀ n : Fin 16, charToByte (hexChar n) = BitVec.ofNat 8 n := by decide

theorem or_halves : ∀ b : Byte, ((BitVec.ofNat 8 (b.toNat / 16)).signExtend 32 <<< 4 |||
    (BitVec.ofNat 8 (b.toNat % 16)).signExtend 32).setWidth 8 = b := by
  decide

theorem pairToByte_hexChar (b : Byte) :
    pairToByte (hexChar (b.toNat / 16)) (hexChar (b.toNat % 16)) = b := by
  have hb := b.isLt
  have hhigh := charToByte_hexChar ⟨b.toNat / 16, by omega⟩
  have hlow := charToByte_hexChar ⟨b.toNat % 16, by omega⟩
  rw [pairToByte, hhigh, hlow]
  exact or_halves b

theorem pairsToBytes_hexText (bytes : List Byte) : pairsToBytes (hexText bytes) = bytes := by
  induction bytes with
  | nil => rfl
  | cons b bytes ih =>
      change pairToByte _ _ :: pairsToBytes (hexText bytes) = _
      rw [pairToByte_hexChar, ih]

theorem Spells.hexStringToBytes (h : Spells w bytes) (hne : bytes ≠ []) (p : Platform) :
    hexStringToBytes p (some w) = some bytes := by
  cases h with
  | nil => exact absurd rfl hne
  | cons high low rest =>
      have hw := Spells.cons high low rest
      change some (pairsToBytes (p.toUpperCase _)) = _
      rw [hw.plain.toUpperCase, hw.map_asciiUpper, pairsToBytes_hexText]

theorem hexStringToBytes_hexText (p : Platform) (h : bytes ≠ []) :
    Convert.hexStringToBytes p (some (hexText bytes)) = some bytes :=
  (spells_hexText bytes).hexStringToBytes h p

end Spelling

section Pairs

variable (p : Platform) {c0 c1 : Char16} {x y : ℕ}

theorem magnitude_digit (h : asciiDigit c1 = some y) {limit : ℕ} (hlimit : 16 ≤ limit) :
    magnitude p [c1] limit = .ok y := by
  have hd : p.digit c1 = some y := (p.digit_ascii c1 (ascii_of_asciiDigit h)).trans h
  have hy := (asciiDigit_spec h).1
  rw [magnitude, List.mapM_cons, hd]
  simp
  omega

theorem parseInt_digits (h0 : asciiDigit c0 = some x) (h1 : asciiDigit c1 = some y) :
    parseInt p [c0, c1] = .ok (16 * x + y) := by
  have hd0 : p.digit c0 = some x := (p.digit_ascii c0 (ascii_of_asciiDigit h0)).trans h0
  have hd1 : p.digit c1 = some y := (p.digit_ascii c1 (ascii_of_asciiDigit h1)).trans h1
  have hx := (asciiDigit_spec h0).1
  have hy := (asciiDigit_spec h1).1
  rw [parseInt, if_neg (asciiDigit_spec h0).2.2.2, magnitude]
  simp [hd0, hd1]
  omega

theorem parseInt_minus (h : asciiDigit c1 = some y) : parseInt p [0x2D, c1] = .ok (-y) := by
  rw [parseInt, if_pos (by decide), if_pos rfl, magnitude_digit p h (by decide)]
  rfl

theorem parseInt_plus (h : asciiDigit c1 = some y) : parseInt p [0x2B, c1] = .ok y := by
  rw [parseInt, if_pos (by decide), if_neg (by decide), if_pos rfl,
    magnitude_digit p h (by decide)]

theorem isSome_of_mapM {f : Char16 → Option ℕ} {cs : Str} {ds : List ℕ} (h : cs.mapM f = some ds) :
    ∀ c ∈ cs, (f c).isSome := by
  induction cs generalizing ds with
  | nil => exact nofun
  | cons c cs ih =>
      rw [List.mapM_cons] at h
      obtain ⟨d, hd, h⟩ := Option.bind_eq_some_iff.mp h
      obtain ⟨ds', hds, -⟩ := Option.bind_eq_some_iff.mp h
      intro c' hc
      rcases List.mem_cons.mp hc with rfl | hc
      · exact Option.isSome_of_eq_some hd
      · exact ih hds c' hc

theorem isSome_of_magnitude {cs : Str} {limit : ℕ} {v : Int} (hcs : IsAscii cs)
    (h : magnitude p cs limit = .ok v) : ∀ c ∈ cs, (asciiDigit c).isSome := by
  intro c hc
  rw [← p.digit_ascii c (hcs c hc)]
  rw [magnitude] at h
  cases hm : cs.mapM p.digit with
  | none =>
      rw [hm] at h
      cases h
  | some ds => exact isSome_of_mapM hm c hc

/-- Two ASCII characters that are a number: a digit behind a digit or a sign. -/
theorem parseInt_pair_ok (h0 : c0 < 0x80) (h1 : c1 < 0x80) {v : Int}
    (h : parseInt p [c0, c1] = .ok v) :
    ((asciiDigit c0).isSome ∨ c0 = 0x2D ∨ c0 = 0x2B) ∧ (asciiDigit c1).isSome := by
  have hcs : IsAscii [c1] := List.forall_mem_singleton.mpr h1
  have hlow {limit : ℕ} {v : Int} (hm : magnitude p [c1] limit = .ok v) : (asciiDigit c1).isSome :=
    isSome_of_magnitude p hcs hm c1 (List.mem_singleton.mpr rfl)
  rw [parseInt] at h
  split at h
  · split at h
    · next hc =>
      cases hm : magnitude p [c1] (2 ^ 31) with
      | error e =>
          rw [hm] at h
          cases h
      | ok v => exact ⟨.inr (.inl hc), hlow hm⟩
    · split at h
      · next hc => exact ⟨.inr (.inr hc), hlow h⟩
      · cases h
  · have hall := isSome_of_magnitude p (List.forall_mem_cons.mpr ⟨h0, hcs⟩) h
    obtain ⟨hx, hrest⟩ := List.forall_mem_cons.mp hall
    exact ⟨.inl hx, hrest c1 (List.mem_singleton.mpr rfl)⟩

theorem setWidth_and_ofInt (v : Int) :
    (BitVec.ofInt 32 v &&& 0xFF).setWidth 8 = BitVec.ofInt 8 v := by
  apply BitVec.eq_of_toNat_eq
  rw [BitVec.toNat_setWidth, BitVec.toNat_and, BitVec.toNat_ofInt, BitVec.toNat_ofInt]
  have hmask := Nat.and_two_pow_sub_one_eq_mod (v % 2 ^ 32).toNat 8
  change ((v % 2 ^ 32).toNat &&& (2 ^ 8 - 1)) % 2 ^ 8 = _
  rw [hmask]
  omega

theorem decode_halves : ∀ b : Byte, ((BitVec.ofNat 32 (b.toNat / 16) <<< 4 |||
    BitVec.ofNat 32 (b.toNat % 16)) &&& 0xFF).setWidth 8 = b := by
  decide

variable {w : Str} {bytes : List Byte}

theorem Spells.parsePairs (h : Spells w bytes) : parsePairs p w = .ok bytes := by
  induction h with
  | nil => rfl
  | @cons c0 c1 w b bytes high low rest ih =>
      have hvalue : (16 * (b.toNat / 16 : ℕ) + (b.toNat % 16 : ℕ) : Int) = b.toNat := by omega
      have hbyte : BitVec.ofInt 8 (b.toNat : Int) = b := by simp
      rw [Convert.parsePairs, parseInt_digits p high low, ih]
      simp only [bind, Except.bind, pure, Except.pure, setWidth_and_ofInt, hvalue, hbyte]

theorem Spells.hexToByte (h : Spells w bytes) : hexToByte p w = .ok bytes := by
  have hlen := h.length
  rw [Convert.hexToByte, if_neg (by omega)]
  exact h.parsePairs p

theorem toDigit_of_asciiDigit (h : asciiDigit c0 = some x) (j : ℕ) :
    toDigit p c0 j = .ok (BitVec.ofNat 32 x) := by
  rw [toDigit, p.digit_ascii c0 (ascii_of_asciiDigit h), h]

theorem Spells.decodePairs (h : Spells w bytes) (j : ℕ) : decodePairs p j w = .ok bytes := by
  induction h generalizing j with
  | nil => rfl
  | cons high low rest ih =>
      rw [Convert.decodePairs, toDigit_of_asciiDigit p high, toDigit_of_asciiDigit p low, ih]
      simp only [bind, Except.bind, pure, Except.pure, decode_halves]

theorem Spells.decodeHex (h : Spells w bytes) : decodeHex p w = .ok bytes := by
  have hlen := h.length
  rw [Convert.decodeHex, if_neg (by omega)]
  exact h.decodePairs p 0

end Pairs

end Hatch.Convert

namespace Hatch.Sm4

open Java Hatch.Convert

theorem parseByte2HexStr_eq (p : Platform) (buf : List Byte) :
    parseByte2HexStr p buf =
      if 2 * buf.length < 2 ^ 31 then .ok (hexText buf) else .error .outOfMemory := by
  have hupper (b : Byte) : p.toUpperCase (hexPair b) = digitPair hexChar b := by
    have h := toUpperCase_hexPairs p [b]
    rw [List.flatMap_singleton] at h
    exact h
  have htext : (buf.flatMap fun b => p.toUpperCase (hexPair b)) = hexText buf := by
    simp only [hupper, hexText]
  rw [parseByte2HexStr, alloc, htext, length_hexText]

/-- Bytes whose pairs are read as the pairs of characters of `w`. -/
theorem hexPairs_eq (p : Platform) {w : Str} {text : List Byte} (hlen : text.length = w.length)
    (h : ∀ i, p.newString ((text.drop i).take 2) = (w.drop i).take 2) :
    hexPairs p text = parsePairs p w := by
  induction w using List.twoStepInduction generalizing text with
  | nil =>
      obtain rfl : text = [] := List.eq_nil_of_length_eq_zero hlen
      rfl
  | singleton c =>
      match text, hlen with
      | [b], _ => rfl
  | cons_cons c0 c1 w ih _ =>
      match text, hlen with
      | b0 :: b1 :: rest, hlen =>
          have hrest : hexPairs p rest = parsePairs p w :=
            ih (Nat.succ.inj (Nat.succ.inj hlen)) fun i => h (i + 2)
          have hfirst : p.newString [b0, b1] = [c0, c1] := h 0
          rw [hexPairs, parsePairs, hfirst, hrest]
          simp only [setWidth_and_ofInt]

theorem hex2byte_getBytes (p : Platform) {w : Str} (h : IsAscii w) :
    hex2byte p (p.getBytes w) = hexToByte p w := by
  have hlen := p.length_getBytes w h
  rw [hex2byte, hexToByte, hlen, hexPairs_eq p hlen fun i => p.newString_part w h i 2]

theorem hex2byte_hexText (p : Platform) (bytes : List Byte) :
    hex2byte p (p.getBytes (hexText bytes)) = .ok bytes := by
  rw [hex2byte_getBytes p (isAscii_hexText bytes)]
  exact (spells_hexText bytes).hexToByte p

end Hatch.Sm4
