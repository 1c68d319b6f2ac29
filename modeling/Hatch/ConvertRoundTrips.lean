import Hatch.BitString
import Hatch.ConvertNumbers
import Mathlib.Data.Fin.VecNotation

/-!
# Which texts and arrays of `Convert.java` are read back

`StringToAsciiString` writes the hexadecimal digits of each character with no zeros in front, and
`AsciiStringToString` and `hexStringToString` read a fixed number of digits per character.
`algorismToHEXString` writes an `int` with an even number of digits; `algorismToHexString` puts
zeros in front and keeps the first digits, `hexStringToAlgorism` reads both. `intToBytes`,
`longToBytes` and `byteToInt` have the lowest byte first.
-/

namespace Hatch.Convert

open Java

def asciiText (content : Str) : Str := content.flatMap fun c => toHexString (c.setWidth 32)

def stringToAsciiString (content : Str) : Except Throwable Str := alloc (asciiText content)

/-- The loop of `hexStringToString` and of `AsciiStringToString`. -/
def readUnits (p : Platform) (width : ℕ) : ℕ → Str → Str
  | 0, _ => []
  | n + 1, s =>
      BitVec.ofInt 16 (hexStringToAlgorism p (s.take width)) ::
        readUnits p width n (s.drop width)

/-- The length is divided by `encodeType`, which gives no character where that is negative. -/
def hexStringToString (p : Platform) (hexString : Str) (encodeType : ℤ) : Except Throwable Str :=
  if encodeType = 0 then .error (.runtime (literal "/ by zero".toList))
  else .ok (readUnits p encodeType.toNat ((hexString.length : ℤ).tdiv encodeType).toNat hexString)

def asciiStringToString (p : Platform) (content : Str) : Str :=
  readUnits p 2 (content.length / 2) content

def evenHexString (algorism : BitVec 32) : Str :=
  let result := toHexString algorism
  if result.length % 2 = 1 then 0x30 :: result else result

def algorismToHEXString (p : Platform) (algorism : BitVec 32) : Str :=
  p.toUpperCase (evenHexString algorism)

def intToBytes (num : BitVec 32) : List Byte :=
  [0, 8, 16, 24].map fun k => (0xFF &&& num.sshiftRight k).setWidth 8

def longToBytes (num : BitVec 64) : List Byte :=
  (List.range 8).map fun i => (0xFF &&& num.sshiftRight (i * 8)).setWidth 8

/-- The bytes from the fifth on are not read. -/
def byteToInt : List Byte → Except Throwable (BitVec 32)
  | b0 :: b1 :: b2 :: b3 :: _ =>
      let num : BitVec 32 := 0
      let num := num ||| unsigned b0 <<< 0
      let num := num ||| unsigned b1 <<< 8
      let num := num ||| unsigned b2 <<< 16
      let num := num ||| unsigned b3 <<< 24
      .ok num
  | _ => .error .indexOutOfBounds

section Numerals

variable {c : Char16} {s t w : Str}

theorem hexValue_append (s t : Str) :
    hexValue (s ++ t) = hexValue s * 16 ^ t.length + hexValue t := by
  rw [hexValue, List.reverse_append, List.map_append, Nat.ofDigits_append, List.length_map,
    List.length_reverse, hexValue, hexValue, Nat.add_comm, Nat.mul_comm]

theorem hexValue_nil : hexValue [] = 0 := rfl

theorem hexValue_cons (c : Char16) (w : Str) :
    hexValue (c :: w) = digitValue c * 16 ^ w.length + hexValue w := by
  have h := hexValue_append [c] w
  rw [List.singleton_append] at h
  rw [h, hexValue, List.reverse_singleton, List.map_singleton, Nat.ofDigits_singleton]

theorem hexValue_lt (h : ∀ c ∈ w, (asciiDigit c).isSome) : hexValue w < 16 ^ w.length := by
  have hlt := Nat.ofDigits_lt_base_pow_length (b := 16) (by decide) (forall_digitValue_lt h)
  rwa [List.length_map, List.length_reverse] at hlt

theorem hexValue_zeros (n : ℕ) (w : Str) : hexValue (List.replicate n 0x30 ++ w) = hexValue w := by
  induction n with
  | zero => rfl
  | succ n ih =>
      rw [List.replicate_succ, List.cons_append, hexValue_cons, ih]
      exact (congrArg (· + _) (Nat.zero_mul _)).trans (Nat.zero_add _)

theorem hexValue_dropWhile (w : Str) : hexValue (w.dropWhile (· = 0x30)) = hexValue w := by
  induction w with
  | nil => rfl
  | cons c w ih =>
      rw [List.dropWhile_cons]
      split
      · next hc =>
        rw [ih, hexValue_cons, of_decide_eq_true hc]
        exact ((congrArg (· + _) (Nat.zero_mul _)).trans (Nat.zero_add _)).symm
      · rfl

end Numerals

section Written

variable {i : BitVec 32}

theorem digitValue_hexDigit : ∀ n : Fin 16, digitValue (hexDigit n) = n := by decide

theorem isSome_hexDigit : ∀ n : Fin 16, (asciiDigit (hexDigit n)).isSome := by decide

def allDigits (i : BitVec 32) : Str :=
  [28, 24, 20, 16, 12, 8, 4, 0].map fun k => hexDigit (i.toNat / 2 ^ k % 16)

theorem digits_allDigits (i : BitVec 32) : ∀ c ∈ allDigits i, (asciiDigit c).isSome := by
  intro c hc
  obtain ⟨k, -, rfl⟩ := List.mem_map.mp hc
  exact isSome_hexDigit ⟨_, Nat.mod_lt _ (by decide)⟩

theorem hexValue_allDigits (i : BitVec 32) : hexValue (allDigits i) = i.toNat := by
  have hdigit : ∀ k, digitValue (hexDigit (i.toNat / 2 ^ k % 16)) = i.toNat / 2 ^ k % 16 :=
    fun k => digitValue_hexDigit ⟨_, Nat.mod_lt _ (by decide)⟩
  have hi := i.isLt
  simp only [allDigits, List.map_cons, List.map_nil, hexValue_cons, hexValue_nil, hdigit,
    List.length_cons, List.length_nil]
  omega

/-- A number is written as a zero, or with a first digit that is none. -/
theorem toHexString_cases (i : BitVec 32) :
    (i = 0 ∧ toHexString i = [0x30]) ∨
      (∃ c t, toHexString i = c :: t ∧ digitValue c ≠ 0) ∧
        toHexString i = (allDigits i).dropWhile (· = 0x30) := by
  have hval := (hexValue_dropWhile (allDigits i)).trans (hexValue_allDigits i)
  cases hd : (allDigits i).dropWhile (· = 0x30) with
  | nil =>
      rw [hd] at hval
      refine .inl ⟨BitVec.eq_of_toNat_eq hval.symm, ?_⟩
      rw [toHexString, ← allDigits, hd]
  | cons c t =>
      have htext : toHexString i = c :: t := by rw [toHexString, ← allDigits, hd]
      refine .inr ⟨⟨c, t, htext, ?_⟩, htext⟩
      have hmem : c ∈ allDigits i :=
        (List.dropWhile_sublist (fun c : Char16 => decide (c = 0x30))).mem
          (hd ▸ List.mem_cons_self)
      rw [Ne, digitValue_eq_zero_iff (digits_allDigits i c hmem)]
      have hne := List.head?_dropWhile_not (fun c : Char16 => decide (c = 0x30)) (allDigits i)
      rw [hd] at hne
      exact of_decide_eq_false hne

theorem digits_toHexString (i : BitVec 32) : ∀ c ∈ toHexString i, (asciiDigit c).isSome := by
  intro c hc
  rcases toHexString_cases i with ⟨-, h⟩ | ⟨-, h⟩
  · rw [h] at hc
    rw [List.mem_singleton.mp hc]
    rfl
  · rw [h] at hc
    exact digits_allDigits i c ((List.dropWhile_sublist _).mem hc)

theorem hexValue_toHexString (i : BitVec 32) : hexValue (toHexString i) = i.toNat := by
  rcases toHexString_cases i with ⟨rfl, h⟩ | ⟨-, h⟩
  · rw [h]
    rfl
  · rw [h, hexValue_dropWhile, hexValue_allDigits]

/-- No number is written with more digits than it needs. -/
theorem pow_length_le (hi : i ≠ 0) : 16 ^ ((toHexString i).length - 1) ≤ i.toNat := by
  rcases toHexString_cases i with ⟨h, -⟩ | ⟨⟨c, t, h, hc⟩, -⟩
  · exact absurd h hi
  · rw [← hexValue_toHexString i, h, hexValue_cons, List.length_cons, Nat.add_sub_cancel]
    have := Nat.mul_le_mul_right (16 ^ t.length) (Nat.pos_of_ne_zero hc)
    omega

theorem lt_pow_length (i : BitVec 32) : i.toNat < 16 ^ (toHexString i).length := by
  have h := hexValue_lt (digits_toHexString i)
  rwa [hexValue_toHexString] at h

theorem length_toHexString_le {k : ℕ} (hk : 0 < k) (h : i.toNat < 16 ^ k) :
    (toHexString i).length ≤ k := by
  by_cases hi : i = 0
  · subst hi
    exact hk
  · have hle := Nat.lt_of_le_of_lt (pow_length_le hi) h
    have hlt := (Nat.pow_lt_pow_iff_right (by decide)).mp hle
    omega

end Written

section Units

variable {p : Platform} {c : Char16} {k : ℕ} {s w : Str}

def charDigits (c : Char16) : Str := toHexString (c.setWidth 32)

theorem toNat_char (c : Char16) : (c.setWidth 32).toNat = c.toNat := by
  rw [BitVec.toNat_setWidth]
  have := c.isLt
  omega

theorem hexValue_charDigits (c : Char16) : hexValue (charDigits c) = c.toNat := by
  rw [charDigits, hexValue_toHexString, toNat_char]

theorem length_charDigits_le (c : Char16) : (charDigits c).length ≤ 4 :=
  length_toHexString_le (by decide) (by rw [toNat_char]; exact c.isLt)

theorem asciiText_cons (c : Char16) (s : Str) : asciiText (c :: s) = charDigits c ++ asciiText s :=
  List.flatMap_cons

theorem digits_asciiText (s : Str) : ∀ c ∈ asciiText s, (asciiDigit c).isSome := by
  intro c hc
  obtain ⟨u, -, hu⟩ := List.mem_flatMap.mp hc
  exact digits_toHexString _ c hu

theorem length_asciiText_le (s : Str) : (asciiText s).length ≤ 4 * s.length := by
  induction s with
  | nil => exact Nat.zero_le _
  | cons c s ih =>
      have := length_charDigits_le c
      rw [asciiText_cons, List.length_append, List.length_cons]
      omega

/-- Up to four digits are read as a character. -/
theorem unit_eq_iff (h : ∀ x ∈ w, (asciiDigit x).isSome) (hlen : w.length ≤ 4) :
    BitVec.ofInt 16 (hexStringToAlgorism p w) = c ↔ hexValue w = c.toNat := by
  have hlt : hexValue w < 16 ^ 4 :=
    lt_of_lt_of_le (hexValue_lt h) (Nat.pow_le_pow_right (by decide) hlen)
  have hval : hexStringToAlgorism p w = hexValue w := by
    rw [hexStringToAlgorism_short p h (by omega)]
    have hmax : maxInt = 2 ^ 31 - 1 := rfl
    omega
  have hc := c.isLt
  rw [hval, BitVec.ofInt_natCast, ← BitVec.toNat_inj, BitVec.toNat_ofNat]
  omega

theorem length_readUnits (p : Platform) (k n : ℕ) (w : Str) : (readUnits p k n w).length = n := by
  induction n generalizing w with
  | zero => rfl
  | succ n ih => rw [readUnits, List.length_cons, ih]

def readAll (p : Platform) (k : ℕ) (w : Str) : Str := readUnits p k (w.length / k) w

theorem readAll_append (hk : 0 < k) {u : Str} (hu : u.length = k) (w : Str) :
    readAll p k (u ++ w) = BitVec.ofInt 16 (hexStringToAlgorism p u) :: readAll p k w := by
  have hcount : (u ++ w).length / k = w.length / k + 1 := by
    rw [List.length_append, hu, Nat.add_div_left _ hk]
  rw [readAll, hcount, readUnits, List.take_left' hu, List.drop_left' hu]
  rfl

/-- What is read is nothing, or the first unit and what is read of the rest. -/
theorem readAll_cons (hk : 0 < k) {a : Char16} {l : Str} (h : readAll p k w = a :: l) :
    ∃ u v, w = u ++ v ∧ u.length = k ∧ BitVec.ofInt 16 (hexStringToAlgorism p u) = a ∧
      readAll p k v = l := by
  have hlen : k ≤ w.length := by
    by_contra hlt
    rw [readAll, Nat.div_eq_of_lt (Nat.lt_of_not_le hlt)] at h
    cases h
  have hu : (w.take k).length = k := List.length_take_of_le hlen
  rw [← List.take_append_drop k w, readAll_append hk hu] at h
  obtain ⟨ha, hl⟩ := List.cons.inj h
  exact ⟨w.take k, w.drop k, (List.take_append_drop k w).symm, hu, ha, hl⟩

/-- Characters of `k` digits are read back. -/
theorem readAll_asciiText (hk : 0 < k) (h : ∀ c ∈ s, (charDigits c).length = k) :
    readAll p k (asciiText s) = s := by
  induction s with
  | nil =>
      rw [readAll]
      change readUnits p k (0 / k) [] = []
      rw [Nat.zero_div]
      rfl
  | cons c s ih =>
      obtain ⟨hc, hs⟩ := List.forall_mem_cons.mp h
      rw [asciiText_cons, readAll_append hk hc, ih hs]
      congr 1
      exact (unit_eq_iff (digits_toHexString _) (length_charDigits_le c)).mpr
        (hexValue_charDigits c)

theorem eq_zeros_of_hexValue (h : ∀ x ∈ w, (asciiDigit x).isSome) (h0 : hexValue w = 0) :
    w = List.replicate w.length 0x30 := by
  induction w with
  | nil => rfl
  | cons c w ih =>
      obtain ⟨hc, hw⟩ := List.forall_mem_cons.mp h
      rw [hexValue_cons] at h0
      have hd : digitValue c = 0 := by
        have hpos : 16 ^ w.length ≠ 0 := by positivity
        exact (Nat.mul_eq_zero.mp (Nat.eq_zero_of_add_eq_zero h0).1).resolve_right hpos
      rw [List.length_cons, List.replicate_succ, ← ih hw (by omega),
        (digitValue_eq_zero_iff hc).mp hd]

/-- Only the character zero is written with a zero in front. -/
theorem charDigits_zero_cons {t : Str} (h : charDigits c ++ s = 0x30 :: t) : c = 0 := by
  rcases toHexString_cases (c.setWidth 32) with ⟨h0, -⟩ | ⟨⟨d, u, hu, hd⟩, -⟩
  · refine BitVec.eq_of_toNat_eq ?_
    rw [← toNat_char, h0]
    rfl
  · rw [charDigits, hu] at h
    rw [(List.cons.inj h).1] at hd
    exact absurd rfl hd

/-- If fewer zeros than `b` characters take are read as `b` zeros in front of the text, the text
begins with a zero. -/
theorem zero_of_readAll_zeros (hk : 0 < k) (hk' : k ≤ 4) {a b : ℕ} (hab : a < k * b)
    (h : readAll p k (List.replicate a 0x30 ++ asciiText s) = List.replicate b 0 ++ s) :
    ∃ s' a' b', s = 0 :: s' ∧ a' < k * b' ∧
      readAll p k (List.replicate a' 0x30 ++ asciiText s) = List.replicate b' 0 ++ s := by
  induction b generalizing a with
  | zero => exact absurd hab (Nat.not_lt_zero a)
  | succ b ih =>
      rw [List.replicate_succ, List.cons_append] at h
      obtain ⟨u, v, heq, hu, hval, hv⟩ := readAll_cons hk h
      have hdigits : ∀ x ∈ u, (asciiDigit x).isSome := by
        intro x hx
        rcases List.mem_append.mp (heq ▸ List.mem_append_left v hx) with hx | hx
        · rw [List.eq_of_mem_replicate hx]
          rfl
        · exact digits_asciiText s x hx
      have hzeros := eq_zeros_of_hexValue hdigits ((unit_eq_iff hdigits (by omega)).mp hval)
      rw [hu] at hzeros
      by_cases hka : k ≤ a
      · -- the first character takes zeros only
        obtain ⟨d, rfl⟩ := Nat.exists_eq_add_of_le hka
        rw [hzeros, List.replicate_add, List.append_assoc] at heq
        rw [← List.append_cancel_left heq] at hv
        rw [Nat.mul_succ] at hab
        exact ih (by omega) hv
      · -- it also takes the first digit of the text
        obtain ⟨d, hd⟩ := Nat.exists_eq_add_of_lt (Nat.lt_of_not_le hka)
        rw [hzeros, hd, Nat.add_assoc, List.replicate_add, List.append_assoc] at heq
        have hfirst := List.append_cancel_left heq
        rw [List.replicate_succ, List.cons_append] at hfirst
        cases s with
        | nil => cases hfirst
        | cons c s =>
            rw [asciiText_cons] at hfirst
            obtain rfl := charDigits_zero_cons hfirst
            exact ⟨s, a, b + 1, rfl, hab, by rwa [List.replicate_succ, List.cons_append]⟩

/-- Each zero of the text that fills a gap leaves a larger one. -/
theorem readAll_zeros_ne (hk : 2 ≤ k) (hk' : k ≤ 4) (s : Str) {a b : ℕ} (hab : a < k * b) :
    readAll p k (List.replicate a 0x30 ++ asciiText s) ≠ List.replicate b 0 ++ s := by
  induction s generalizing a b with
  | nil =>
      intro h
      obtain ⟨s', -, -, hs, -⟩ := zero_of_readAll_zeros (by omega) hk' hab h
      cases hs
  | cons c s ih =>
      intro h
      obtain ⟨s', a', b', hs, hab', h'⟩ := zero_of_readAll_zeros (by omega) hk' hab h
      obtain ⟨rfl, rfl⟩ := List.cons.inj hs
      refine ih (a := a' + 1) (b := b' + 1) (by rw [Nat.mul_succ]; omega) ?_
      rw [List.replicate_succ', List.replicate_succ', List.append_assoc, List.append_assoc]
      exact h'

theorem length_of_readAll (hk : 0 < k) (hk' : k ≤ 4) (h : readAll p k (asciiText s) = s) :
    ∀ c ∈ s, (charDigits c).length = k := by
  induction s with
  | nil => exact nofun
  | cons c s ih =>
      have hall := h
      rw [asciiText_cons] at h
      obtain ⟨u, v, heq, hu, hval, hv⟩ := readAll_cons hk h
      have hdigits : ∀ x ∈ u, (asciiDigit x).isSome := by
        intro x hx
        refine digits_asciiText (c :: s) x ?_
        rw [asciiText_cons, heq]
        exact List.mem_append_left v hx
      have hvalue := (unit_eq_iff hdigits (by omega)).mp hval
      rcases Nat.lt_trichotomy (charDigits c).length k with hlt | hlen | hgt
      · -- the unit has a digit of the next character too, so both are zero
        rcases List.append_eq_append_iff.mp heq with ⟨r, hur, -⟩ | ⟨r, hcr, -⟩
        · rw [hur, hexValue_append, hexValue_charDigits] at hvalue
          have hr : r.length ≠ 0 := by
            rw [hur, List.length_append] at hu
            omega
          have hpow : 16 ≤ 16 ^ r.length := Nat.le_self_pow hr 16
          have hmul := Nat.mul_le_mul_left c.toNat hpow
          obtain rfl : c = 0 := BitVec.eq_of_toNat_eq (by change c.toNat = 0; omega)
          have hone : (charDigits 0).length = 1 := rfl
          exact absurd hall (readAll_zeros_ne (a := 1) (b := 1) (by omega) hk' s (by omega))
        · rw [hcr, List.length_append] at hlt
          omega
      · obtain ⟨rfl, rfl⟩ := List.append_inj heq (hlen.trans hu.symm)
        exact List.forall_mem_cons.mpr ⟨hlen, ih hv⟩
      · -- the unit has not all digits of the character
        have hc : c.setWidth 32 ≠ 0 := by
          intro h0
          have hone : (charDigits c).length = 1 := by
            rw [charDigits, h0]
            rfl
          omega
        have hle := pow_length_le hc
        rw [toNat_char, ← hvalue] at hle
        have hlt := lt_of_le_of_lt hle (hexValue_lt hdigits)
        have := (Nat.pow_lt_pow_iff_right (by decide)).mp hlt
        rw [charDigits] at hgt
        omega

/-- There are not enough digits for characters of five. -/
theorem eq_nil_of_readAll (hk : 4 < k) (h : readAll p k (asciiText s) = s) : s = [] := by
  have hlen := congrArg List.length h
  rw [readAll, length_readUnits] at hlen
  have hle := length_asciiText_le s
  have hmul := Nat.div_mul_le_self (asciiText s).length k
  rw [hlen] at hmul
  have hfive := Nat.mul_le_mul_left s.length hk
  exact List.eq_nil_of_length_eq_zero (by omega)

theorem readAll_asciiText_iff (hk : 0 < k) :
    readAll p k (asciiText s) = s ↔ ∀ c ∈ s, (charDigits c).length = k := by
  refine ⟨fun h => ?_, readAll_asciiText hk⟩
  by_cases hk' : k ≤ 4
  · exact length_of_readAll hk hk' h
  · rw [eq_nil_of_readAll (by omega) h]
    exact nofun

theorem length_asciiText (h : ∀ c ∈ s, (charDigits c).length = k) :
    (asciiText s).length = k * s.length := by
  induction s with
  | nil => rfl
  | cons c s ih =>
      obtain ⟨hc, hs⟩ := List.forall_mem_cons.mp h
      rw [asciiText_cons, List.length_append, hc, ih hs, List.length_cons, Nat.mul_succ,
        Nat.add_comm]

/-- With a positive number of digits per character. -/
theorem hexStringToString_pos (hk : 0 < k) (w : Str) :
    hexStringToString p w k = .ok (readAll p k w) := by
  have hne : (k : ℤ) ≠ 0 := by omega
  rw [hexStringToString, if_neg hne]
  rfl

/-- With a negative one. -/
theorem hexStringToString_neg {n : ℤ} (hn : n < 0) (w : Str) :
    hexStringToString p w n = .ok [] := by
  have hdiv : (w.length : ℤ).tdiv n ≤ 0 :=
    Int.tdiv_nonpos_of_nonneg_of_nonpos (by omega) (by omega)
  rw [hexStringToString, if_neg (by omega), Int.toNat_of_nonpos hdiv]
  rfl

end Units

theorem stringToAsciiString_bind_iff {f : Str → Except Throwable Str} {s r : Str} :
    (stringToAsciiString s >>= f) = .ok r ↔
      (asciiText s).length < 2 ^ 31 ∧ f (asciiText s) = .ok r := by
  rw [stringToAsciiString, alloc]
  split
  · next h => exact ⟨fun hf => ⟨h, hf⟩, fun hf => hf.2⟩
  · next h => exact ⟨fun hf => (by cases hf), fun hf => absurd hf.1 h⟩

/-- A text comes back from `StringToAsciiString` and `hexStringToString` if and only if each of
its characters is written with as many digits as are read for one. -/
theorem hexStringToString_stringToAsciiString_iff (p : Platform) (content : Str)
    (encodeType : ℤ) :
    (stringToAsciiString content >>= fun t => hexStringToString p t encodeType) = .ok content ↔
      encodeType ≠ 0 ∧ encodeType * content.length < 2 ^ 31 ∧
        ∀ c ∈ content, ((toHexString (c.setWidth 32)).length : ℤ) = encodeType := by
  rw [stringToAsciiString_bind_iff]
  rcases lt_trichotomy encodeType 0 with hneg | rfl | hpos
  · rw [hexStringToString_neg hneg, Except.ok.injEq]
    constructor
    · rintro ⟨-, rfl⟩
      exact ⟨by omega, by simp, nofun⟩
    · rintro ⟨-, -, hall⟩
      cases content with
      | nil => exact ⟨by decide, rfl⟩
      | cons c content =>
          have hc := hall c List.mem_cons_self
          omega
  · exact ⟨fun h => (nomatch h.2), fun h => absurd rfl h.1⟩
  · obtain ⟨k, rfl⟩ := Int.eq_ofNat_of_zero_le hpos.le
    have hk : 0 < k := by omega
    rw [hexStringToString_pos hk, Except.ok.injEq, readAll_asciiText_iff hk]
    constructor
    · rintro ⟨hlen, hall⟩
      rw [length_asciiText hall] at hlen
      exact ⟨by omega, by exact_mod_cast hlen, fun c hc => congrArg _ (hall c hc)⟩
    · rintro ⟨-, hlen, hall⟩
      have hall' : ∀ c ∈ content, (charDigits c).length = k :=
        fun c hc => Int.ofNat.inj (hall c hc)
      rw [length_asciiText hall']
      exact ⟨by exact_mod_cast hlen, hall'⟩

theorem length_charDigits_eq_two_iff (c : Char16) :
    (charDigits c).length = 2 ↔ 0x10 ≤ c.toNat ∧ c.toNat < 0x100 := by
  have hlt := lt_pow_length (c.setWidth 32)
  rw [toNat_char] at hlt
  constructor
  · intro h
    have hne : c.setWidth 32 ≠ 0 := by
      intro h0
      rw [charDigits, h0] at h
      cases h
    have hle := pow_length_le hne
    rw [toNat_char] at hle
    rw [charDigits] at h
    rw [h] at hle hlt
    omega
  · rintro ⟨h16, h256⟩
    have hle := length_toHexString_le (k := 2) (i := c.setWidth 32) (by decide)
      (by rwa [toNat_char])
    refine Nat.le_antisymm hle (Nat.lt_of_not_le fun h1 => ?_)
    have hpow : 16 ^ (toHexString (c.setWidth 32)).length ≤ 16 ^ 1 :=
      Nat.pow_le_pow_right (by decide) h1
    omega

/-- A text comes back from `StringToAsciiString` and `AsciiStringToString` if and only if its
characters lie between 10 and FF. -/
theorem asciiStringToString_stringToAsciiString_iff (p : Platform) (content : Str) :
    (stringToAsciiString content >>= fun t => .ok (asciiStringToString p t)) = .ok content ↔
      2 * content.length < 2 ^ 31 ∧ ∀ c ∈ content, 0x10 ≤ c.toNat ∧ c.toNat < 0x100 := by
  have hread : asciiStringToString p (asciiText content) = content ↔
      ∀ c ∈ content, (charDigits c).length = 2 := readAll_asciiText_iff (by decide)
  rw [stringToAsciiString_bind_iff, Except.ok.injEq, hread]
  simp only [← length_charDigits_eq_two_iff]
  constructor
  · rintro ⟨hlen, hall⟩
    exact ⟨by rwa [length_asciiText hall] at hlen, hall⟩
  · rintro ⟨hlen, hall⟩
    exact ⟨by rwa [length_asciiText hall], hall⟩

section Patched

variable {p : Platform} {n m : BitVec 32} {w : Str}

/-- The digits that `algorismToHEXString` writes, in lower case. -/
theorem evenHexString_spec (n : BitVec 32) :
    (∀ c ∈ evenHexString n, (asciiDigit c).isSome) ∧ hexValue (evenHexString n) = n.toNat ∧
      (evenHexString n).length ≤ 8 := by
  have hdigits := digits_toHexString n
  have hlen := length_toHexString_le (k := 8) (i := n) (by decide) n.isLt
  rw [evenHexString]
  split
  · next hodd =>
    refine ⟨List.forall_mem_cons.mpr ⟨rfl, hdigits⟩, ?_, ?_⟩
    · rw [← hexValue_toHexString n]
      exact hexValue_zeros 1 _
    · rw [List.length_cons]
      omega
  · exact ⟨hdigits, hexValue_toHexString n, hlen⟩

theorem digitValue_hexChar : ∀ n : Fin 16, digitValue (hexChar n) = n := by decide

theorem isSome_hexChar : ∀ n : Fin 16, (asciiDigit (hexChar n)).isSome := by decide

/-- The upper case of digits has the same value. -/
theorem toUpperCase_spec (p : Platform) (h : ∀ c ∈ w, (asciiDigit c).isSome) :
    (∀ c ∈ p.toUpperCase w, (asciiDigit c).isSome) ∧ hexValue (p.toUpperCase w) = hexValue w ∧
      (p.toUpperCase w).length = w.length := by
  rw [toUpperCase_digits p h]
  refine ⟨?_, ?_, List.length_map _⟩
  · intro c hc
    obtain ⟨d, hd, rfl⟩ := List.mem_map.mp hc
    exact isSome_hexChar ⟨_, digitValue_lt (h d hd)⟩
  · rw [hexValue, hexValue, ← List.map_reverse, List.map_map]
    congr 1
    refine List.map_congr_left fun c hc => ?_
    exact digitValue_hexChar ⟨_, digitValue_lt (h c (List.mem_reverse.mp hc))⟩

theorem algorismToHEXString_spec (p : Platform) (n : BitVec 32) :
    (∀ c ∈ algorismToHEXString p n, (asciiDigit c).isSome) ∧
      hexValue (algorismToHEXString p n) = n.toNat ∧ (algorismToHEXString p n).length ≤ 8 := by
  obtain ⟨hdigits, hvalue, hlen⟩ := evenHexString_spec n
  obtain ⟨hdigits', hvalue', hlen'⟩ := toUpperCase_spec p hdigits
  exact ⟨hdigits', hvalue'.trans hvalue, hlen'.trans_le hlen⟩

/-- The `int` that is read where it is written with no loss. -/
theorem min_maxInt_eq_iff (n : BitVec 32) : min maxInt (n.toNat : ℤ) = n.toInt ↔ 0 ≤ n.toInt := by
  have hn := n.isLt
  have hmax : maxInt = 2 ^ 31 - 1 := rfl
  rw [BitVec.toInt_eq_toNat_cond]
  split <;> omega

end Patched

/-- `algorismToHEXString` is undone for the numbers that are not negative. -/
theorem hexStringToAlgorism_algorismToHEXString (p : Platform) (n : BitVec 32) :
    hexStringToAlgorism p (algorismToHEXString p n) =
      if 0 ≤ n.toInt then n.toInt else maxInt := by
  obtain ⟨hdigits, hvalue, hlen⟩ := algorismToHEXString_spec p n
  rw [hexStringToAlgorism_short p hdigits (by omega), hvalue]
  split
  · next h => exact (min_maxInt_eq_iff n).mpr h
  · next h =>
    have hmax : maxInt = 2 ^ 31 - 1 := rfl
    rw [BitVec.toInt_eq_toNat_cond] at h
    split at h <;> omega

section Bytes

/-- The sign bits that an arithmetic shift brings in lie above the byte. -/
theorem byte_sshiftRight {w : ℕ} (x : BitVec w) {k : ℕ} (h : k + 8 ≤ w) :
    ((0xFF : BitVec w) &&& x.sshiftRight k).setWidth 8 = x.extractLsb' k 8 := by
  have hmask : ∀ i < 8, (0xFF : ℕ).testBit i = true := by decide
  change (BitVec.ofNat w 0xFF &&& _).setWidth 8 = _
  apply BitVec.eq_of_getLsbD_eq
  intro i hi
  have hlow : ¬ w ≤ i := by omega
  have hin : k + i < w := by omega
  rw [BitVec.getLsbD_setWidth, BitVec.getLsbD_and, BitVec.getLsbD_ofNat, hmask i hi,
    BitVec.getLsbD_sshiftRight, BitVec.getLsbD_extractLsb', if_pos hin, decide_eq_false hlow]
  simp [hi, show i < w by omega]

theorem intToBytes_eq (n : BitVec 32) :
    intToBytes n =
      [n.extractLsb' 0 8, n.extractLsb' 8 8, n.extractLsb' 16 8, n.extractLsb' 24 8] := by
  simp only [intToBytes, List.map_cons, List.map_nil]
  rw [byte_sshiftRight n (by decide), byte_sshiftRight n (by decide),
    byte_sshiftRight n (by decide), byte_sshiftRight n (by decide)]

theorem byteToInt_cons (b0 b1 b2 b3 : Byte) (rest : List Byte) :
    byteToInt (b0 :: b1 :: b2 :: b3 :: rest) = .ok (b3 ++ b2 ++ b1 ++ b0) := by
  rw [byteToInt, BitString.append_bytes]
  simp only [unsigned_eq, BitVec.shiftLeft_zero]
  rw [show (0 : BitVec 32) ||| b0.setWidth 32 = b0.setWidth 32 from BitVec.zero_or]

end Bytes

/-- `byteToInt` reads a number from the arrays that begin with what `intToBytes` makes of it, and
from no others. -/
theorem byteToInt_eq_ok_iff (bytes : List Byte) (n : BitVec 32) :
    byteToInt bytes = .ok n ↔ intToBytes n <+: bytes := by
  rw [intToBytes_eq]
  constructor
  · intro h
    match bytes, h with
    | b0 :: b1 :: b2 :: b3 :: rest, h =>
        rw [byteToInt_cons, Except.ok.injEq] at h
        have hbyte := BitString.extract_append_bytes ![b3, b2, b1, b0]
        rw [← h]
        refine ⟨rest, ?_⟩
        rw [show (b3 ++ b2 ++ b1 ++ b0).extractLsb' 0 8 = b0 from hbyte 3,
          show (b3 ++ b2 ++ b1 ++ b0).extractLsb' 8 8 = b1 from hbyte 2,
          show (b3 ++ b2 ++ b1 ++ b0).extractLsb' 16 8 = b2 from hbyte 1,
          show (b3 ++ b2 ++ b1 ++ b0).extractLsb' 24 8 = b3 from hbyte 0]
        rfl
  · rintro ⟨rest, rfl⟩
    simp only [List.cons_append, List.nil_append]
    rw [byteToInt_cons, BitString.extract_bytes]

/-- The array of a `long` is read as its lower half. -/
theorem byteToInt_longToBytes (num : BitVec 64) :
    byteToInt (longToBytes num) = .ok (num.setWidth 32) := by
  have hbyte {k : ℕ} (hk : k + 8 ≤ 32) :
      ((0xFF : BitVec 64) &&& num.sshiftRight k).setWidth 8 =
        (num.setWidth 32).extractLsb' k 8 := by
    rw [byte_sshiftRight num (by omega)]
    apply BitVec.eq_of_getLsbD_eq
    intro i hi
    rw [BitVec.getLsbD_extractLsb', BitVec.getLsbD_extractLsb', BitVec.getLsbD_setWidth,
      decide_eq_true (show k + i < 32 by omega), Bool.true_and]
  change byteToInt (_ :: _ :: _ :: _ :: _) = _
  rw [byteToInt_cons]
  beta_reduce
  rw [hbyte (by decide), hbyte (by decide), hbyte (by decide), hbyte (by decide)]
  exact congrArg _ (BitString.extract_bytes _)

end Hatch.Convert
