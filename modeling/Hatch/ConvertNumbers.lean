import Hatch.FloatFormat
import Hatch.HexText
import Mathlib.Data.Nat.Digits.Lemmas

/-!
# Numbers in the texts of `Convert.java`

`hexStringToAlgorism` and `binaryToAlgorism` add the digits from the last one on, each times a
power of the base, in an `int` and through `Math.pow`: every sum is made as a `double` and
converted back. So a number that is too large becomes the largest `int`; and from a text so long
that the power is infinite only the first digit counts, since zero times infinity is no number,
which is converted to zero. `hexStringToBinary` writes four binary digits for each digit.
-/

namespace Hatch.Convert

open Java FloatFormat

def double : Format where
  precision := 53
  limit := 1024
  precision_pos := by decide
  precision_lt := by decide

def minInt : ℤ := -2 ^ 31

def maxInt : ℤ := 2 ^ 31 - 1

/-- `result += Math.pow(base, k) * algorism`. -/
def addPower (base k : ℕ) (result algorism : ℤ) : ℤ :=
  (double.add (.integer result)
    (double.mul (double.pow base k) (.integer algorism))).toInt minInt maxInt

def addPowers (base : ℕ) : ℕ → ℤ → List ℤ → ℤ
  | _, result, [] => result
  | k, result, d :: ds => addPowers base (k + 1) (addPower base k result d) ds

def algorism (c : Char16) : ℤ :=
  if 0x30 ≤ c ∧ c ≤ 0x39 then c.toNat - 0x30 else c.toNat - 55

def hexStringToAlgorism (p : Platform) (hex : Str) : ℤ :=
  addPowers 16 0 0 ((p.toUpperCase hex).reverse.map algorism)

def binaryToAlgorism (binary : Str) : ℤ :=
  addPowers 2 0 0 (binary.reverse.map fun c => c.toNat - 0x30)

/-- The cases of `hexStringToBinary`; other characters are passed over. -/
def binaryDigits (c : Char16) : Str :=
  match c.toNat with
  | 0x30 => [0x30, 0x30, 0x30, 0x30]
  | 0x31 => [0x30, 0x30, 0x30, 0x31]
  | 0x32 => [0x30, 0x30, 0x31, 0x30]
  | 0x33 => [0x30, 0x30, 0x31, 0x31]
  | 0x34 => [0x30, 0x31, 0x30, 0x30]
  | 0x35 => [0x30, 0x31, 0x30, 0x31]
  | 0x36 => [0x30, 0x31, 0x31, 0x30]
  | 0x37 => [0x30, 0x31, 0x31, 0x31]
  | 0x38 => [0x31, 0x30, 0x30, 0x30]
  | 0x39 => [0x31, 0x30, 0x30, 0x31]
  | 0x41 => [0x31, 0x30, 0x31, 0x30]
  | 0x42 => [0x31, 0x30, 0x31, 0x31]
  | 0x43 => [0x31, 0x31, 0x30, 0x30]
  | 0x44 => [0x31, 0x31, 0x30, 0x31]
  | 0x45 => [0x31, 0x31, 0x31, 0x30]
  | 0x46 => [0x31, 0x31, 0x31, 0x31]
  | _ => []

def hexStringToBinary (p : Platform) (hex : Str) : Except Throwable Str :=
  alloc ((p.toUpperCase hex).flatMap binaryDigits)

section Sums

variable {j k : ℕ} {r : ℤ}

theorem fits_int : Fits double minInt maxInt := ⟨by decide, by decide, by decide⟩

theorem addPower_eq (hr : 0 ≤ r) (hr' : r ≤ maxInt) {d : ℕ} (hd : d < 2 ^ 53)
    (hk : j * k < 1024) : addPower (2 ^ j) k r d = min maxInt (r + 2 ^ (j * k) * d) := by
  have hmin : minInt ≤ 0 := by decide
  have hp : (0 : ℤ) ≤ 2 ^ (j * k) * d := by positivity
  rw [addPower, fits_int.toInt_add_mul ⟨by omega, hr'⟩ (by rwa [Int.natAbs_natCast]) hk, clamp]
  have hmax : 0 ≤ maxInt := by decide
  omega

theorem addPower_infinity (d : ℕ) (hk : 1024 ≤ j * k) :
    addPower (2 ^ j) k r d = if d = 0 then 0 else maxInt := by
  rw [addPower, toInt_add_mul_infinity hk]
  have hd : ¬ ((d : ℤ) < 0) := by omega
  simp [hd]

theorem addPowers_append (base k : ℕ) (r : ℤ) (l l' : List ℤ) :
    addPowers base k r (l ++ l') = addPowers base (k + l.length) (addPowers base k r l) l' := by
  induction l generalizing k r with
  | nil => rfl
  | cons d l ih =>
      rw [List.cons_append, addPowers, ih, addPowers, List.length_cons]
      congr 1
      omega

/-- Without an infinite power the sum stops at the largest `int`. -/
theorem addPowers_eq (hj : 0 < j) (hj' : j ≤ 53) {ds : List ℕ} (hd : ∀ d ∈ ds, d < 2 ^ j) (v : ℕ)
    (hk : j * (k + ds.length) ≤ 1024) :
    addPowers (2 ^ j) k (min maxInt v) (ds.map (↑)) =
      min maxInt (v + 2 ^ (j * k) * Nat.ofDigits (2 ^ j) ds : ℕ) := by
  induction ds generalizing k v with
  | nil => simp [addPowers]
  | cons d ds ih =>
      obtain ⟨hd, hds⟩ := List.forall_mem_cons.mp hd
      have hmax : 0 ≤ maxInt := by decide
      have hd' : d < 2 ^ 53 := lt_of_lt_of_le hd (Nat.pow_le_pow_right Nat.two_pos hj')
      have hk' : j * k < 1024 := by
        refine lt_of_lt_of_le ?_ hk
        exact Nat.mul_lt_mul_of_pos_left (by simp) hj
      have hstep : addPower (2 ^ j) k (min maxInt v) d =
          min maxInt ((v + 2 ^ (j * k) * d : ℕ) : ℤ) := by
        have hp : (0 : ℤ) ≤ 2 ^ (j * k) * d := by positivity
        rw [addPower_eq (by omega) (by omega) hd' hk']
        push_cast
        omega
      have hlen : k + 1 + ds.length = k + (d :: ds).length := by
        rw [List.length_cons]
        omega
      have hsum : v + 2 ^ (j * k) * d + 2 ^ (j * (k + 1)) * Nat.ofDigits (2 ^ j) ds =
          v + 2 ^ (j * k) * Nat.ofDigits (2 ^ j) (d :: ds) := by
        rw [Nat.ofDigits_cons, Nat.mul_succ, pow_add]
        ring
      rw [List.map_cons, addPowers, hstep, ih hds _ (by rwa [hlen]), hsum]

/-- Once the power is infinite, the digit alone counts. -/
theorem addPowers_infinity (ds : List ℕ) (d : ℕ) (hk : 1024 ≤ j * ds.length) :
    addPowers (2 ^ j) 0 0 ((ds ++ [d]).map (↑)) = if d = 0 then 0 else maxInt := by
  rw [List.map_append, addPowers_append, Nat.zero_add, List.length_map, List.map_singleton,
    addPowers, addPowers, addPower_infinity d hk]

end Sums

def digitValue (c : Char16) : ℕ := (asciiDigit c).getD 0

def hexValue (w : Str) : ℕ := Nat.ofDigits 16 (w.reverse.map digitValue)

structure HexString where
  chars : Str
  digits : ∀ c ∈ chars, (asciiDigit c).isSome

section Digits

variable {c : Char16} {w : Str}

theorem asciiDigit_digitValue (h : (asciiDigit c).isSome) : asciiDigit c = some (digitValue c) := by
  obtain ⟨n, hn⟩ := Option.isSome_iff_exists.mp h
  rw [digitValue, hn, Option.getD_some]

theorem digitValue_lt (h : (asciiDigit c).isSome) : digitValue c < 16 :=
  (asciiDigit_spec (asciiDigit_digitValue h)).1

theorem asciiUpper_digit (h : (asciiDigit c).isSome) : asciiUpper c = hexChar (digitValue c) :=
  (asciiDigit_spec (asciiDigit_digitValue h)).2.1

theorem digitValue_eq_zero_iff (h : (asciiDigit c).isSome) : digitValue c = 0 ↔ c = 0x30 := by
  have htable : ∀ n : Fin 128, digitValue (BitVec.ofNat 16 n) = 0 →
      (asciiDigit (BitVec.ofNat 16 n)).isSome → BitVec.ofNat 16 n = (0x30 : Char16) := by decide
  constructor
  · intro h0
    exact forall_ascii (P := fun c => digitValue c = 0 → (asciiDigit c).isSome → c = 0x30) htable
      (ascii_of_asciiDigit (asciiDigit_digitValue h)) h0 h
  · rintro rfl
    rfl

theorem plain_of_digits (h : ∀ c ∈ w, (asciiDigit c).isSome) : Plain w := by
  intro c hc
  have hs := asciiDigit_digitValue (h c hc)
  exact ⟨ascii_of_asciiDigit hs, (asciiDigit_spec hs).2.2.1⟩

/-- The upper case of a text of digits. -/
theorem toUpperCase_digits (p : Platform) (h : ∀ c ∈ w, (asciiDigit c).isSome) :
    p.toUpperCase w = w.map fun c => hexChar (digitValue c) := by
  rw [(plain_of_digits h).toUpperCase]
  exact List.map_congr_left fun c hc => asciiUpper_digit (h c hc)

theorem algorism_hexChar : ∀ n : Fin 16, algorism (hexChar n) = n := by decide

theorem map_algorism (p : Platform) (h : ∀ c ∈ w, (asciiDigit c).isSome) :
    (p.toUpperCase w).reverse.map algorism = (w.reverse.map digitValue).map (↑) := by
  rw [toUpperCase_digits p h, ← List.map_reverse, List.map_map, List.map_map]
  refine List.map_congr_left fun c hc => ?_
  exact algorism_hexChar ⟨_, digitValue_lt (h c (List.mem_reverse.mp hc))⟩

theorem forall_digitValue_lt (h : ∀ c ∈ w, (asciiDigit c).isSome) :
    ∀ d ∈ w.reverse.map digitValue, d < 16 := by
  intro d hd
  obtain ⟨c, hc, rfl⟩ := List.mem_map.mp hd
  exact digitValue_lt (h c (List.mem_reverse.mp hc))

theorem hexStringToAlgorism_short (p : Platform) (h : ∀ c ∈ w, (asciiDigit c).isSome)
    (hlen : w.length ≤ 256) : hexStringToAlgorism p w = min maxInt (hexValue w) := by
  have hsum := addPowers_eq (j := 4) (k := 0) (by decide) (by decide) (forall_digitValue_lt h) 0
    (by rw [List.length_map, List.length_reverse]; omega)
  rw [hexStringToAlgorism, map_algorism p h]
  rw [Nat.zero_add, Nat.mul_zero, Nat.pow_zero, Nat.one_mul] at hsum
  exact hsum

theorem hexStringToAlgorism_long (p : Platform) (h : ∀ x ∈ c :: w, (asciiDigit x).isSome)
    (hlen : 256 ≤ w.length) :
    hexStringToAlgorism p (c :: w) = if digitValue c = 0 then 0 else maxInt := by
  have hsum := addPowers_infinity (j := 4) (w.reverse.map digitValue) (digitValue c)
    (by rw [List.length_map, List.length_reverse]; omega)
  rw [hexStringToAlgorism, map_algorism p h, List.reverse_cons, List.map_append]
  exact hsum

end Digits

/-- A text of at most 256 digits is read as its number, or as the largest `int`; of a longer one
only counts whether it begins with a zero. -/
theorem hexStringToAlgorism_eq (p : Platform) (w : HexString) :
    hexStringToAlgorism p w.chars =
      if w.chars.length ≤ 256 then min maxInt (hexValue w.chars)
      else if w.chars.head? = some 0x30 then 0 else maxInt := by
  obtain ⟨w, h⟩ := w
  split
  · next hlen => exact hexStringToAlgorism_short p h hlen
  · next hlen =>
    cases w with
    | nil => exact absurd (Nat.zero_le _) hlen
    | cons c w =>
        have hlen' : 256 ≤ w.length := Nat.le_of_lt_succ (Nat.lt_of_not_le hlen)
        rw [hexStringToAlgorism_long p h hlen', List.head?_cons]
        simp only [digitValue_eq_zero_iff (h c List.mem_cons_self), Option.some.injEq]

def bits (n : ℕ) : List ℕ := [n / 8 % 2, n / 4 % 2, n / 2 % 2, n % 2]

section Binary

variable {w : Str}

theorem binaryDigits_hexChar : ∀ n : Fin 16,
    (binaryDigits (hexChar n)).map (fun c => (c.toNat : ℤ) - 0x30) = (bits n).map (↑) := by
  decide

theorem length_binaryDigits : ∀ n : Fin 16, (binaryDigits (hexChar n)).length = 4 := by decide

theorem ofDigits_bits {n : ℕ} (h : n < 16) : Nat.ofDigits 2 (bits n).reverse = n := by
  simp only [bits, List.reverse_cons, List.reverse_nil, List.nil_append, List.cons_append,
    Nat.ofDigits_cons, Nat.ofDigits_nil]
  omega

theorem length_flatMap_bits (ds : List ℕ) : (ds.flatMap bits).length = 4 * ds.length := by
  simp [List.length_flatMap, bits, Nat.mul_comm]

theorem ofDigits_flatMap_bits {ds : List ℕ} (h : ∀ d ∈ ds, d < 16) :
    Nat.ofDigits 2 (ds.flatMap bits).reverse = Nat.ofDigits 16 ds.reverse := by
  induction ds with
  | nil => rfl
  | cons d ds ih =>
      obtain ⟨hd, hds⟩ := List.forall_mem_cons.mp h
      rw [List.flatMap_cons, List.reverse_append, List.reverse_cons, Nat.ofDigits_append,
        Nat.ofDigits_append, ih hds, ofDigits_bits hd, Nat.ofDigits_singleton,
        List.length_reverse, List.length_reverse, length_flatMap_bits, pow_mul]
      rfl

def binaryText (w : Str) : Str := w.flatMap fun c => binaryDigits (hexChar (digitValue c))

theorem length_binaryText (h : ∀ c ∈ w, (asciiDigit c).isSome) :
    (binaryText w).length = 4 * w.length := by
  induction w with
  | nil => rfl
  | cons c w ih =>
      obtain ⟨hc, hw⟩ := List.forall_mem_cons.mp h
      have hfour := length_binaryDigits ⟨_, digitValue_lt hc⟩
      rw [binaryText, List.flatMap_cons, List.length_append, hfour, List.length_cons]
      have := ih hw
      rw [binaryText] at this
      omega

theorem hexStringToBinary_eq (p : Platform) (h : ∀ c ∈ w, (asciiDigit c).isSome) :
    hexStringToBinary p w =
      if 4 * w.length < 2 ^ 31 then .ok (binaryText w) else .error .outOfMemory := by
  rw [hexStringToBinary, toUpperCase_digits p h, List.flatMap_map, ← binaryText, alloc,
    length_binaryText h]

theorem map_binaryText (h : ∀ c ∈ w, (asciiDigit c).isSome) :
    (binaryText w).map (fun c => (c.toNat : ℤ) - 0x30) =
      ((w.map digitValue).flatMap bits).map (↑) := by
  induction w with
  | nil => rfl
  | cons c w ih =>
      obtain ⟨hc, hw⟩ := List.forall_mem_cons.mp h
      have hbits := binaryDigits_hexChar ⟨_, digitValue_lt hc⟩
      rw [binaryText, List.flatMap_cons, List.map_append, hbits, ← binaryText, ih hw,
        List.map_cons, List.flatMap_cons, List.map_append]

theorem binaryToAlgorism_binaryText (h : ∀ c ∈ w, (asciiDigit c).isSome) :
    binaryToAlgorism (binaryText w) =
      addPowers (2 ^ 1) 0 0 (((w.map digitValue).flatMap bits).reverse.map (↑)) := by
  rw [binaryToAlgorism, List.map_reverse, map_binaryText h, ← List.map_reverse]
  rfl

theorem binaryToAlgorism_short (h : ∀ c ∈ w, (asciiDigit c).isSome) (hlen : w.length ≤ 256) :
    binaryToAlgorism (binaryText w) = min maxInt (hexValue w) := by
  have hbit : ∀ d ∈ ((w.map digitValue).flatMap bits).reverse, d < 2 ^ 1 := by
    intro d hd
    obtain ⟨n, -, hn⟩ := List.mem_flatMap.mp (List.mem_reverse.mp hd)
    simp only [bits, List.mem_cons, List.not_mem_nil, or_false] at hn
    omega
  have hdigit : ∀ d ∈ w.map digitValue, d < 16 := by
    intro d hd
    obtain ⟨c, hc, rfl⟩ := List.mem_map.mp hd
    exact digitValue_lt (h c hc)
  have hsum := addPowers_eq (j := 1) (k := 0) (by decide) (by decide) hbit 0
    (by rw [List.length_reverse, length_flatMap_bits, List.length_map]; omega)
  have hvalue : Nat.ofDigits (2 ^ 1) ((w.map digitValue).flatMap bits).reverse = hexValue w := by
    rw [pow_one, ofDigits_flatMap_bits hdigit, hexValue, List.map_reverse]
  rw [hvalue, Nat.zero_add, Nat.mul_zero, Nat.pow_zero, Nat.one_mul] at hsum
  rw [binaryToAlgorism_binaryText h]
  exact hsum

/-- The first of four binary digits is set from eight on. -/
theorem binaryToAlgorism_long {c : Char16} (h : ∀ x ∈ c :: w, (asciiDigit x).isSome)
    (hlen : 256 ≤ w.length) :
    binaryToAlgorism (binaryText (c :: w)) = if digitValue c < 8 then 0 else maxInt := by
  have hc := digitValue_lt (h c List.mem_cons_self)
  have hsplit : (((c :: w).map digitValue).flatMap bits).reverse =
      ((w.map digitValue).flatMap bits).reverse ++
        [digitValue c % 2, digitValue c / 2 % 2, digitValue c / 4 % 2] ++
        [digitValue c / 8 % 2] := by
    simp [bits]
  have hsum := addPowers_infinity (j := 1)
    (((w.map digitValue).flatMap bits).reverse ++
      [digitValue c % 2, digitValue c / 2 % 2, digitValue c / 4 % 2]) (digitValue c / 8 % 2) (by
      rw [List.length_append, List.length_reverse, length_flatMap_bits, List.length_map]
      omega)
  rw [binaryToAlgorism_binaryText h, hsplit, hsum]
  have hzero : digitValue c / 8 % 2 = 0 ↔ digitValue c < 8 := by omega
  simp only [hzero]

end Binary

/-- The binary digits of a text stand for the same `int`, except those of a text of more than 256
digits that begins with a digit from one to seven. -/
theorem binaryToAlgorism_agrees_iff (p : Platform) (w : HexString) :
    (hexStringToBinary p w.chars).map binaryToAlgorism = .ok (hexStringToAlgorism p w.chars) ↔
      4 * w.chars.length < 2 ^ 31 ∧
        (w.chars.length ≤ 256 ∨ ∀ c ∈ w.chars.head?, digitValue c = 0 ∨ 8 ≤ digitValue c) := by
  obtain ⟨w, h⟩ := w
  rw [hexStringToBinary_eq p h]
  split
  · next hmem =>
    simp only [Except.map, Except.ok.injEq, hmem, true_and]
    by_cases hlen : w.length ≤ 256
    · simp only [hlen, true_or, iff_true]
      rw [binaryToAlgorism_short h hlen, hexStringToAlgorism_short p h hlen]
    · simp only [hlen, false_or]
      cases w with
      | nil => exact absurd (Nat.zero_le _) hlen
      | cons c w =>
          have hlen' : 256 ≤ w.length := Nat.le_of_lt_succ (Nat.lt_of_not_le hlen)
          have hmax : maxInt ≠ 0 := by decide
          rw [binaryToAlgorism_long h hlen', hexStringToAlgorism_long p h hlen', List.head?_cons]
          simp only [Option.mem_def, Option.some.injEq, forall_eq']
          split <;> split <;> omega
  · next hmem =>
    simp only [Except.map, hmem, false_and, iff_false]
    exact nofun

end Hatch.Convert
