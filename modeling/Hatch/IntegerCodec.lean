import Mathlib.Data.Nat.Size
import Hatch.BigEndian
import Hatch.Sm4

/-!
# The 32-byte integers of `Convert.java`

`byteConvert32Bytes` takes the bytes of a `BigInteger`, pads them with zeros or drops the first of
33, which is the sign byte of a number below `2 ^ 256` but a byte of the number itself from there
on. `byteConvertInteger` reads bytes as a number that is not negative.
-/

namespace Hatch.Convert

open BigEndian Java

def bitLength : ℤ → ℕ
  | .ofNat m => m.size
  | .negSucc m => m.size

/-- `BigInteger.toByteArray`: as few bytes as hold the bits and the sign. -/
def toByteArray (n : ℤ) : List Byte := bytes n (bitLength n / 8 + 1)

def newBigInteger : List Byte → Except Throwable ℤ
  | [] => .error .numberFormat
  | c :: b => .ok (value c.toInt b)

/-- `System.arraycopy` to a position that may be negative. -/
def arraycopyTo (src : List Byte) (srcPos : ℕ) (dest : List Byte) (destPos : ℤ) (length : ℕ) :
    Except Throwable (List Byte) :=
  if 0 ≤ destPos then Sm4.arraycopy src srcPos dest destPos.toNat length
  else .error .indexOutOfBounds

/-- `byteConvert32Bytes`, where `none` is the null reference. The loop that clears the front of a
new array has no effect. -/
def byteConvert32Bytes : Option ℤ → Except Throwable (Option (List Byte))
  | none => .ok none
  | some n =>
      if (toByteArray n).length = 33 then do
        let tmpd ← arraycopyTo (toByteArray n) 1 (List.replicate 32 0) 0 32
        return some tmpd
      else if (toByteArray n).length = 32 then .ok (some (toByteArray n))
      else do
        let tmpd ← arraycopyTo (toByteArray n) 0 (List.replicate 32 0)
          (32 - (toByteArray n).length) (toByteArray n).length
        return some tmpd

def byteConvertInteger : List Byte → Except Throwable ℤ
  | [] => .error .indexOutOfBounds
  | c :: b => if c.toInt < 0 then newBigInteger (0 :: c :: b) else newBigInteger (c :: b)

theorem byteConvertInteger_eq {b : List Byte} (h : b ≠ []) :
    byteConvertInteger b = .ok (value 0 b) := by
  cases b with
  | nil => exact absurd rfl h
  | cons c b =>
      rw [byteConvertInteger]
      split
      · rfl
      · rename_i hc
        have hsign : c.toInt = c.toNat := by
          have hcases := BitVec.toInt_eq_toNat_cond c
          split at hcases
          · exact hcases
          · have := c.isLt
            omega
        rw [newBigInteger, hsign, value_cons, mul_zero, zero_add]

@[simp] theorem length_toByteArray (n : ℤ) : (toByteArray n).length = bitLength n / 8 + 1 :=
  length_bytes n _

/-- A position at the front of the source is skipped. -/
theorem arraycopyTo_drop (n : ℤ) :
    arraycopyTo (bytes n 33) 1 (List.replicate 32 0) 0 32 = .ok (bytes n 32) := by
  have htake : (bytes n 32).take 32 = bytes n 32 := List.take_of_length_le (by simp)
  rw [arraycopyTo, if_pos le_rfl, Sm4.arraycopy, if_pos (by simp)]
  change Except.ok ([] ++ (bytes n 32).take 32 ++ []) = _
  rw [htake, List.nil_append, List.append_nil]

theorem arraycopyTo_pad (n : ℤ) {k : ℕ} (h : k ≤ 32) :
    arraycopyTo (bytes n k) 0 (List.replicate 32 0) (32 - k) k =
      .ok (List.replicate (32 - k) 0 ++ bytes n k) := by
  have hpos : ((32 : ℤ) - k).toNat = 32 - k := by omega
  have htake : (bytes n k).take k = bytes n k := List.take_of_length_le (by simp)
  have hlen : 32 - k + k = 32 := by omega
  rw [arraycopyTo, if_pos (by omega), hpos, Sm4.arraycopy, if_pos (by simp; omega), List.drop_zero,
    htake, hlen, List.take_replicate, List.drop_replicate, Nat.min_eq_left (by omega)]
  simp

theorem bitLength_natCast (n : ℕ) : bitLength n = n.size := rfl

/-- A number that is not negative is written with 32 bytes if it has at most 33 of its own, and
then the first of 33 is lost. -/
theorem byteConvert32Bytes_natCast (n : ℕ) :
    byteConvert32Bytes (some n) =
      if n < 2 ^ 263 then .ok (some (bytes n 32)) else .error .indexOutOfBounds := by
  have hsize (m : ℕ) : n.size ≤ m ↔ n < 2 ^ m := Nat.size_le
  rw [byteConvert32Bytes, length_toByteArray, bitLength_natCast, toByteArray, bitLength_natCast]
  by_cases hfit : n < 2 ^ 263
  · have hle : n.size ≤ 263 := (hsize 263).mpr hfit
    rw [if_pos hfit]
    by_cases hlong : 256 ≤ n.size
    · have hlen : n.size / 8 + 1 = 33 := by omega
      rw [hlen, if_pos rfl, arraycopyTo_drop]
      rfl
    · rw [if_neg (by omega)]
      by_cases hexact : n.size / 8 + 1 = 32
      · rw [if_pos hexact, hexact]
      · have hlt : (n : ℤ) < 256 ^ (n.size / 8 + 1) := by
          have hpow : n < 2 ^ (8 * (n.size / 8 + 1)) := (hsize _).mp (by omega)
          rw [pow_mul] at hpow
          exact_mod_cast hpow
        have hpad := bytes_pad (Int.natCast_nonneg n) hlt (32 - (n.size / 8 + 1))
        rw [Nat.sub_add_cancel (by omega)] at hpad
        rw [if_neg hexact, arraycopyTo_pad n (by omega), hpad]
        rfl
  · have hge : 264 ≤ n.size := by
      have := (hsize 263).not.mpr hfit
      omega
    rw [if_neg hfit, if_neg (by omega), if_neg (by omega), arraycopyTo, if_neg (by omega)]
    rfl

theorem pow_256_lt : 2 ^ 256 < 2 ^ 263 := pow_lt_pow_right₀ Nat.one_lt_two (by decide)

/-- The encoding of `n` throws, or gives 32 bytes that are read as `n`. -/
def Encodes (n : ℕ) : Prop :=
  ∀ r, byteConvert32Bytes (some n) = .ok r →
    ∃ b, r = some b ∧ b.length = 32 ∧ byteConvertInteger b = .ok n

theorem byteConvertInteger_bytes (n : ℕ) :
    byteConvertInteger (bytes n 32) = .ok ((n % 2 ^ 256 : ℕ) : ℤ) := by
  have hne : bytes n 32 ≠ [] := by
    intro h
    have hlen := length_bytes n 32
    rw [h] at hlen
    cases hlen
  rw [byteConvertInteger_eq hne, value_bytes]
  norm_num

theorem encodes_iff (n : ℕ) : Encodes n ↔ ¬ (2 ^ 256 ≤ n ∧ n < 2 ^ 263) := by
  rw [Encodes, byteConvert32Bytes_natCast]
  by_cases hfit : n < 2 ^ 263
  · rw [if_pos hfit]
    constructor
    · intro h hlost
      obtain ⟨b, hb, -, hread⟩ := h _ rfl
      obtain rfl := Option.some.inj hb
      rw [byteConvertInteger_bytes] at hread
      have heq : n % 2 ^ 256 = n := by exact_mod_cast Except.ok.inj hread
      have hlt : n % 2 ^ 256 < 2 ^ 256 := Nat.mod_lt _ (by decide)
      omega
    · intro h r hr
      have hsmall : n < 2 ^ 256 := by
        by_contra hlarge
        exact h ⟨Nat.le_of_not_lt hlarge, hfit⟩
      refine ⟨bytes n 32, (Except.ok.inj hr).symm, length_bytes n 32, ?_⟩
      rw [byteConvertInteger_bytes, Nat.mod_eq_of_lt hsmall]
  · rw [if_neg hfit]
    constructor
    · intro _ hlost
      exact hfit hlost.2
    · intro _ r hr
      cases hr

/-- The 32 bytes of a number that is read from them are the same bytes. -/
theorem byteConvert32Bytes_byteConvertInteger (b : Vector Byte 32) :
    (byteConvertInteger b.toList >>= fun n => byteConvert32Bytes (some n)) =
      .ok (some b.toList) := by
  have hlen : b.toList.length = 32 := Vector.length_toList
  have hne : b.toList ≠ [] := List.ne_nil_of_length_pos (by omega)
  obtain ⟨n, hn⟩ := Int.eq_ofNat_of_zero_le (value_zero_nonneg b.toList)
  have hlt : n < 2 ^ 256 := by
    have hvalue := value_zero_lt b.toList
    rw [hlen, hn] at hvalue
    have hpow : (256 : ℤ) ^ 32 = ((2 ^ 256 : ℕ) : ℤ) := by norm_num
    rw [hpow] at hvalue
    exact_mod_cast hvalue
  have hfit : n < 2 ^ 263 := hlt.trans pow_256_lt
  have hbytes := bytes_value 0 b.toList
  rw [hlen, hn] at hbytes
  rw [byteConvertInteger_eq hne, hn]
  refine (byteConvert32Bytes_natCast n).trans ?_
  rw [if_pos hfit, hbytes]

/-- Bytes are kept, and a number is unless it has a byte more than there is room for. -/
theorem integerCodec_iff (b : Vector Byte 32) (n : ℕ) :
    (byteConvertInteger b.toList >>= fun n => byteConvert32Bytes (some n)) =
        .ok (some b.toList) ∧
      (Encodes n ↔ ¬ (2 ^ 256 ≤ n ∧ n < 2 ^ 263)) :=
  ⟨byteConvert32Bytes_byteConvertInteger b, encodes_iff n⟩

/-- The encoding of `2 ^ 256` is that of 0. -/
theorem byteConvert32Bytes_loses_byte :
    byteConvert32Bytes (some (2 ^ 256)) = .ok (some (List.replicate 32 0)) ∧
      byteConvertInteger (List.replicate 32 0) = .ok 0 := by
  refine ⟨?_, rfl⟩
  have hencoded := byteConvert32Bytes_natCast (2 ^ 256)
  rw [if_pos pow_256_lt] at hencoded
  have hbytes : bytes ((2 ^ 256 : ℕ) : ℤ) 32 = List.replicate 32 0 := by decide
  rw [hbytes] at hencoded
  exact_mod_cast hencoded

end Hatch.Convert
