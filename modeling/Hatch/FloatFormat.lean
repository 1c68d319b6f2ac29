import Mathlib.Data.Int.Order.Basic
import Mathlib.Data.Nat.Size
import Mathlib.Tactic.Positivity
import Mathlib.Tactic.Ring

/-!
# Integers in a floating-point format

Sums and products of integers in a binary format of IEEE 754: a number of binary digits, rounded
to the nearest number and of two to the even one, and infinite from a power of two on. Converting
back to an integer type takes the nearest integer of its range, and zero where there is no number.
-/

namespace Hatch.FloatFormat

/-- The digits of a format, and the exponent of the first power of two that is too large. -/
structure Format where
  precision : ℕ
  limit : ℕ
  precision_pos : 0 < precision
  precision_lt : precision < limit

/-- The numbers that are integers, the infinities, and no number. The two zeros are one. -/
inductive Number where
  | nan
  | infinity (negative : Bool)
  | integer (n : ℤ)
  deriving DecidableEq, Repr

/-- The multiple of `2 ^ e` nearest to `m`, an even one of two. -/
def roundTo (e m : ℕ) : ℕ :=
  let q := m / 2 ^ e
  let r := m % 2 ^ e
  if 2 * r < 2 ^ e ∨ (2 * r = 2 ^ e ∧ q % 2 = 0) then q * 2 ^ e else (q + 1) * 2 ^ e

namespace Format

def round (F : Format) (n : ℤ) : Number :=
  let m := roundTo (n.natAbs.size - F.precision) n.natAbs
  if m < 2 ^ F.limit then .integer (n.sign * m) else .infinity (n < 0)

def add (F : Format) : Number → Number → Number
  | .nan, _ | _, .nan => .nan
  | .infinity s, .infinity s' => if s = s' then .infinity s else .nan
  | .infinity s, .integer _ | .integer _, .infinity s => .infinity s
  | .integer m, .integer n => F.round (m + n)

def mul (F : Format) : Number → Number → Number
  | .nan, _ | _, .nan => .nan
  | .infinity s, .infinity s' => .infinity (s != s')
  | .infinity s, .integer n | .integer n, .infinity s =>
      if n = 0 then .nan else .infinity (s != decide (n < 0))
  | .integer m, .integer n => F.round (m * n)

/-- The power of an integer that is a number of the format, or too large for one. -/
def pow (F : Format) (b k : ℕ) : Number := F.round ((b ^ k : ℕ) : ℤ)

end Format

def clamp (lo hi n : ℤ) : ℤ := max lo (min hi n)

def Number.toInt (lo hi : ℤ) : Number → ℤ
  | .nan => 0
  | .infinity s => if s then lo else hi
  | .integer n => clamp lo hi n

section Rounding

variable {F : Format} {e m : ℕ} {n : ℤ}

theorem roundTo_of_dvd (h : 2 ^ e ∣ m) : roundTo e m = m := by
  obtain ⟨q, rfl⟩ := h
  have hr : 2 ^ e * q % 2 ^ e = 0 := Nat.mul_mod_right ..
  have hq : 2 ^ e * q / 2 ^ e = q := Nat.mul_div_cancel_left _ (Nat.two_pow_pos e)
  have hlt : 2 * 0 < 2 ^ e := Nat.two_pow_pos e
  simp only [roundTo, hr, hq, if_pos (Or.inl hlt)]
  exact Nat.mul_comm ..

theorem le_roundTo (e m : ℕ) : m / 2 ^ e * 2 ^ e ≤ roundTo e m := by
  unfold roundTo
  dsimp only
  split
  · rfl
  · exact Nat.mul_le_mul_right _ (Nat.le_succ _)

/-- What the digits and a power of two can write is not rounded. -/
theorem round_of_dvd (hd : 2 ^ (n.natAbs.size - F.precision) ∣ n.natAbs) :
    F.round n = if n.natAbs < 2 ^ F.limit then .integer n else .infinity (n < 0) := by
  simp only [Format.round, roundTo_of_dvd hd, Int.sign_mul_natAbs]

theorem round_of_lt (h : n.natAbs < 2 ^ F.precision) : F.round n = .integer n := by
  have hs : n.natAbs.size - F.precision = 0 := Nat.sub_eq_zero_of_le (Nat.size_le.mpr h)
  rw [round_of_dvd (by rw [hs]; exact one_dvd _)]
  exact if_pos (lt_of_lt_of_le h (Nat.pow_le_pow_right Nat.two_pos F.precision_lt.le))

/-- A number with more digits than the format has stays as large. -/
theorem pow_le_roundTo (h : 2 ^ F.precision ≤ m) :
    2 ^ F.precision ≤ roundTo (m.size - F.precision) m := by
  obtain ⟨p, hp⟩ : ∃ p, F.precision = p + 1 := ⟨F.precision - 1, by have := F.precision_pos; omega⟩
  rw [hp] at h ⊢
  have hsize := Nat.lt_size.mpr h
  obtain ⟨k, hk⟩ : ∃ k, m.size = p + 1 + (k + 1) := ⟨m.size - (p + 2), by omega⟩
  have hm : 2 ^ (p + (k + 1)) ≤ m := Nat.lt_size.mp (by omega)
  have hq : 2 ^ p ≤ m / 2 ^ (k + 1) := by
    rw [Nat.le_div_iff_mul_le (Nat.two_pow_pos _), ← pow_add]
    exact hm
  rw [hk, Nat.add_sub_cancel_left]
  calc 2 ^ (p + 1) = 2 ^ p * 2 ^ 1 := pow_add ..
    _ ≤ 2 ^ p * 2 ^ (k + 1) :=
        Nat.mul_le_mul_left _ (Nat.pow_le_pow_right Nat.two_pos (by omega))
    _ ≤ m / 2 ^ (k + 1) * 2 ^ (k + 1) := Nat.mul_le_mul_right _ hq
    _ ≤ _ := le_roundTo ..

end Rounding

section Conversion

variable {F : Format} {lo hi n : ℤ}

theorem clamp_of_le (h : lo ≤ hi) (hn : hi ≤ n) : clamp lo hi n = hi := by
  unfold clamp
  omega

theorem clamp_of_ge (hn : n ≤ lo) : clamp lo hi n = lo := by
  unfold clamp
  omega

/-- An integer type whose bounds the digits can write. -/
structure Fits (F : Format) (lo hi : ℤ) : Prop where
  lower : -2 ^ F.precision ≤ lo
  upper : hi ≤ 2 ^ F.precision
  le : lo ≤ hi

/-- A conversion to such a type does not see the rounding. -/
theorem Fits.toInt_round (h : Fits F lo hi) : (F.round n).toInt lo hi = clamp lo hi n := by
  have hlo := h.lower
  have hhi := h.upper
  by_cases hn : n.natAbs < 2 ^ F.precision
  · rw [round_of_lt hn, Number.toInt]
  · have hn' : (2 ^ F.precision : ℤ) ≤ n.natAbs := by exact_mod_cast Nat.le_of_not_lt hn
    have hm := pow_le_roundTo (Nat.le_of_not_lt hn)
    have hm' : (2 ^ F.precision : ℤ) ≤ (roundTo (n.natAbs.size - F.precision) n.natAbs : ℕ) := by
      exact_mod_cast hm
    rcases lt_or_ge n 0 with h0 | h0
    · rw [clamp_of_ge (by omega)]
      simp only [Format.round]
      split
      · rw [Int.sign_eq_neg_one_of_neg h0, Number.toInt]
        exact clamp_of_ge (by omega)
      · simp [Number.toInt, h0]
    · have hpos : (0 : ℤ) < 2 ^ F.precision := by positivity
      rw [clamp_of_le h.le (by omega)]
      simp only [Format.round]
      split
      · rw [Int.sign_eq_one_of_pos (by omega), Number.toInt]
        exact clamp_of_le h.le (by omega)
      · simp [Number.toInt, not_lt.mpr h0]

end Conversion

section Accumulation

variable {F : Format} {lo hi r a : ℤ} {j k : ℕ}

theorem pow_two_pow (F : Format) (j k : ℕ) :
    F.pow (2 ^ j) k = if j * k < F.limit then .integer (2 ^ (j * k)) else .infinity false := by
  have hn : (((2 ^ j) ^ k : ℕ) : ℤ).natAbs = 2 ^ (j * k) := by
    rw [Int.natAbs_natCast, ← pow_mul]
  have hd : 2 ^ ((2 ^ (j * k)).size - F.precision) ∣ 2 ^ (j * k) := by
    refine pow_dvd_pow 2 ?_
    have := F.precision_pos
    rw [Nat.size_pow]
    omega
  rw [Format.pow, round_of_dvd (by rw [hn]; exact hd), hn]
  simp only [Nat.pow_lt_pow_iff_right Nat.one_lt_two]
  split
  · rw [← pow_mul]
    push_cast
    rfl
  · rw [decide_eq_false (not_lt.mpr (Int.natCast_nonneg _))]

/-- A small number times a power of two is not rounded. -/
theorem mul_two_pow (ha : a.natAbs < 2 ^ F.precision) :
    F.mul (.integer (2 ^ k)) (.integer a) =
      if (2 ^ k * a).natAbs < 2 ^ F.limit then .integer (2 ^ k * a)
      else .infinity (2 ^ k * a < 0) := by
  refine round_of_dvd ?_
  have hn : (2 ^ k * a).natAbs = a.natAbs <<< k := by
    rw [Int.natAbs_mul, Int.natAbs_pow, Nat.shiftLeft_eq, Nat.mul_comm]
    rfl
  rw [hn]
  rcases Nat.eq_zero_or_pos a.natAbs with h0 | h0
  · rw [h0, Nat.zero_shiftLeft]
    exact dvd_zero _
  · rw [Nat.size_shiftLeft (by omega), Nat.shiftLeft_eq]
    have := Nat.size_le.mpr ha
    exact dvd_mul_of_dvd_right (pow_dvd_pow 2 (by omega)) _

/-- Adding a small multiple of a power of two to an integer of the type: the nearest integer of
the type, as long as the power is a number of the format. -/
theorem Fits.toInt_add_mul (h : Fits F lo hi) (hr : lo ≤ r ∧ r ≤ hi)
    (ha : a.natAbs < 2 ^ F.precision) (hk : j * k < F.limit) :
    (F.add (.integer r) (F.mul (F.pow (2 ^ j) k) (.integer a))).toInt lo hi =
      clamp lo hi (r + 2 ^ (j * k) * a) := by
  rw [pow_two_pow, if_pos hk, mul_two_pow ha]
  split
  · exact h.toInt_round
  next hbig =>
    -- the product is so large that the summand cannot bring it back into the range
    have hlim : (2 * 2 ^ F.precision : ℤ) ≤ 2 ^ F.limit := by
      rw [← pow_succ']
      exact_mod_cast Nat.pow_le_pow_right Nat.two_pos F.precision_lt
    have hbig' : (2 ^ F.limit : ℤ) ≤ (2 ^ (j * k) * a).natAbs := by
      exact_mod_cast Nat.le_of_not_lt hbig
    have hlo := h.lower
    have hhi := h.upper
    rcases lt_or_ge (2 ^ (j * k) * a) 0 with h0 | h0
    · rw [decide_eq_true h0, clamp_of_ge (by omega)]
      rfl
    · rw [decide_eq_false (not_lt.mpr h0), clamp_of_le h.le (by omega)]
      rfl

/-- Where the power is infinite, the sign of the factor decides, and with zero there is no
number. -/
theorem toInt_add_mul_infinity (hk : F.limit ≤ j * k) :
    (F.add (.integer r) (F.mul (F.pow (2 ^ j) k) (.integer a))).toInt lo hi =
      if a = 0 then 0 else if a < 0 then lo else hi := by
  rw [pow_two_pow, if_neg (not_lt.mpr hk)]
  by_cases ha : a = 0
  · simp [Format.mul, Format.add, Number.toInt, ha]
  · simp [Format.mul, Format.add, Number.toInt, ha]

end Accumulation

end Hatch.FloatFormat
