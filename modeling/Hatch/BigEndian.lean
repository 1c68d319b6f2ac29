import Mathlib.Algebra.Order.Ring.Int
import Mathlib.Tactic.NormNum
import Mathlib.Tactic.Positivity
import Mathlib.Tactic.Ring

/-!
# Integers as sequences of bytes

`bytes n k` are the last `k` bytes of the two's complement of `n`, the most significant first, and
`value v b` is the integer that a number `v` becomes when the bytes `b` are written behind it. Each
is determined by the other as far as the bytes reach.
-/

namespace BigEndian

def bytes (n : ℤ) : ℕ → List (BitVec 8)
  | 0 => []
  | k + 1 => BitVec.ofInt 8 (n / 256 ^ k) :: bytes n k

def value (v : ℤ) (b : List (BitVec 8)) : ℤ := b.foldl (fun v c => 256 * v + c.toNat) v

@[simp] theorem length_bytes (n : ℤ) (k : ℕ) : (bytes n k).length = k := by
  induction k with
  | zero => rfl
  | succ k ih => rw [bytes, List.length_cons, ih]

@[simp] theorem value_nil (v : ℤ) : value v [] = v := rfl

@[simp] theorem value_cons (v : ℤ) (c : BitVec 8) (b : List (BitVec 8)) :
    value v (c :: b) = value (256 * v + c.toNat) b := rfl

theorem value_eq (v : ℤ) (b : List (BitVec 8)) : value v b = v * 256 ^ b.length + value 0 b := by
  induction b generalizing v with
  | nil => simp
  | cons c b ih =>
      rw [value_cons, value_cons, ih, ih (256 * 0 + c.toNat), List.length_cons]
      ring

theorem value_zero_nonneg (b : List (BitVec 8)) : 0 ≤ value 0 b := by
  induction b with
  | nil => exact le_rfl
  | cons c b ih =>
      rw [value_cons, value_eq]
      positivity

theorem value_zero_lt (b : List (BitVec 8)) : value 0 b < 256 ^ b.length := by
  induction b with
  | nil => exact Int.one_pos
  | cons c b ih =>
      have hc : (c.toNat : ℤ) + 1 ≤ 256 := by
        have := c.isLt
        omega
      calc value 0 (c :: b) = c.toNat * 256 ^ b.length + value 0 b := by
            rw [value_cons, value_eq, mul_zero, zero_add]
        _ < c.toNat * 256 ^ b.length + 256 ^ b.length := Int.add_lt_add_left ih _
        _ = (c.toNat + 1) * 256 ^ b.length := by ring
        _ ≤ 256 * 256 ^ b.length := by gcongr
        _ = 256 ^ (c :: b).length := by rw [List.length_cons, pow_succ, mul_comm]

/-- The bytes in front do not depend on the ones behind. -/
theorem value_div (v : ℤ) (b : List (BitVec 8)) : value v b / 256 ^ b.length = v := by
  have hpos : (0 : ℤ) < 256 ^ b.length := by positivity
  rw [value_eq, add_comm, Int.add_mul_ediv_right _ _ hpos.ne',
    Int.ediv_eq_zero_of_lt (value_zero_nonneg b) (value_zero_lt b), zero_add]

theorem bytes_value (v : ℤ) (b : List (BitVec 8)) : bytes (value v b) b.length = b := by
  induction b generalizing v with
  | nil => rfl
  | cons c b ih =>
      have hc : BitVec.ofInt 8 (256 * v + c.toNat) = c := by
        apply BitVec.eq_of_toNat_eq
        have := c.isLt
        rw [BitVec.toNat_ofInt]
        omega
      rw [value_cons, List.length_cons, bytes, ih, value_div, hc]

theorem value_bytes (v n : ℤ) (k : ℕ) : value v (bytes n k) = v * 256 ^ k + n % 256 ^ k := by
  induction k generalizing v with
  | zero => simp [bytes]
  | succ k ih =>
      have hdigit : ((BitVec.ofInt 8 (n / 256 ^ k)).toNat : ℤ) = n / 256 ^ k % 256 := by
        rw [BitVec.toNat_ofInt]
        omega
      have hsplit : n % 256 ^ (k + 1) = n / 256 ^ k % 256 * 256 ^ k + n % 256 ^ k := by
        rw [pow_succ, Int.emod_def, ← Int.ediv_ediv_of_nonneg (by positivity), Int.emod_def,
          Int.emod_def]
        ring
      rw [bytes, value_cons, ih, hdigit, hsplit, pow_succ]
      ring

/-- Longer than necessary, a number that is not negative starts with zeros. -/
theorem bytes_pad {n : ℤ} {k : ℕ} (h0 : 0 ≤ n) (h : n < 256 ^ k) (j : ℕ) :
    bytes n (j + k) = List.replicate j 0 ++ bytes n k := by
  induction j with
  | zero => rw [Nat.zero_add, List.replicate_zero, List.nil_append]
  | succ j ih =>
      have hle : (256 : ℤ) ^ k ≤ 256 ^ (j + k) := by
        gcongr
        · norm_num
        · omega
      have hzero : n / 256 ^ (j + k) = 0 := Int.ediv_eq_zero_of_lt h0 (h.trans_le hle)
      rw [Nat.succ_add_eq_add_succ, Nat.add_succ, bytes, hzero, ih, List.replicate_succ,
        List.cons_append]
      rfl

end BigEndian
