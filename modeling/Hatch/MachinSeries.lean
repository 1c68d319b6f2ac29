import Mathlib.Analysis.SpecialFunctions.Complex.Arctan
import Mathlib.Analysis.SpecialFunctions.Trigonometric.Arctan
import Mathlib.Analysis.SpecificLimits.Normed

/-!
# Partial sums of Machin's series

The series of `arctan x⁻¹` for `1 < x` alternates and its terms decrease, so a partial sum is off by
at most the next term. Terms that are only known up to `ε` add `ε` each. Machin's identity combines
two such series to `π`.
-/

namespace ArctanSeries

open Finset Real

/-- Term `k` of the series of `arctan x⁻¹`, without its sign. -/
noncomputable def term (x : ℝ) (k : ℕ) : ℝ := ((2 * k + 1 : ℕ) * x ^ (2 * k + 1))⁻¹

variable {x : ℝ}

theorem term_nonneg (hx : 0 ≤ x) (k : ℕ) : 0 ≤ term x k := by
  unfold term
  positivity

theorem antitone_term (hx : 1 ≤ x) : Antitone (term x) := by
  intro j k hjk
  have hcast : ((2 * j + 1 : ℕ) : ℝ) ≤ (2 * k + 1 : ℕ) := by exact_mod_cast (by omega)
  have hpow : x ^ (2 * j + 1) ≤ x ^ (2 * k + 1) := pow_le_pow_right₀ hx (by omega)
  unfold term
  gcongr

theorem hasSum_term (hx : 1 < x) : HasSum (fun k => (-1) ^ k * term x k) (arctan x⁻¹) := by
  have hinv : ‖x⁻¹‖ < 1 := by
    rw [norm_inv, Real.norm_of_nonneg (by linarith)]
    exact inv_lt_one_of_one_lt₀ hx
  convert Real.hasSum_arctan hinv using 2 with k
  rw [term, mul_inv_rev, inv_pow, mul_div_assoc, div_eq_mul_inv]

theorem summable_term (hx : 1 < x) : Summable (term x) := by
  have habs := (hasSum_term hx).summable.abs
  refine habs.congr fun k => ?_
  rw [abs_mul, abs_neg_one_pow, one_mul, abs_of_nonneg (term_nonneg (by linarith) k)]

theorem abs_arctan_sub_sum_le (hx : 1 < x) (n : ℕ) :
    |arctan x⁻¹ - ∑ k ∈ range n, (-1) ^ k * term x k| ≤ term x n := by
  rw [← (hasSum_term hx).tsum_eq]
  exact alternating_series_error_bound (term x) (antitone_term hx.le) (summable_term hx) n

/-- The partial sum with each term replaced by an approximation. -/
theorem abs_arctan_sub_approx_le (hx : 1 < x) {n : ℕ} {r : ℕ → ℝ} {ε : ℝ}
    (hr : ∀ k < n, |term x k - r k| ≤ ε) :
    |arctan x⁻¹ - ∑ k ∈ range n, (-1) ^ k * r k| ≤ n * ε + term x n := by
  have hterms : |∑ k ∈ range n, (-1) ^ k * (term x k - r k)| ≤ n * ε := by
    calc |∑ k ∈ range n, (-1) ^ k * (term x k - r k)|
        ≤ ∑ k ∈ range n, |(-1) ^ k * (term x k - r k)| := abs_sum_le_sum_abs _ _
      _ ≤ ∑ _k ∈ range n, ε := by
          refine sum_le_sum fun k hk => ?_
          rw [abs_mul, abs_neg_one_pow, one_mul]
          exact hr k (mem_range.mp hk)
      _ = n * ε := by rw [sum_const, card_range, nsmul_eq_mul]
  have hsplit : arctan x⁻¹ - ∑ k ∈ range n, (-1) ^ k * r k =
      (arctan x⁻¹ - ∑ k ∈ range n, (-1) ^ k * term x k) +
        ∑ k ∈ range n, (-1) ^ k * (term x k - r k) := by
    simp only [mul_sub, sum_sub_distrib]
    ring
  have htail := abs_arctan_sub_sum_le hx n
  rw [hsplit]
  have htriangle := abs_add_le (arctan x⁻¹ - ∑ k ∈ range n, (-1) ^ k * term x k)
    (∑ k ∈ range n, (-1) ^ k * (term x k - r k))
  linarith

/-- Machin's formula on `n` terms of each series, with what is neglected below `δ`. -/
theorem abs_machin_sub_pi_le {n : ℕ} {r s : ℕ → ℝ} {ε δ : ℝ}
    (hr : ∀ k < n, |term 5 k - r k| ≤ ε) (hs : ∀ k < n, |term 239 k - s k| ≤ ε)
    (hr' : term 5 n ≤ δ) (hs' : term 239 n ≤ δ) :
    |4 * ∑ k ∈ range n, (-1) ^ k * (4 * r k - s k) - π| ≤ 20 * (n * ε + δ) := by
  have h5 := abs_le.mp (abs_arctan_sub_approx_le (x := 5) (by norm_num) hr)
  have h239 := abs_le.mp (abs_arctan_sub_approx_le (x := 239) (by norm_num) hs)
  have hsum : ∑ k ∈ range n, (-1) ^ k * (4 * r k - s k) =
      4 * ∑ k ∈ range n, (-1) ^ k * r k - ∑ k ∈ range n, (-1) ^ k * s k := by
    rw [mul_sum, ← sum_sub_distrib]
    exact sum_congr rfl fun k _ => by ring
  have hmachin := four_mul_arctan_inv_5_sub_arctan_inv_239
  rw [hsum, abs_le]
  constructor <;> linarith

end ArctanSeries
