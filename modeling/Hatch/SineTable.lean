import Mathlib.Analysis.Complex.Exponential
import Mathlib.Analysis.Complex.Trigonometric
import Mathlib.Analysis.Complex.Basic
import Mathlib.Algebra.Order.Floor.Semiring
import Mathlib.Tactic.LinearCombination

/-!
# Sines of whole numbers in fixed point

A point of the unit circle is held as two integers over `2 ^ p` with a bound on its error.
From `1 + 2⁻ʰ I`, which is close to `exp (2⁻ʰ I)`, repeated squares lead to `exp I` and
further products to `exp (n I)`, whose imaginary part is the sine of `n`. When the bound
leaves no choice, the whole part of `2 ^ m * |sin n|` can be read off.
-/

namespace SineTable

open Complex

/-- The point `(re + im I) / 2 ^ p`, off by at most `err / 2 ^ p`. -/
structure Fixed where
  re : ℤ
  im : ℤ
  err : ℕ

namespace Fixed

noncomputable def value (x : Fixed) : ℂ := x.re + x.im * I

def Near (p : ℕ) (x : Fixed) (z : ℂ) : Prop := ‖z * 2 ^ p - x.value‖ ≤ x.err

def mul (p : ℕ) (x y : Fixed) : Fixed :=
  ⟨(x.re * y.re - x.im * y.im) / 2 ^ p, (x.re * y.im + x.im * y.re) / 2 ^ p,
    x.err + y.err + x.err * y.err / 2 ^ p + 3⟩

theorem abs_div_sub_ediv_le (p : ℕ) (a : ℤ) : |(a : ℝ) / 2 ^ p - (a / 2 ^ p : ℤ)| ≤ 1 := by
  have hp : (0 : ℝ) < 2 ^ p := by positivity
  have hle : (2 ^ p * (a / 2 ^ p) : ℤ) ≤ a := Int.mul_ediv_self_le (by positivity)
  have hlt : a < 2 ^ p * (a / 2 ^ p) + 2 ^ p := Int.lt_mul_ediv_self_add (by positivity)
  have hle' : (2 : ℝ) ^ p * (a / 2 ^ p : ℤ) ≤ a := by exact_mod_cast hle
  have hlt' : (a : ℝ) < 2 ^ p * (a / 2 ^ p : ℤ) + 2 ^ p := by exact_mod_cast hlt
  rw [abs_le, le_sub_iff_add_le, sub_le_iff_le_add, le_div_iff₀ hp, div_le_iff₀ hp]
  constructor
  · linarith
  · linarith

/-- Rounding the coordinates of a product costs at most one unit in each. -/
theorem norm_mul_value_sub_le (p : ℕ) (x y : Fixed) :
    ‖x.value * y.value / 2 ^ p - (mul p x y).value‖ ≤ 2 := by
  have hz : x.value * y.value / 2 ^ p - (mul p x y).value =
      ((((x.re * y.re - x.im * y.im : ℤ) : ℝ) / 2 ^ p -
        ((x.re * y.re - x.im * y.im) / 2 ^ p : ℤ) : ℝ) : ℂ) +
      ((((x.re * y.im + x.im * y.re : ℤ) : ℝ) / 2 ^ p -
        ((x.re * y.im + x.im * y.re) / 2 ^ p : ℤ) : ℝ) : ℂ) * I := by
    simp only [value, mul]
    push_cast
    linear_combination (x.im * y.im / 2 ^ p : ℂ) * I_mul_I
  rw [hz]
  refine (norm_le_abs_re_add_abs_im _).trans ?_
  rw [add_re, add_im, ofReal_re, ofReal_im, re_ofReal_mul, im_ofReal_mul, I_re, I_im, mul_zero,
    mul_one, add_zero, zero_add]
  exact (add_le_add (abs_div_sub_ediv_le _ _) (abs_div_sub_ediv_le _ _)).trans (by norm_num)

theorem Near.mul {p : ℕ} {x y : Fixed} {z w : ℂ} (hx : x.Near p z) (hy : y.Near p w)
    (hz : ‖z‖ = 1) (hw : ‖w‖ = 1) : (mul p x y).Near p (z * w) := by
  have hp : (0 : ℝ) < 2 ^ p := by positivity
  have hN : ‖(2 : ℂ) ^ p‖ = 2 ^ p := by simp
  have hyvalue : ‖y.value‖ ≤ 2 ^ p + y.err := by
    have h := norm_sub_norm_le y.value (w * 2 ^ p)
    rw [norm_sub_rev, norm_mul, hw, one_mul, hN] at h
    linarith [show ‖w * 2 ^ p - y.value‖ ≤ y.err from hy]
  have hexact : ‖z * w * 2 ^ p - x.value * y.value / 2 ^ p‖ ≤
      x.err + y.err + x.err * y.err / 2 ^ p := by
    have hsplit : z * w * 2 ^ p - x.value * y.value / 2 ^ p =
        z * (w * 2 ^ p - y.value) + y.value / 2 ^ p * (z * 2 ^ p - x.value) := by
      field_simp
      ring
    have hfactor : ‖y.value / 2 ^ p‖ ≤ 1 + y.err / 2 ^ p := by
      rw [norm_div, hN, div_le_iff₀ hp, add_mul, one_mul, div_mul_cancel₀ _ hp.ne']
      exact hyvalue
    calc ‖z * w * 2 ^ p - x.value * y.value / 2 ^ p‖
        ≤ ‖z * (w * 2 ^ p - y.value)‖ + ‖y.value / 2 ^ p * (z * 2 ^ p - x.value)‖ := by
          rw [hsplit]
          exact norm_add_le _ _
      _ ≤ y.err + (1 + y.err / 2 ^ p) * x.err := by
          rw [norm_mul, norm_mul, hz, one_mul]
          exact add_le_add hy (mul_le_mul hfactor hx (norm_nonneg _) (by positivity))
      _ = x.err + y.err + x.err * y.err / 2 ^ p := by ring
  have herr : (x.err * y.err / 2 ^ p : ℝ) ≤ ((x.err * y.err / 2 ^ p : ℕ) : ℝ) + 1 := by
    rw [div_le_iff₀ hp]
    exact_mod_cast (Nat.lt_div_mul_add (Nat.two_pow_pos p)).le.trans_eq (by ring)
  have hround := norm_mul_value_sub_le p x y
  have htri := norm_sub_le_norm_sub_add_norm_sub (z * w * 2 ^ p) (x.value * y.value / 2 ^ p)
    (Fixed.mul p x y).value
  have htotal : ((Fixed.mul p x y).err : ℝ) =
      x.err + y.err + ((x.err * y.err / 2 ^ p : ℕ) : ℝ) + 3 := by
    simp only [Fixed.mul]
    push_cast
    rfl
  rw [Near, htotal]
  linarith

end Fixed

open Fixed

def squares (p : ℕ) (x : Fixed) : ℕ → Fixed
  | 0 => x
  | k + 1 => mul p (squares p x k) (squares p x k)

theorem near_squares {p : ℕ} {x : Fixed} {z : ℂ} (hx : x.Near p z) (hz : ‖z‖ = 1) (k : ℕ) :
    (squares p x k).Near p (z ^ 2 ^ k) := by
  induction k with
  | zero => simpa [squares] using hx
  | succ k ih =>
      have hnorm : ‖z ^ 2 ^ k‖ = 1 := by rw [norm_pow, hz, one_pow]
      have h := ih.mul ih hnorm hnorm
      rwa [← pow_add, ← two_mul, ← pow_succ'] at h

def powers (p : ℕ) (x : Fixed) : ℕ → Fixed
  | 0 => ⟨2 ^ p, 0, 0⟩
  | n + 1 => mul p (powers p x n) x

theorem near_powers {p : ℕ} {x : Fixed} {z : ℂ} (hx : x.Near p z) (hz : ‖z‖ = 1) (n : ℕ) :
    (powers p x n).Near p (z ^ n) := by
  induction n with
  | zero => simp [powers, Near, value]
  | succ n ih =>
      rw [pow_succ]
      exact ih.mul hx (by rw [norm_pow, hz, one_pow]) hz

/-- The point at angle `2⁻ʰ`, with `2 * h` binary places. -/
def start (h : ℕ) : Fixed := ⟨2 ^ (2 * h), 2 ^ h, 1⟩

theorem near_start (h : ℕ) : (start h).Near (2 * h) (exp (((2 ^ h)⁻¹ : ℝ) * I)) := by
  have hnorm : ‖(((2 ^ h)⁻¹ : ℝ) * I : ℂ)‖ = (2 ^ h)⁻¹ := by simp
  have hbound := norm_exp_sub_one_sub_id_le (hnorm.trans_le (inv_le_one_of_one_le₀ (one_le_pow₀
    one_le_two)))
  have hscale : exp (((2 ^ h)⁻¹ : ℝ) * I) * 2 ^ (2 * h) - (start h).value =
      2 ^ (2 * h) * (exp (((2 ^ h)⁻¹ : ℝ) * I) - 1 - ((2 ^ h)⁻¹ : ℝ) * I) := by
    simp only [start, value]
    push_cast
    rw [two_mul, pow_add]
    field_simp
    ring
  rw [Near, hscale, norm_mul]
  refine (mul_le_mul_of_nonneg_left hbound (norm_nonneg _)).trans_eq ?_
  rw [hnorm, start, norm_pow, inv_pow, ← pow_mul, mul_comm h 2]
  simp

def point (h n : ℕ) : Fixed := powers (2 * h) (squares (2 * h) (start h) h) n

theorem near_point (h n : ℕ) : (point h n).Near (2 * h) (exp ((n : ℝ) * I)) := by
  have hone : exp (((2 ^ h)⁻¹ : ℝ) * I) ^ 2 ^ h = exp ((1 : ℝ) * I) := by
    rw [← exp_nat_mul]
    push_cast
    field_simp
  have hunit := near_squares (near_start h) (norm_exp_ofReal_mul_I _) h
  rw [hone] at hunit
  have hn : exp ((n : ℝ) * I) = exp ((1 : ℝ) * I) ^ n := by
    rw [← exp_nat_mul]
    push_cast
    ring_nf
  rw [hn]
  exact near_powers hunit (norm_exp_ofReal_mul_I _) n

theorem abs_sin_sub_le (h n : ℕ) :
    |Real.sin n * 2 ^ (2 * h) - (point h n).im| ≤ (point h n).err := by
  have him : (exp ((n : ℝ) * I) * 2 ^ (2 * h) - (point h n).value).im =
      Real.sin n * 2 ^ (2 * h) - (point h n).im := by
    have hcast : ((2 : ℂ) ^ (2 * h)) = ((2 ^ (2 * h) : ℝ) : ℂ) := by push_cast; rfl
    rw [sub_im, hcast, im_mul_ofReal, exp_ofReal_mul_I_im]
    simp [value]
  rw [← him]
  exact (abs_im_le_norm _).trans (near_point h n)

/-- With its error `x` lies between `q` and `q + 1` in units of `2⁻ᵐ`. -/
def Reads (p m : ℕ) (x : Fixed) (q : ℕ) : Prop :=
  q * 2 ^ p + 2 ^ m * x.err ≤ 2 ^ m * x.im.natAbs ∧
    2 ^ m * x.im.natAbs + 2 ^ m * x.err < (q + 1) * 2 ^ p

instance (p m : ℕ) (x : Fixed) (q : ℕ) : Decidable (Reads p m x q) :=
  inferInstanceAs (Decidable (_ ∧ _))

theorem floor_abs_sin {h m n q : ℕ} (hq : Reads (2 * h) m (point h n) q) :
    ⌊2 ^ m * |Real.sin n|⌋₊ = q := by
  have hsin := abs_sin_sub_le h n
  have hp : (0 : ℝ) < 2 ^ (2 * h) := by positivity
  have hm : (0 : ℝ) < 2 ^ m := by positivity
  generalize point h n = x at hq hsin
  have hle : (q : ℝ) * 2 ^ (2 * h) + 2 ^ m * x.err ≤ 2 ^ m * |(x.im : ℝ)| := by
    rw [← Int.cast_abs, ← Int.natCast_natAbs]
    exact_mod_cast hq.1
  have hlt : 2 ^ m * |(x.im : ℝ)| + 2 ^ m * x.err < (q + 1) * 2 ^ (2 * h) := by
    rw [← Int.cast_abs, ← Int.natCast_natAbs]
    exact_mod_cast hq.2
  have habs : |Real.sin n * 2 ^ (2 * h)| = |Real.sin n| * 2 ^ (2 * h) := by
    rw [abs_mul, abs_of_pos hp]
  have hupper := abs_sub_abs_le_abs_sub (Real.sin n * 2 ^ (2 * h)) x.im
  have hlower := abs_sub_abs_le_abs_sub (x.im : ℝ) (Real.sin n * 2 ^ (2 * h))
  rw [abs_sub_comm] at hlower
  rw [habs] at hupper hlower
  rw [Nat.floor_eq_iff (by positivity), ← mul_le_mul_iff_left₀ hp, ← mul_lt_mul_iff_left₀ hp]
  constructor
  · nlinarith
  · nlinarith

end SineTable
