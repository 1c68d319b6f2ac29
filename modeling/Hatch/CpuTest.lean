import Hatch.BigDecimal
import Hatch.MachinSeries

/-!
# `cpuTestCase`: `π` by Machin's formula

`GetPaiN` adds up `n - 1` terms of each of the two arctangent series, every quotient cut off after
`n` decimals, and `GetPai` does the same for 10000 decimals. The loop keeps powers of 5 and 239 as
`BigDecimal`s, of which those of 239 outgrow a `BigInteger` for a large `n`.
-/

namespace Hatch.CpuTest

open Java Finset

structure PaiVars where
  fz1 : BigDecimal
  fz2 : BigDecimal
  b : BigDecimal
  flag : ℤ
  result : BigDecimal

def PaiVars.start : PaiVars := ⟨.ofInt 5, .ofInt 239, .ofInt 1, 1, .ofInt 0⟩

section Program

variable (R : BigIntegerRange)

def signedTerm (flag : ℤ) (r1 r2 : BigDecimal) : Except ArithmeticException BigDecimal :=
  if flag = 1 then do
    let m ← (BigDecimal.ofInt 4).multiply R r1
    m.subtract R r2
  else do
    let m ← (BigDecimal.ofInt 4).multiply R r1
    r2.subtract R m

/-- `fz.divide(x.multiply(b), n, ROUND_DOWN)` with `fz` one. -/
def reciprocal (n : ℕ) (x b : BigDecimal) : Except ArithmeticException BigDecimal := do
  let d ← x.multiply R b
  (BigDecimal.ofInt 1).divideDown R d n

def paiTurn (n : ℕ) (v : PaiVars) : Except ArithmeticException PaiVars := do
  let r1 ← reciprocal R n v.fz1 v.b
  let r2 ← reciprocal R n v.fz2 v.b
  let result1 ← signedTerm R v.flag r1 r2
  let result ← v.result.add R result1
  let b ← v.b.add R (.ofInt 2)
  let fz1 ← v.fz1.multiply R (.ofInt 25)
  let fz2 ← v.fz2.multiply R (.ofInt 57121)
  return ⟨fz1, fz2, b, if v.flag = 1 then -1 else 1, result⟩

/-- The value of `result` after the loop. From `i = 1` the condition `i < n` admits `n - 1` turns,
and none where `n` is not positive. -/
def paiResult (n : ℤ) : Except ArithmeticException BigDecimal := do
  let v ← CountedLoop.loopM (n - 1).toNat (fun _ => paiTurn R n.toNat) .start
  return v.result

/-- `GetPaiN`: the digits are a `long` that is cast to `int`. -/
def getPaiN (digitNum : BitVec 64) : Except ArithmeticException BigDecimal :=
  paiResult R (digitNum.setWidth 32).toInt

def getPai : Except ArithmeticException BigDecimal := do
  let result ← paiResult R 10000
  result.multiply R (.ofInt 4)

end Program

/-! ### The values the loop goes through -/

def quotient (x n k : ℕ) : ℕ := 10 ^ n / (x ^ (2 * k + 1) * (2 * k + 1))

def sumTo (n k : ℕ) : ℤ :=
  ∑ j ∈ range k, (-1) ^ j * (4 * (quotient 5 n j : ℤ) - quotient 239 n j)

/-- The variables before turn `k`; the first sum has scale 0. -/
def trace (n k : ℕ) : PaiVars where
  fz1 := .ofInt (5 ^ (2 * k + 1) : ℕ)
  fz2 := .ofInt (239 ^ (2 * k + 1) : ℕ)
  b := .ofInt (2 * k + 1 : ℕ)
  flag := (-1) ^ k
  result := ⟨sumTo n k, if k = 0 then 0 else n⟩

def needed (n k : ℕ) : List ℕ :=
  [5 ^ (2 * k + 1) * (2 * k + 1), 10 ^ n, 239 ^ (2 * k + 1) * (2 * k + 1), 4 * quotient 5 n k,
    quotient 239 n k, (4 * (quotient 5 n k : ℤ) - quotient 239 n k).natAbs, (sumTo n k).natAbs,
    (sumTo n (k + 1)).natAbs, 2 * k + 1, 2, 2 * k + 3, 5 ^ (2 * k + 1) * 25,
    239 ^ (2 * k + 1) * 57121]

def largest (n : ℕ) : ℕ := max (239 ^ (2 * n - 1)) (239 ^ (2 * n - 3) * (2 * n - 3))

variable {R : BigIntegerRange} {n k : ℕ}

theorem yields_reciprocal {x : ℕ} (hx : 0 < x) (hn : 0 < n) (hlt : n < 2 ^ 31) :
    Yields (reciprocal R n (.ofInt (x ^ (2 * k + 1) : ℕ)) (.ofInt (2 * k + 1 : ℕ)))
      (R.holds (x ^ (2 * k + 1) * (2 * k + 1)) ∧ R.holds (10 ^ n)) ⟨quotient x n k, n⟩ := by
  have hd : ((x ^ (2 * k + 1) : ℕ) : ℤ) * (2 * k + 1 : ℕ) ≠ 0 := by positivity
  have hquotient : (1 * 10 ^ n : ℤ).tdiv (((x ^ (2 * k + 1) : ℕ) : ℤ) * (2 * k + 1 : ℕ)) =
      quotient x n k := by
    rw [quotient, Int.ofNat_tdiv]
    push_cast
    rw [one_mul]
  have hmultiply := BigDecimal.yields_multiply_ofInt (R := R) (x ^ (2 * k + 1) : ℕ) (2 * k + 1 : ℕ)
  have hdivide := BigDecimal.yields_divideDown (R := R) (x := 1) hd hn hlt
  rw [hquotient] at hdivide
  refine (hmultiply.bind hdivide).congr ?_
  rw [Int.natAbs_mul, Int.natAbs_natCast, Int.natAbs_natCast, one_mul, Int.natAbs_pow]
  rfl

theorem yields_signedTerm (q q' : ℕ) (hlt : n < 2 ^ 31) :
    Yields (signedTerm R ((-1) ^ k) ⟨q, n⟩ ⟨q', n⟩)
      (R.holds (4 * q) ∧ R.holds q' ∧ R.holds (4 * (q : ℤ) - q').natAbs)
      ⟨(-1) ^ k * (4 * q - q'), n⟩ := by
  have hmultiply := BigDecimal.yields_multiply (R := R) 4 q (s := 0) (t := n) (by omega)
  rw [Nat.zero_add] at hmultiply
  have habs : (4 * (q : ℤ)).natAbs = 4 * q := by omega
  have hcomm : ((q' : ℤ) - 4 * q).natAbs = (4 * (q : ℤ) - q').natAbs := by omega
  rcases Nat.even_or_odd k with hk | hk
  · have hsubtract := BigDecimal.yields_subtract (R := R) (4 * q) q' n
    rw [signedTerm, hk.neg_one_pow, if_pos rfl, one_mul]
    refine (hmultiply.bind (f := fun m => m.subtract R ⟨q', n⟩) hsubtract).congr ?_
    rw [habs, Int.natAbs_natCast]
    tauto
  · have hsubtract := BigDecimal.yields_subtract (R := R) q' (4 * q) n
    rw [signedTerm, hk.neg_one_pow, if_neg (by decide), neg_one_mul, neg_sub]
    refine (hmultiply.bind hsubtract).congr ?_
    rw [habs, hcomm, Int.natAbs_natCast]
    tauto

theorem sumTo_succ (n k : ℕ) :
    sumTo n (k + 1) = sumTo n k + (-1) ^ k * (4 * (quotient 5 n k : ℤ) - quotient 239 n k) :=
  sum_range_succ _ k

theorem trace_succ (n k : ℕ) :
    trace n (k + 1) = ⟨.ofInt ((5 ^ (2 * k + 1) : ℕ) * 25),
      .ofInt ((239 ^ (2 * k + 1) : ℕ) * 57121), .ofInt ((2 * k + 1 : ℕ) + 2),
      if (-1 : ℤ) ^ k = 1 then -1 else 1,
      ⟨sumTo n k + (-1) ^ k * (4 * (quotient 5 n k : ℤ) - quotient 239 n k), n⟩⟩ := by
  have h5 : 5 ^ (2 * (k + 1) + 1) = 5 ^ (2 * k + 1) * 25 := by ring
  have h239 : 239 ^ (2 * (k + 1) + 1) = 239 ^ (2 * k + 1) * 57121 := by ring
  have hflag : (-1 : ℤ) ^ (k + 1) = if (-1 : ℤ) ^ k = 1 then -1 else 1 := by
    rcases neg_one_pow_eq_or ℤ k with hk | hk <;> rw [pow_succ, hk] <;> rfl
  rw [trace, h5, h239, hflag, sumTo_succ, if_neg k.succ_ne_zero]
  push_cast
  ring_nf

theorem natAbs_neg_one_pow_mul (k : ℕ) (x : ℤ) : ((-1) ^ k * x).natAbs = x.natAbs := by
  rw [Int.natAbs_mul, Int.natAbs_pow, Int.natAbs_neg, Int.natAbs_one, one_pow, one_mul]

theorem yields_paiTurn (hn : 0 < n) (hlt : n < 2 ^ 31) :
    Yields (paiTurn R n (trace n k)) (∀ m ∈ needed n k, R.holds m) (trace n (k + 1)) := by
  have hscale : (if k = 0 then 0 else n) = n ∨
      sumTo n k = 0 ∧ (if k = 0 then 0 else n) ≤ n := by
    by_cases hk : k = 0
    · exact .inr (by simp [hk, sumTo])
    · exact .inl (if_neg hk)
  have hr1 := yields_reciprocal (R := R) (k := k) (x := 5) (by norm_num) hn hlt
  have hr2 := yields_reciprocal (R := R) (k := k) (x := 239) (by norm_num) hn hlt
  have hterm := yields_signedTerm (R := R) (k := k) (quotient 5 n k) (quotient 239 n k) hlt
  have hresult := BigDecimal.yields_add (R := R) (sumTo n k)
    ((-1) ^ k * (4 * (quotient 5 n k : ℤ) - quotient 239 n k)) hscale
  have hb := BigDecimal.yields_add (R := R) (2 * k + 1 : ℕ) 2 (s := 0) (.inl rfl)
  have hfz1 := BigDecimal.yields_multiply_ofInt (R := R) (5 ^ (2 * k + 1) : ℕ) 25
  have hfz2 := BigDecimal.yields_multiply_ofInt (R := R) (239 ^ (2 * k + 1) : ℕ) 57121
  rw [trace_succ]
  refine (hr1.bind (hr2.bind (hterm.bind (hresult.bind (hb.bind (hfz1.bind
    hfz2.bind_pure)))))).congr ?_
  have hnextB : (((2 * k + 1 : ℕ) : ℤ) + 2).natAbs = 2 * k + 3 := by omega
  rw [natAbs_neg_one_pow_mul, ← sumTo_succ, hnextB]
  simp only [needed, List.forall_mem_cons, Int.natAbs_mul, Int.natAbs_natCast]
  tauto

/-! ### The largest magnitude -/

theorem mul_quotient_le (x n k : ℕ) : x * quotient x n k ≤ 10 ^ n := by
  have hx : x ≤ x ^ (2 * k + 1) * (2 * k + 1) := by
    calc x ≤ x ^ (2 * k + 1) := Nat.le_self_pow (by omega) x
      _ ≤ x ^ (2 * k + 1) * (2 * k + 1) := Nat.le_mul_of_pos_right _ (by omega)
  calc x * quotient x n k ≤ x ^ (2 * k + 1) * (2 * k + 1) * quotient x n k :=
        Nat.mul_le_mul_right _ hx
    _ ≤ 10 ^ n := Nat.mul_div_le _ _

theorem natAbs_term_le (n k : ℕ) :
    (4 * (quotient 5 n k : ℤ) - quotient 239 n k).natAbs ≤ 10 ^ n := by
  have h5 := mul_quotient_le 5 n k
  have h239 := mul_quotient_le 239 n k
  omega

theorem natAbs_sumTo_le (n k : ℕ) : (sumTo n k).natAbs ≤ k * 10 ^ n := by
  induction k with
  | zero => simp [sumTo]
  | succ k ih =>
    have hterm := natAbs_term_le n k
    have hadd := Int.natAbs_add_le (sumTo n k)
      ((-1) ^ k * (4 * (quotient 5 n k : ℤ) - quotient 239 n k))
    rw [natAbs_neg_one_pow_mul] at hadd
    rw [sumTo_succ, Nat.succ_mul]
    omega

theorem ten_pow_le (hn : 2 ≤ n) : 10 ^ n ≤ 239 ^ (2 * n - 3) := by
  obtain ⟨j, rfl⟩ := Nat.exists_eq_add_of_le hn
  have hexp : 2 * (2 + j) - 3 = 2 * j + 1 := by omega
  calc 10 ^ (2 + j) = 100 * 10 ^ j := by ring
    _ ≤ 239 * 57121 ^ j := Nat.mul_le_mul (by norm_num) (Nat.pow_le_pow_left (by norm_num) j)
    _ = 239 ^ (2 * (2 + j) - 3) := by
        rw [hexp, pow_succ, pow_mul, Nat.mul_comm]
        rfl

theorem le_largest_of_turn (hk : k + 2 ≤ n) {m : ℕ}
    (hm : m ≤ 239 ^ (2 * k + 1) * (2 * k + 1)) : m ≤ largest n := by
  refine hm.trans (le_max_of_le_right ?_)
  exact Nat.mul_le_mul (Nat.pow_le_pow_right (by norm_num) (by omega)) (by omega)

theorem le_largest_of_power (hk : k + 2 ≤ n) {m : ℕ} (hm : m ≤ 239 ^ (2 * k + 3)) :
    m ≤ largest n :=
  (hm.trans (Nat.pow_le_pow_right (by norm_num) (by omega))).trans (le_max_left _ _)

theorem le_largest_of_sum (hk : k + 2 ≤ n) {m : ℕ} (hm : m ≤ (k + 1) * 10 ^ n) : m ≤ largest n := by
  refine hm.trans (le_max_of_le_right ?_)
  rw [Nat.mul_comm]
  exact Nat.mul_le_mul (ten_pow_le (by omega)) (by omega)

theorem needed_le (hk : k + 2 ≤ n) : ∀ m ∈ needed n k, m ≤ largest n := by
  have h5 := mul_quotient_le 5 n k
  have h239 := mul_quotient_le 239 n k
  have hten : 10 ^ n ≤ (k + 1) * 10 ^ n := Nat.le_mul_of_pos_left _ k.succ_pos
  have hsmall : 2 * k + 3 < 239 ^ (2 * k + 3) := Nat.lt_pow_self (by norm_num)
  have hpow5 : 5 ^ (2 * k + 1) ≤ 239 ^ (2 * k + 1) := Nat.pow_le_pow_left (by norm_num) _
  have hpow239 : 239 ^ (2 * k + 3) = 239 ^ (2 * k + 1) * 57121 := by ring
  simp only [needed, List.forall_mem_cons]
  refine ⟨le_largest_of_turn hk (Nat.mul_le_mul_right _ hpow5), le_largest_of_sum hk hten,
    le_largest_of_turn hk le_rfl, le_largest_of_sum hk (by omega), le_largest_of_sum hk (by omega),
    le_largest_of_sum hk ((natAbs_term_le n k).trans hten), le_largest_of_sum hk ?_,
    le_largest_of_sum hk (natAbs_sumTo_le n (k + 1)), le_largest_of_power hk (by omega),
    le_largest_of_power hk (by omega), le_largest_of_power hk hsmall.le,
    le_largest_of_power hk (by omega), le_largest_of_power hk hpow239.ge, List.forall_mem_nil _⟩
  exact (natAbs_sumTo_le n k).trans (Nat.mul_le_mul_right _ k.le_succ)

theorem needed_iff_holds_largest (hn : 2 ≤ n) :
    (∀ k < n - 1, ∀ m ∈ needed n k, R.holds m) ↔ R.holds (largest n) := by
  constructor
  · intro h
    -- the last turn multiplies both
    have hlast := h (n - 2) (by omega)
    simp only [needed, List.forall_mem_cons] at hlast
    obtain ⟨-, -, hdivisor, -, -, -, -, -, -, -, -, -, hpower, -⟩ := hlast
    obtain ⟨j, rfl⟩ := Nat.exists_eq_add_of_le hn
    have hexp : 2 * (2 + j) - 3 = 2 * j + 1 := by omega
    have hexp' : 2 * (2 + j) - 1 = 2 * j + 3 := by omega
    have hpow239 : 239 ^ (2 * j + 3) = 239 ^ (2 * j + 1) * 57121 := by ring
    rw [Nat.add_sub_cancel_left] at hdivisor hpower
    rw [largest, hexp, hexp', hpow239]
    rcases max_choice (239 ^ (2 * j + 1) * 57121) (239 ^ (2 * j + 1) * (2 * j + 1)) with hmax | hmax
    · rwa [hmax]
    · rwa [hmax]
  · intro h k hk m hm
    exact R.downward m (largest n) (needed_le (by omega) m hm) h

theorem yields_paiResult (hn : 2 ≤ n) (hlt : n < 2 ^ 31) :
    Yields (paiResult R n) (R.holds (largest n)) ⟨sumTo n (n - 1), n⟩ := by
  have hturns : ((n : ℤ) - 1).toNat = n - 1 := by omega
  have hloop : Yields (CountedLoop.loopM (n - 1) (fun _ => paiTurn R n) (trace n 0))
      (∀ k < n - 1, ∀ m ∈ needed n k, R.holds m) (trace n (n - 1)) :=
    Yields.loopM (trace n) _ fun _ => yields_paiTurn (by omega) hlt
  have hlast : (trace n (n - 1)).result = ⟨sumTo n (n - 1), n⟩ := by
    rw [trace, if_neg (by omega)]
  have hresult := (hloop.congr (needed_iff_holds_largest hn)).bind_pure (g := PaiVars.result)
  rw [hlast] at hresult
  rw [paiResult, hturns, Int.toNat_natCast]
  exact hresult

theorem yields_getPaiN {digitNum : BitVec 64} (hlow : 2 ≤ digitNum.toNat)
    (hhigh : digitNum.toNat < 2 ^ 31) :
    Yields (getPaiN R digitNum) (R.holds (largest digitNum.toNat))
      ⟨sumTo digitNum.toNat (digitNum.toNat - 1), digitNum.toNat⟩ := by
  have hcast : (digitNum.setWidth 32).toInt = digitNum.toNat := by
    rw [BitVec.toInt_eq_toNat_of_lt, BitVec.toNat_setWidth]
    · omega
    · rw [BitVec.toNat_setWidth]
      omega
  rw [getPaiN, hcast]
  exact yields_paiResult hlow hhigh

/-! ### Accuracy -/

noncomputable def value (x : BigDecimal) : ℝ := x.unscaledVal / 10 ^ x.scale

theorem term_eq_inv (x k : ℕ) :
    ArctanSeries.term x k = ((x ^ (2 * k + 1) * (2 * k + 1) : ℕ) : ℝ)⁻¹ := by
  rw [ArctanSeries.term]
  push_cast
  rw [mul_comm]

/-- `ROUND_DOWN` loses less than one in the last decimal. -/
theorem abs_term_sub_quotient_le {x : ℕ} (hx : 0 < x) (n k : ℕ) :
    |ArctanSeries.term x k - quotient x n k / 10 ^ n| ≤ (10 ^ n)⁻¹ := by
  have hdivisor : 0 < x ^ (2 * k + 1) * (2 * k + 1) := by positivity
  rw [term_eq_inv, quotient]
  generalize x ^ (2 * k + 1) * (2 * k + 1) = d at hdivisor
  have hd : (0 : ℝ) < d := by exact_mod_cast hdivisor
  have hle : ((10 ^ n / d : ℕ) : ℝ) * d ≤ 10 ^ n := by exact_mod_cast Nat.div_mul_le_self _ _
  have hlt : (10 : ℝ) ^ n < d * ((10 ^ n / d : ℕ) + 1) := by
    exact_mod_cast Nat.lt_mul_div_succ _ hdivisor
  have hlower : ((10 ^ n / d : ℕ) : ℝ) / 10 ^ n ≤ (d : ℝ)⁻¹ := by
    rw [div_le_iff₀ (by positivity), inv_mul_eq_div, le_div_iff₀ hd]
    exact hle
  have hupper : (d : ℝ)⁻¹ ≤ ((10 ^ n / d : ℕ) : ℝ) / 10 ^ n + (10 ^ n)⁻¹ := by
    rw [← one_div, ← one_div, ← add_div, div_le_div_iff₀ hd (by positivity), one_mul, mul_comm]
    exact hlt.le
  have hpos : (0 : ℝ) < (10 ^ n)⁻¹ := by positivity
  rw [abs_le]
  constructor <;> linarith

/-- The first term left out is below the last decimal. -/
theorem term_le {x : ℕ} (hx : 5 ≤ x) (hn : 2 ≤ n) :
    ArctanSeries.term x (n - 1) ≤ (10 ^ n)⁻¹ := by
  obtain ⟨j, rfl⟩ := Nat.exists_eq_add_of_le hn
  have hexp : 2 * (2 + j - 1) + 1 = 2 * j + 3 := by omega
  have hten : 10 ^ (2 + j) ≤ x ^ (2 * j + 3) * (2 * j + 3) := by
    calc 10 ^ (2 + j) = 100 * 10 ^ j := by ring
      _ ≤ 125 * 25 ^ j := Nat.mul_le_mul (by norm_num) (Nat.pow_le_pow_left (by norm_num) j)
      _ = 5 ^ (2 * j + 3) := by
          rw [pow_add, pow_mul, Nat.mul_comm]
          rfl
      _ ≤ x ^ (2 * j + 3) := Nat.pow_le_pow_left hx _
      _ ≤ x ^ (2 * j + 3) * (2 * j + 3) := Nat.le_mul_of_pos_right _ (by omega)
  rw [term_eq_inv, hexp]
  apply inv_anti₀ (by positivity)
  exact_mod_cast hten

theorem value_sumTo (n m : ℕ) :
    value ⟨sumTo n m, n⟩ = ∑ k ∈ range m,
      (-1) ^ k * (4 * ((quotient 5 n k : ℝ) / 10 ^ n) - (quotient 239 n k : ℝ) / 10 ^ n) := by
  rw [value, sumTo]
  push_cast
  rw [sum_div]
  exact sum_congr rfl fun k _ => by ring

theorem abs_sumTo_sub_pi_le (hn : 2 ≤ n) :
    |4 * value ⟨sumTo n (n - 1), n⟩ - Real.pi| ≤ 20 * n / 10 ^ n := by
  have hmachin := ArctanSeries.abs_machin_sub_pi_le (n := n - 1)
    (fun k _ => abs_term_sub_quotient_le (x := 5) (by norm_num) n k)
    (fun k _ => abs_term_sub_quotient_le (x := 239) (by norm_num) n k)
    (term_le (x := 5) le_rfl hn) (term_le (x := 239) (by norm_num) hn)
  have hcount : ((n - 1 : ℕ) : ℝ) = n - 1 := by
    rw [Nat.cast_sub (by omega), Nat.cast_one]
  rw [value_sumTo]
  calc _ ≤ 20 * (((n - 1 : ℕ) : ℝ) * (10 ^ n)⁻¹ + (10 ^ n)⁻¹) := hmachin
    _ = 20 * n / 10 ^ n := by
        rw [hcount]
        ring

theorem holds_largest_of_lt (hlow : 2 ≤ n) (hn : n < 2 ^ 27) : R.holds (largest n) = true := by
  have hpow (e : ℕ) : 239 ^ e ≤ 2 ^ (8 * e) := by
    rw [pow_mul]
    exact Nat.pow_le_pow_left (by norm_num) e
  have hpower : 239 ^ (2 * n - 1) ≤ 2 ^ (16 * n + 4) :=
    (hpow _).trans (Nat.pow_le_pow_right (by norm_num) (by omega))
  have hdivisor : 239 ^ (2 * n - 3) * (2 * n - 3) ≤ 2 ^ (16 * n + 4) := by
    calc 239 ^ (2 * n - 3) * (2 * n - 3)
        ≤ 2 ^ (8 * (2 * n - 3)) * 2 ^ 28 := Nat.mul_le_mul (hpow _) (by omega)
      _ = 2 ^ (16 * n + 4) := by
          rw [← pow_add]
          congr 1
          omega
  exact R.holds_of_le_two_pow (max_le hpower hdivisor) (by omega)

/-- Where the largest magnitude is held the result is right up to `20 n` in the last decimal;
where it is not the call throws. Below `2 ^ 27` digits every platform holds it. -/
theorem getPaiN_accuracy (R : BigIntegerRange) (digitNum : BitVec 64)
    (hlow : 2 ≤ digitNum.toNat) (hhigh : digitNum.toNat < 2 ^ 31) :
    (if R.holds (largest digitNum.toNat) then
      ∃ result, getPaiN R digitNum = .ok result ∧
        |4 * value result - Real.pi| ≤ 20 * digitNum.toNat / 10 ^ digitNum.toNat
    else getPaiN R digitNum = .error .overflow) ∧
      (digitNum.toNat < 2 ^ 27 → R.holds (largest digitNum.toNat)) := by
  have hyields := yields_getPaiN (R := R) hlow hhigh
  refine ⟨?_, holds_largest_of_lt hlow⟩
  split
  case isTrue h => exact ⟨_, hyields.1 h, abs_sumTo_sub_pi_le hlow⟩
  case isFalse h => exact hyields.2 h

/-- Twenty decimals, for which the loop takes 19 turns. -/
theorem getPaiN_accuracy_twenty :
    ∃ result, getPaiN .reference 20#64 = .ok result ∧
      |4 * value result - Real.pi| ≤ 20 * (20#64).toNat / 10 ^ (20#64).toNat := by
  obtain ⟨haccuracy, hholds⟩ :=
    getPaiN_accuracy .reference 20#64 (by norm_num) (by norm_num)
  rwa [if_pos (hholds (by norm_num))] at haccuracy

/-! ### How far the promised range goes -/

theorem le_log2_largest (hn : 2 ≤ n) : 7 * (2 * n - 3) ≤ (largest n).log2 := by
  have hle : 2 ^ (7 * (2 * n - 3)) ≤ largest n := by
    refine le_max_of_le_right ?_
    calc 2 ^ (7 * (2 * n - 3)) = 128 ^ (2 * n - 3) := pow_mul 2 7 _
      _ ≤ 239 ^ (2 * n - 3) := Nat.pow_le_pow_left (by norm_num) _
      _ ≤ 239 ^ (2 * n - 3) * (2 * n - 3) := Nat.le_mul_of_pos_right _ (by omega)
  have hpos : largest n ≠ 0 := by
    have := Nat.two_pow_pos (7 * (2 * n - 3))
    omega
  exact (Nat.le_log2 hpos).mpr hle

theorem not_holds_largest (hn : 2 ^ 28 ≤ n) : ¬ BigIntegerRange.reference.holds (largest n) := by
  intro h
  have hlt : (largest n).log2 < 2 ^ 31 - 1 := of_decide_eq_true h
  have hle := le_log2_largest (n := n) (by omega)
  omega

/-- On a platform that holds nothing beyond the promised range there is no result for `2 ^ 28`
digits. -/
theorem getPaiN_overflow :
    getPaiN .reference 0x10000000#64 = .error .overflow ∧
      ¬ ∃ result, getPaiN .reference 0x10000000#64 = .ok result ∧
        |4 * value result - Real.pi| ≤
          20 * (0x10000000#64).toNat / 10 ^ (0x10000000#64).toNat := by
  have hlow : 2 ≤ (0x10000000#64).toNat := by decide
  have hhigh : (0x10000000#64).toNat < 2 ^ 31 := by decide
  have herror := (yields_getPaiN (R := .reference) hlow hhigh).2 (not_holds_largest (by norm_num))
  refine ⟨herror, ?_⟩
  rintro ⟨result, hresult, -⟩
  rw [herror] at hresult
  cases hresult

theorem holds_four_mul_sumTo (hn : n < 2 ^ 27) :
    R.holds (sumTo n (n - 1) * 4).natAbs = true := by
  have hle : (sumTo n (n - 1) * 4).natAbs ≤ 2 ^ (4 * n + 29) := by
    calc (sumTo n (n - 1) * 4).natAbs = (sumTo n (n - 1)).natAbs * 4 := Int.natAbs_mul _ _
      _ ≤ (n - 1) * 10 ^ n * 4 := Nat.mul_le_mul_right 4 (natAbs_sumTo_le n (n - 1))
      _ ≤ 2 ^ 27 * 16 ^ n * 4 := by
          gcongr
          · omega
          · decide
      _ = 2 ^ (4 * n + 29) := by
          rw [show (16 : ℕ) = 2 ^ 4 from rfl, ← pow_mul, pow_add]
          ring
  exact R.holds_of_le_two_pow hle (by omega)

theorem value_mul_four (u : ℤ) (s : ℕ) : value ⟨u * 4, s⟩ = 4 * value ⟨u, s⟩ := by
  rw [value, value]
  push_cast
  ring

theorem paiResult_multiply_accuracy (R : BigIntegerRange) (hlow : 2 ≤ n) (hn : n < 2 ^ 27) :
    ∃ r, (paiResult R n >>= fun result => result.multiply R (.ofInt 4)) = .ok r ∧
      |value r - Real.pi| ≤ 20 * n / 10 ^ n := by
  have hresult := (yields_paiResult (R := R) hlow (by omega)).bind
    (f := fun result => result.multiply R (.ofInt 4))
    (BigDecimal.yields_multiply _ 4 (s := n) (t := 0) (by omega))
  refine ⟨_, hresult.1 ⟨holds_largest_of_lt hlow hn, holds_four_mul_sumTo hn⟩, ?_⟩
  rw [Nat.add_zero, value_mul_four]
  exact abs_sumTo_sub_pi_le hlow

/-- The number printed; 10000 digits stay within the range of every platform. -/
theorem getPai_accuracy (R : BigIntegerRange) :
    ∃ r, getPai R = .ok r ∧ |value r - Real.pi| ≤ 20 * (10000 : ℕ) / 10 ^ 10000 :=
  paiResult_multiply_accuracy R (by norm_num) (by norm_num)

end Hatch.CpuTest
