import Mathlib.Algebra.Group.Int.Defs
import Mathlib.Algebra.GroupWithZero.Nat
import Mathlib.Data.Nat.Log
import Hatch.CountedLoop

/-!
# `java.math.BigDecimal`

A decimal is an unscaled `BigInteger` and a scale, an `int`; here no scale is negative. Java
promises a `BigInteger` for every magnitude below `2 ^ Integer.MAX_VALUE` and leaves it to the
platform whether larger ones are held or refused with an `ArithmeticException`. Each operation
comes with the magnitudes it needs: it yields its result if they are held, and throws if not.
-/

namespace Hatch.Java

structure BigIntegerRange where
  holds : ℕ → Bool
  promised : ∀ m, m.log2 < 2 ^ 31 - 1 → holds m = true
  downward : ∀ m m', m ≤ m' → holds m' = true → holds m = true

/-- The promised magnitudes and no others. -/
def BigIntegerRange.reference : BigIntegerRange where
  holds m := decide (m.log2 < 2 ^ 31 - 1)
  promised m h := decide_eq_true h
  downward m m' hle h := by
    have hlog : m.log2 ≤ m'.log2 := by
      rw [Nat.log2_eq_log_two, Nat.log2_eq_log_two]
      exact Nat.log_mono_right hle
    exact decide_eq_true (hlog.trans_lt (of_decide_eq_true h))

theorem BigIntegerRange.holds_of_le_two_pow (R : BigIntegerRange) {m e : ℕ} (h : m ≤ 2 ^ e)
    (he : e < 2 ^ 31 - 1) : R.holds m = true := by
  apply R.downward m (2 ^ e) h
  apply R.promised
  rwa [Nat.log2_two_pow]

inductive ArithmeticException
  | overflow
  | scaleOverflow
  | divisionByZero
  deriving DecidableEq, Repr

/-- The outcome of a computation that needs `p`: the value `a`, or an overflow. -/
def Yields {α : Type} (c : Except ArithmeticException α) (p : Prop) (a : α) : Prop :=
  (p → c = .ok a) ∧ (¬ p → c = .error .overflow)

namespace Yields

variable {α β : Type} {c : Except ArithmeticException α} {p q : Prop} {a : α}

theorem pure (a : α) : Yields (Pure.pure a) True a := ⟨fun _ => rfl, fun h => absurd trivial h⟩

theorem bind {f : α → Except ArithmeticException β} {b : β} (hc : Yields c p a)
    (hf : Yields (f a) q b) : Yields (c >>= f) (p ∧ q) b := by
  refine ⟨fun h => ?_, fun h => ?_⟩
  · rw [hc.1 h.1]
    exact hf.1 h.2
  · by_cases hp : p
    · rw [hc.1 hp]
      exact hf.2 fun hq => h ⟨hp, hq⟩
    · rw [hc.2 hp]
      rfl

theorem congr (hc : Yields c p a) (hpq : p ↔ q) : Yields c q a := by
  rwa [propext hpq] at hc

theorem bind_pure {g : α → β} (hc : Yields c p a) :
    Yields (c >>= fun x => Pure.pure (g x)) p (g a) :=
  (hc.bind (f := fun x => Pure.pure (g x)) (pure (g a))).congr (and_true p).to_iff

/-- A loop whose turns follow a trace needs what its turns need. -/
theorem loopM {σ : Type} {n : ℕ} {body : Fin n → σ → Except ArithmeticException σ}
    (trace : ℕ → σ) (needs : ℕ → Prop)
    (h : ∀ i : Fin n, Yields (body i (trace i)) (needs i) (trace (i + 1))) :
    Yields (CountedLoop.loopM n body (trace 0)) (∀ i < n, needs i) (trace n) := by
  induction n with
  | zero => exact (pure (trace 0)).congr (by simp)
  | succ n ih =>
    have hturns := (ih fun i => h i.castSucc).bind (h (Fin.last n))
    refine hturns.congr ?_
    rw [Nat.forall_lt_succ_right]
    rfl

end Yields

section Operations

variable (R : BigIntegerRange)

def BigIntegerRange.check (x : ℤ) : Except ArithmeticException ℤ :=
  if R.holds x.natAbs then .ok x else .error .overflow

theorem BigIntegerRange.yields_check (x : ℤ) : Yields (R.check x) (R.holds x.natAbs) x :=
  ⟨fun h => if_pos h, fun h => if_neg h⟩

def checkScale (s : ℕ) : Except ArithmeticException ℕ :=
  if s < 2 ^ 31 then .ok s else .error .scaleOverflow

structure BigDecimal where
  unscaledVal : ℤ
  scale : ℕ
  deriving DecidableEq, Repr

namespace BigDecimal

def ofInt (x : ℤ) : BigDecimal := ⟨x, 0⟩

def multiply (x y : BigDecimal) : Except ArithmeticException BigDecimal := do
  let scale ← checkScale (x.scale + y.scale)
  let product ← R.check (x.unscaledVal * y.unscaledVal)
  return ⟨product, scale⟩

/-- The unscaled value at a scale that is not smaller. -/
def bigMultiplyPowerTen (x : BigDecimal) (scale : ℕ) : Except ArithmeticException ℤ :=
  R.check (x.unscaledVal * 10 ^ (scale - x.scale))

def add (x y : BigDecimal) : Except ArithmeticException BigDecimal := do
  let scale := max x.scale y.scale
  let u ← x.bigMultiplyPowerTen R scale
  let v ← y.bigMultiplyPowerTen R scale
  let sum ← R.check (u + v)
  return ⟨sum, scale⟩

def negate (x : BigDecimal) : BigDecimal := ⟨-x.unscaledVal, x.scale⟩

def subtract (x y : BigDecimal) : Except ArithmeticException BigDecimal := x.add R y.negate

/-- `divide` with `ROUND_DOWN`: the dividend or the divisor is brought to the scale at which the
quotient of the integers has scale `scale`. -/
def divideDown (x y : BigDecimal) (scale : ℕ) : Except ArithmeticException BigDecimal := do
  let newScale ← checkScale (scale + y.scale)
  if y.unscaledVal = 0 then
    throw .divisionByZero
  else if x.scale < newScale then
    let u ← x.bigMultiplyPowerTen R newScale
    return ⟨u.tdiv y.unscaledVal, scale⟩
  else
    let v ← y.bigMultiplyPowerTen R (x.scale - scale)
    return ⟨x.unscaledVal.tdiv v, scale⟩

variable {R}

theorem yields_multiply (u v : ℤ) {s t : ℕ} (h : s + t < 2 ^ 31) :
    Yields (multiply R ⟨u, s⟩ ⟨v, t⟩) (R.holds (u * v).natAbs) ⟨u * v, s + t⟩ := by
  rw [multiply, checkScale, if_pos h]
  exact (R.yields_check (u * v)).bind_pure

theorem yields_multiply_ofInt (u v : ℤ) :
    Yields ((ofInt u).multiply R (ofInt v)) (R.holds (u * v).natAbs) (ofInt (u * v)) :=
  yields_multiply u v (by decide)

/-- Operands of one scale; a first operand zero may have a smaller one. -/
theorem yields_add (u v : ℤ) {s t : ℕ} (hst : s = t ∨ u = 0 ∧ s ≤ t) :
    Yields (add R ⟨u, s⟩ ⟨v, t⟩)
      (R.holds u.natAbs ∧ R.holds v.natAbs ∧ R.holds (u + v).natAbs) ⟨u + v, t⟩ := by
  have hmax : max s t = t := by omega
  have hu : u * 10 ^ (t - s) = u := by
    rcases hst with rfl | ⟨rfl, -⟩
    · simp
    · simp
  have hsteps := (R.yields_check u).bind
    (f := fun u => R.check v >>= fun v => R.check (u + v) >>= fun sum =>
      Pure.pure (⟨sum, t⟩ : BigDecimal))
    ((R.yields_check v).bind (R.yields_check _).bind_pure)
  have hadd : add R ⟨u, s⟩ ⟨v, t⟩ = R.check u >>= fun u => R.check v >>= fun v =>
      R.check (u + v) >>= fun sum => Pure.pure (⟨sum, t⟩ : BigDecimal) := by
    simp only [add, bigMultiplyPowerTen, hmax, hu, Nat.sub_self, Int.pow_zero, Int.mul_one]
  rw [hadd]
  exact hsteps

theorem yields_subtract (u v : ℤ) (s : ℕ) :
    Yields (subtract R ⟨u, s⟩ ⟨v, s⟩)
      (R.holds u.natAbs ∧ R.holds v.natAbs ∧ R.holds (u - v).natAbs) ⟨u - v, s⟩ := by
  have hadd := yields_add (R := R) u (-v) (.inl (rfl : s = s))
  rwa [Int.natAbs_neg, ← Int.sub_eq_add_neg] at hadd

theorem yields_divideDown {x d : ℤ} (hd : d ≠ 0) {scale : ℕ} (hscale : 0 < scale)
    (hlt : scale < 2 ^ 31) :
    Yields ((ofInt x).divideDown R (ofInt d) scale) (R.holds (x * 10 ^ scale).natAbs)
      ⟨(x * 10 ^ scale).tdiv d, scale⟩ := by
  have hdivide : (ofInt x).divideDown R (ofInt d) scale = R.check (x * 10 ^ scale) >>= fun u =>
      Pure.pure (⟨u.tdiv d, scale⟩ : BigDecimal) := by
    rw [divideDown]
    change (checkScale scale >>= _) = _
    rw [checkScale, if_pos hlt]
    change (if d = 0 then _ else if 0 < scale then _ else _) = _
    rw [if_neg hd, if_pos hscale]
    rfl
  rw [hdivide]
  exact (R.yields_check _).bind_pure

end BigDecimal

end Operations

end Hatch.Java
