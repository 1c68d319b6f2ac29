import Mathlib.Algebra.Group.Int.Defs
import Mathlib.Algebra.GroupWithZero.Nat
import Mathlib.Logic.Function.Basic

/-!
# Arrays and integers of C

An array is a function from its indices, of which only those below its size may be used. Results
of `int` arithmetic are checked, those that are indices as natural numbers. A program stops at the
first fault.
-/

namespace CMachine

inductive Fault where
  | outOfBounds
  | overflow
  | noFuel
  deriving DecidableEq, Repr

variable {α β : Type} {size i n : ℕ} {a : ℕ → α} {x : α}

def get (size : ℕ) (a : ℕ → α) (i : ℕ) : Except Fault α :=
  if i < size then .ok (a i) else .error .outOfBounds

def set (size : ℕ) (a : ℕ → α) (i : ℕ) (x : α) : Except Fault (ℕ → α) :=
  if i < size then .ok (Function.update a i x) else .error .outOfBounds

def index (n : ℕ) : Except Fault ℕ := if n < 2 ^ 31 then .ok n else .error .overflow

def int (x : ℤ) : Except Fault ℤ :=
  if -2 ^ 31 ≤ x ∧ x < 2 ^ 31 then .ok x else .error .overflow

theorem get_of_lt (h : i < size) : get size a i = .ok (a i) := if_pos h

theorem set_of_lt (h : i < size) : set size a i x = .ok (Function.update a i x) := if_pos h

theorem index_of_lt (h : n < 2 ^ 31) : index n = .ok n := if_pos h

theorem index_of_le (h : 2 ^ 31 ≤ n) : index n = .error .overflow := if_neg (Nat.not_lt.mpr h)

theorem ok_bind (a : α) (f : α → Except Fault β) : (Except.ok a >>= f) = f a := rfl

end CMachine
