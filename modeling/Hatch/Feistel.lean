import Mathlib.Data.Nat.Notation
import Mathlib.Data.Prod.Basic

/-!
# Rounds that run backwards

A cipher made of keyed rounds, followed by a rearrangement of its state. When a round run
on the rearranged result of the same round gives back the rearranged input, the same
cipher with its keys in reverse order is the inverse. Two instances are given: the exchange
of two halves and the shift register of four words.
-/

namespace Feistel

variable {σ κ : Type*}

def rounds (step : κ → σ → σ) (ks : List κ) (s : σ) : σ := ks.foldl (fun s k => step k s) s

def crypt (step : κ → σ → σ) (flip : σ → σ) (ks : List κ) (s : σ) : σ := flip (rounds step ks s)

variable {step : κ → σ → σ} {flip : σ → σ}

theorem rounds_append (ks js : List κ) (s : σ) :
    rounds step (ks ++ js) s = rounds step js (rounds step ks s) := List.foldl_append

theorem rounds_take_succ (ks : List κ) {n : ℕ} (h : n < ks.length) (s : σ) :
    rounds step (ks.take (n + 1)) s = step ks[n] (rounds step (ks.take n) s) := by
  rw [List.take_succ_eq_append_getElem h, rounds_append]
  rfl

/-- Maps of keys and states that every round respects are respected by the rounds together. -/
theorem rounds_map {c : κ → κ} {d : σ → σ} (h : ∀ k s, step (c k) (d s) = d (step k s))
    (ks : List κ) (s : σ) : rounds step (ks.map c) (d s) = d (rounds step ks s) := by
  induction ks generalizing s with
  | nil => rfl
  | cons k ks ih =>
      have hk : rounds step (k :: ks) s = rounds step ks (step k s) := rfl
      rw [hk, ← ih (step k s), ← h k s]
      rfl

/-- The rearrangement `flip` reverses the direction in which every round runs. -/
structure Reverses (step : κ → σ → σ) (flip : σ → σ) : Prop where
  involutive : Function.Involutive flip
  undo : ∀ k s, step k (flip (step k s)) = flip s

theorem Reverses.rounds_reverse (h : Reverses step flip) (ks : List κ) (s : σ) :
    rounds step ks.reverse (flip (rounds step ks s)) = flip s := by
  induction ks generalizing s with
  | nil => rfl
  | cons k ks ih =>
      have hk : rounds step (k :: ks) s = rounds step ks (step k s) := rfl
      rw [hk, List.reverse_cons, rounds_append, ih]
      exact h.undo k s

theorem Reverses.crypt_reverse (h : Reverses step flip) (ks : List κ) (s : σ) :
    crypt step flip ks.reverse (crypt step flip ks s) = s := by
  rw [crypt, crypt, h.rounds_reverse, h.involutive]

section Combine

variable {α : Type*} {combine : α → α → α} (cancel : ∀ a b, combine (combine a b) b = a)

/-- The halves change places, and the old left half is combined with a function of the
right one. -/
def exchange (combine : α → α → α) (f : κ → α → α) (k : κ) (s : α × α) : α × α :=
  (s.2, combine s.1 (f k s.2))

include cancel in
theorem reverses_exchange (f : κ → α → α) :
    Reverses (exchange combine f) Prod.swap where
  involutive s := Prod.swap_swap s
  undo k s := by
    change (s.2, combine (combine s.1 (f k s.2)) (f k s.2)) = (s.2, s.1)
    rw [cancel]

/-- Four words move one place, and the word leaving at the front comes back at the end,
combined with a function of the other three. -/
def shift (combine : α → α → α) (f : κ → α → α → α → α) (k : κ) (s : α × α × α × α) :
    α × α × α × α :=
  (s.2.1, s.2.2.1, s.2.2.2, combine s.1 (f k s.2.1 s.2.2.1 s.2.2.2))

def turn (s : α × α × α × α) : α × α × α × α := (s.2.2.2, s.2.2.1, s.2.1, s.1)

include cancel in
theorem reverses_shift {f : κ → α → α → α → α} (symm : ∀ k a b c, f k c b a = f k a b c) :
    Reverses (shift combine f) turn where
  involutive _ := rfl
  undo k s := by
    obtain ⟨a, b, c, d⟩ := s
    change (d, c, b, combine (combine a (f k b c d)) (f k d c b)) = (d, c, b, a)
    rw [symm, cancel]

end Combine

end Feistel
