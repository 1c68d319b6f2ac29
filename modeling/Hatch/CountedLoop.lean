import Mathlib.Data.Nat.Notation

/-!
# Counted loops

`loop n body` is `for (i = 0; i < n; i++) body` on an explicit state, and `loopM` the same
for a body that may stop. Both are settled by a trace: a sequence of states of which each
is taken to the next by the body. `countdownM` counts the other way and is settled by an
invariant.
-/

namespace CountedLoop

variable {σ : Type*}

def loop : (n : ℕ) → (Fin n → σ → σ) → σ → σ
  | 0, _, s => s
  | n + 1, body, s => body (Fin.last n) (loop n (fun i => body i.castSucc) s)

theorem loop_eq_trace {n : ℕ} {body : Fin n → σ → σ} (trace : ℕ → σ)
    (h : ∀ i : Fin n, body i (trace i) = trace (i + 1)) : loop n body (trace 0) = trace n := by
  induction n with
  | zero => rfl
  | succ n ih =>
      rw [loop, ih fun i => h i.castSucc]
      exact h (Fin.last n)

/-- Two loops whose bodies keep a relation that may depend on the count. -/
theorem loop_relates {τ : Type*} {n : ℕ} {body : Fin n → σ → σ} {body' : Fin n → τ → τ}
    (R : ℕ → σ → τ → Prop) (h : ∀ (i : Fin n) s t, R i s t → R (i + 1) (body i s) (body' i t))
    {s : σ} {t : τ} (h0 : R 0 s t) : R n (loop n body s) (loop n body' t) := by
  induction n with
  | zero => exact h0
  | succ n ih => exact h (Fin.last n) _ _ (ih fun i => h i.castSucc)

def loopM {m : Type _ → Type _} [Monad m] : (n : ℕ) → (Fin n → σ → m σ) → σ → m σ
  | 0, _, s => pure s
  | n + 1, body, s => loopM n (fun i => body i.castSucc) s >>= body (Fin.last n)

theorem loopM_eq_trace {m : Type _ → Type _} [Monad m] [LawfulMonad m] {n : ℕ}
    {body : Fin n → σ → m σ} (trace : ℕ → σ)
    (h : ∀ i : Fin n, body i (trace i) = pure (trace (i + 1))) :
    loopM n body (trace 0) = pure (trace n) := by
  induction n with
  | zero => rfl
  | succ n ih =>
      rw [loopM, ih fun i => h i.castSucc, pure_bind]
      exact h (Fin.last n)

/-- `for (i = n - 1; i >= 0; i--) body`. -/
def countdownM {m : Type _ → Type _} [Monad m] : (n : ℕ) → (ℕ → σ → m σ) → σ → m σ
  | 0, _, s => pure s
  | n + 1, body, s => body n s >>= countdownM n body

theorem countdownM_invariant {m : Type _ → Type _} [Monad m] [LawfulMonad m] {n : ℕ}
    {body : ℕ → σ → m σ} (P : ℕ → σ → Prop)
    (h : ∀ i s, i < n → P (i + 1) s → ∃ s', body i s = pure s' ∧ P i s') {s : σ} (hs : P n s) :
    ∃ s', countdownM n body s = pure s' ∧ P 0 s' := by
  induction n generalizing s with
  | zero => exact ⟨s, rfl, hs⟩
  | succ n ih =>
      obtain ⟨s₁, hbody, hs₁⟩ := h n s n.lt_succ_self hs
      obtain ⟨s', hrun, hs'⟩ := ih (fun i s hi => h i s (Nat.lt_trans hi n.lt_succ_self)) hs₁
      exact ⟨s', by rw [countdownM, hbody, pure_bind, hrun], hs'⟩

end CountedLoop
