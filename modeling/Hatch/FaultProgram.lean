import Mathlib.Logic.Basic

/-!
# Stateful programs that may fault

`Prog σ ε α` runs on a state and either returns a value with a new state or stops
with a fault. `wp` is its weakest precondition with one postcondition for normal
returns and one proposition for faults, so the same rules give total and partial
correctness; each construct has an equation, and a program is executed by rewriting.
-/

namespace FaultProgram

def Prog (σ ε α : Type) : Type := σ → Except ε (α × σ)

variable {σ ε α β γ : Type}

/-- A sequence of steps that ends well has had a first step that ended well. -/
theorem bind_eq_ok {x : Except ε α} {f : α → Except ε β} {b : β} (h : x >>= f = .ok b) :
    ∃ a, x = .ok a ∧ f a = .ok b := by
  cases x with
  | error e => cases h
  | ok a => exact ⟨a, rfl, h⟩

instance : Monad (Prog σ ε) where
  pure a := fun s => .ok (a, s)
  bind p f := fun s => match p s with
    | .ok (a, t) => f a t
    | .error e => .error e

namespace Prog

def get : Prog σ ε σ := fun s => .ok (s, s)

def modify (f : σ → σ) : Prog σ ε Unit := fun s => .ok ((), f s)

def fault (e : ε) : Prog σ ε α := fun _ => .error e

def require (c : Prop) [Decidable c] (e : ε) : Prog σ ε Unit :=
  if c then pure () else fault e

@[simp] theorem pure_apply (a : α) (s : σ) : (pure a : Prog σ ε α) s = .ok (a, s) := rfl

@[simp] theorem get_apply (s : σ) : (get : Prog σ ε σ) s = .ok (s, s) := rfl

@[simp] theorem modify_apply (f : σ → σ) (s : σ) :
    (modify f : Prog σ ε Unit) s = .ok ((), f s) := rfl

@[simp] theorem fault_apply (e : ε) (s : σ) : (fault e : Prog σ ε α) s = .error e := rfl

theorem bind_apply (p : Prog σ ε α) (f : α → Prog σ ε β) (s : σ) :
    (p >>= f) s = match p s with
      | .ok (a, t) => f a t
      | .error e => .error e := rfl

/-- Postcondition `Q` on every normal return and `E` on every fault: `E := False`
asks that the program returns, `E := True` only constrains it if it does. -/
def wp (p : Prog σ ε α) (E : Prop) (Q : α → σ → Prop) (s : σ) : Prop :=
  match p s with
  | .ok (a, t) => Q a t
  | .error _ => E

variable {E : Prop} {s t : σ}

@[simp] theorem wp_pure (a : α) (Q : α → σ → Prop) :
    wp (pure a : Prog σ ε α) E Q s ↔ Q a s := Iff.rfl

@[simp] theorem wp_get (Q : σ → σ → Prop) :
    wp (get : Prog σ ε σ) E Q s ↔ Q s s := Iff.rfl

@[simp] theorem wp_modify (f : σ → σ) (Q : Unit → σ → Prop) :
    wp (modify f : Prog σ ε Unit) E Q s ↔ Q () (f s) := Iff.rfl

@[simp] theorem wp_fault (e : ε) (Q : α → σ → Prop) :
    wp (fault e : Prog σ ε α) E Q s ↔ E := Iff.rfl

@[simp] theorem wp_bind (p : Prog σ ε α) (f : α → Prog σ ε β) (Q : β → σ → Prop) :
    wp (p >>= f) E Q s ↔ wp p E (fun a t => wp (f a) E Q t) s := by
  unfold wp
  rw [bind_apply]
  cases hp : p s with
  | error e => rfl
  | ok r => rfl

@[simp] theorem wp_ite (c : Prop) [Decidable c] (p q : Prog σ ε α) (Q : α → σ → Prop) :
    wp (if c then p else q) E Q s ↔ if c then wp p E Q s else wp q E Q s := by
  split <;> rfl

@[simp] theorem wp_require (c : Prop) [Decidable c] (e : ε) (Q : Unit → σ → Prop) :
    wp (require c e : Prog σ ε Unit) E Q s ↔ if c then Q () s else E := by
  rw [require, wp_ite, wp_pure, wp_fault]

theorem wp_of_run {p : Prog σ ε α} {a : α} (h : p s = .ok (a, t)) (Q : α → σ → Prop) :
    wp p E Q s ↔ Q a t := by
  unfold wp
  rw [h]

theorem wp_of_run_ite {p : Prog σ ε α} {c : Prop} [Decidable c] {a : α} {e : ε}
    (h : p s = if c then .ok (a, t) else .error e) (Q : α → σ → Prop) :
    wp p E Q s ↔ if c then Q a t else E := by
  by_cases hc : c
  · rw [if_pos hc] at h ⊢
    exact wp_of_run h Q
  · rw [if_neg hc] at h ⊢
    unfold wp
    rw [h]

theorem wp_mono {p : Prog σ ε α} {Q Q' : α → σ → Prop} (hQ : ∀ a t, Q a t → Q' a t)
    (h : wp p E Q s) : wp p E Q' s := by
  unfold wp at h ⊢
  cases hp : p s with
  | error e => simpa only [hp] using h
  | ok r => exact hQ r.1 r.2 (by simpa only [hp] using h)

theorem wp_true_of_run {p : Prog σ ε α} {a : α} {Q : α → σ → Prop} (hr : p s = .ok (a, t))
    (h : wp p True Q s) : Q a t := (wp_of_run hr Q).mp h

theorem run_of_wp_false {p : Prog σ ε α} {Q : α → σ → Prop} (h : wp p False Q s) :
    ∃ a t, p s = .ok (a, t) ∧ Q a t := by
  unfold wp at h
  cases hp : p s with
  | error e => simp only [hp] at h
  | ok r => exact ⟨r.1, r.2, rfl, by simpa only [hp] using h⟩

/-- The program returns with `Q` just if it returns and `c` holds, where `Q` comes to `c` on every
return. -/
theorem exists_run_and_iff {p : Prog σ ε α} {Q : α → σ → Prop} {r c : Prop}
    (hr : wp p False (fun _ _ => True) s ↔ r) (hQ : ∀ a t, p s = .ok (a, t) → (Q a t ↔ c)) :
    (∃ a t, p s = .ok (a, t) ∧ Q a t) ↔ r ∧ c := by
  constructor
  · rintro ⟨a, t, hp, hq⟩
    exact ⟨hr.mp ((wp_of_run hp _).mpr trivial), (hQ a t hp).mp hq⟩
  · rintro ⟨h, hc⟩
    obtain ⟨a, t, hp, -⟩ := run_of_wp_false (hr.mpr h)
    exact ⟨a, t, hp, (hQ a t hp).mpr hc⟩

/-- Started where `P` holds, the program does not stop with the fault `e`, and `Q` holds where
it returns; other faults may stop it. -/
def Avoids (e : ε) (P : σ → Prop) (p : Prog σ ε α) (Q : α → σ → Prop) : Prop :=
  ∀ s, P s → match p s with
    | .ok (a, t) => Q a t
    | .error e' => e' ≠ e

section Avoids

variable {e : ε} {P : σ → Prop} {Q : α → σ → Prop} {p : Prog σ ε α}

theorem Avoids.ne_error (h : Avoids e P p Q) (hs : P s) : p s ≠ .error e := by
  intro hp
  have hne := h s hs
  rw [hp] at hne
  exact hne rfl

theorem Avoids.pure {a : α} (h : ∀ s, P s → Q a s) : Avoids e P (pure a) Q := h

theorem Avoids.get {R : σ → σ → Prop} (h : ∀ s, P s → R s s) : Avoids e P get R := h

theorem Avoids.modify {f : σ → σ} {R : Unit → σ → Prop} (h : ∀ s, P s → R () (f s)) :
    Avoids e P (modify f) R := h

theorem Avoids.fault {e' : ε} (h : e' ≠ e) : Avoids e P (fault e' : Prog σ ε α) Q :=
  fun _ _ => h

theorem Avoids.bind {f : α → Prog σ ε β} {R : β → σ → Prop} (hp : Avoids e P p Q)
    (hf : ∀ a, Avoids e (Q a) (f a) R) : Avoids e P (p >>= f) R := by
  intro s hs
  have h := hp s hs
  rw [bind_apply]
  cases hrun : p s with
  | error e' =>
      rw [hrun] at h
      exact h
  | ok r =>
      rw [hrun] at h
      exact hf r.1 r.2 h

theorem Avoids.ite {c : Prop} [Decidable c] {q : Prog σ ε α} (hp : Avoids e P p Q)
    (hq : Avoids e P q Q) : Avoids e P (if c then p else q) Q := by
  split
  · exact hp
  · exact hq

theorem Avoids.require {c : Prop} [Decidable c] (h : ∀ s, P s → c) :
    Avoids e P (require c e) (fun _ => P) := by
  intro s hs
  rw [Prog.require, if_pos (h s hs)]
  exact hs

theorem Avoids.require_other {c : Prop} [Decidable c] {e' : ε} (h : e' ≠ e) :
    Avoids e P (Prog.require c e') (fun _ s => c ∧ P s) := by
  intro s hs
  rw [Prog.require]
  by_cases hc : c
  · rw [if_pos hc]
    exact ⟨hc, hs⟩
  · rw [if_neg hc]
    exact h

theorem Avoids.of_wp (h : ∀ s, P s → wp p False Q s) : Avoids e P p Q := by
  intro s hs
  obtain ⟨a, t, hrun, hQ⟩ := run_of_wp_false (h s hs)
  rw [hrun]
  exact hQ

theorem Avoids.mono {Q' : α → σ → Prop} (h : Avoids e P p Q) (hQ : ∀ a t, Q a t → Q' a t) :
    Avoids e P p Q' := by
  intro s hs
  have hp := h s hs
  cases hrun : p s with
  | error e' =>
      rw [hrun] at hp
      exact hp
  | ok r =>
      rw [hrun] at hp
      exact hQ r.1 r.2 hp

theorem Avoids.start {P' : σ → Prop} (h : Avoids e P p Q) (hP : ∀ s, P' s → P s) :
    Avoids e P' p Q :=
  fun s hs => h s (hP s hs)

theorem Avoids.of_and {c : Prop} (h : c → Avoids e P p Q) : Avoids e (fun s => c ∧ P s) p Q :=
  fun s hs => h hs.1 s hs.2

end Avoids

end Prog
end FaultProgram
