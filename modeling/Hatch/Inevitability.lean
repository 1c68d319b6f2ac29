import Hatch.TransitionSystem
import Mathlib.Order.WellFounded

/-!
# What every run comes to

`Inevitable M G P s` says that every guarded run from `s`, however its steps are chosen, comes
to a state with `P`, and that a step is possible until it does. The rule for it asks for a
measure that every step lowers, and for a step in every state that has not come to `P`.
-/

namespace TransitionSystem

variable {σ α β : Type*}

inductive Inevitable (M : Machine σ α) (G : σ → α → Prop) (P : σ → Prop) : σ → Prop
  | now {s : σ} (h : P s) : Inevitable M G P s
  | later {s : σ} (he : ∃ a t, G s a ∧ M.step s a = some t)
      (h : ∀ a t, G s a → M.step s a = some t → Inevitable M G P t) : Inevitable M G P s

variable {M : Machine σ α} {G : σ → α → Prop} {P I : σ → Prop} {r : β → β → Prop}

theorem inevitable_of_descent (hr : WellFounded r) (μ : σ → β)
    (hs : ∀ s a t, I s → ¬ P s → G s a → M.step s a = some t → I t ∧ r (μ t) (μ s))
    (he : ∀ s, I s → ¬ P s → ∃ a t, G s a ∧ M.step s a = some t) {s : σ} (h : I s) :
    Inevitable M G P s := by
  induction hb : μ s using hr.induction generalizing s with
  | _ b ih =>
      subst hb
      by_cases hp : P s
      · exact .now hp
      · refine .later (he s h hp) ?_
        intro a t hg ht
        obtain ⟨hi, hd⟩ := hs s a t h hp hg ht
        exact ih _ hd hi rfl

/-- What is inevitable can be reached. -/
theorem Inevitable.exists_path {s : σ} (h : Inevitable M G P s) : ∃ t, Path M G s t ∧ P t := by
  induction h with
  | now hp => exact ⟨_, .refl _, hp⟩
  | later he _ ih =>
      obtain ⟨a, u, hg, hu⟩ := he
      obtain ⟨t, ht, hp⟩ := ih a u hg hu
      exact ⟨t, (Path.single hg hu).trans ht, hp⟩

/-- An invariant of the steps is kept along a path. -/
theorem Path.invariant (hs : ∀ s a t, I s → G s a → M.step s a = some t → I t) {s t : σ}
    (h : Path M G s t) (hi : I s) : I t := by
  induction h with
  | refl => exact hi
  | tail _ hg he ih => exact hs _ _ _ ih hg he

theorem Path.of_run [∀ s a, Decidable (G s a)] {s t : σ} {as : List α}
    (hr : run (M.restrict G) s as = some t) : Path M G s t := by
  induction as generalizing s with
  | nil => exact Option.some.inj hr ▸ .refl s
  | cons a as ih =>
      obtain ⟨u, hu, ht⟩ := Option.bind_eq_some_iff.mp hr
      by_cases hg : G s a
      · exact (Path.single hg ((if_pos hg).symm.trans hu)).trans (ih ht)
      · exact absurd ((if_neg hg).symm.trans hu) (by simp)

/-- A reachable state and a run from it, found by evaluation. -/
theorem Reaches.exists_path [∀ s a, Decidable (G s a)] {Q : σ → σ → Prop}
    [∀ s t, Decidable (Q s t)] {s : σ} (h : Reaches M G s) (as bs : List α)
    (hr : (TransitionSystem.run (M.restrict G) s as).any
      (fun t => (TransitionSystem.run (M.restrict G) t bs).any (fun u => Q t u)) = true) :
    ∃ t u, Reaches M G t ∧ Path M G t u ∧ Q t u := by
  obtain ⟨t, ht, hu⟩ := (Option.any_eq_true _ _).mp hr
  obtain ⟨u, hu, hQ⟩ := (Option.any_eq_true _ _).mp hu
  exact ⟨t, u, h.run ht, .of_run hu, of_decide_eq_true hQ⟩

end TransitionSystem
