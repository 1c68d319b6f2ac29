import Mathlib.Logic.Basic

/-!
# Guarded runs of deterministic labelled machines

A `Machine` moves by labelled steps that may be disabled. `Reaches M G` collects
the states of runs in which every step satisfies the guard `G` on the state it
leaves and the label it takes; `Reachable M` imposes no guard. Invariants are
proved once for the initial states and once for a step, and a simulation
transports reachability to another machine that may answer one step by several.
-/

namespace TransitionSystem

structure Machine (σ α : Type*) where
  init : σ → Prop
  step : σ → α → Option σ

variable {σ α τ β : Type*}

/-- States of runs whose steps all satisfy `G`. -/
inductive Reaches (M : Machine σ α) (G : σ → α → Prop) : σ → Prop
  | init {s : σ} (h : M.init s) : Reaches M G s
  | step {s t : σ} {a : α} (h : Reaches M G s) (hg : G s a) (he : M.step s a = some t) :
      Reaches M G t

def Reachable (M : Machine σ α) : σ → Prop := Reaches M (fun _ _ => True)

/-- Finitely many guarded steps from one state to another. -/
inductive Path (M : Machine σ α) (G : σ → α → Prop) : σ → σ → Prop
  | refl (s : σ) : Path M G s s
  | tail {s t u : σ} {a : α} (h : Path M G s t) (hg : G t a) (he : M.step t a = some u) :
      Path M G s u

def run (M : Machine σ α) : σ → List α → Option σ
  | s, [] => some s
  | s, a :: as => (M.step s a).bind (fun t => run M t as)

variable {M : Machine σ α} {N : Machine τ β} {G G' : σ → α → Prop} {H : τ → β → Prop}

theorem Reaches.invariant {I : σ → Prop} (h0 : ∀ s, M.init s → I s)
    (hs : ∀ s a t, I s → G s a → M.step s a = some t → I t) {s : σ} (h : Reaches M G s) :
    I s := by
  induction h with
  | init hi => exact h0 _ hi
  | step _ hg he ih => exact hs _ _ _ ih hg he

theorem Reaches.mono (hG : ∀ s a, G s a → G' s a) {s : σ} (h : Reaches M G s) :
    Reaches M G' s := by
  induction h with
  | init hi => exact .init hi
  | step _ hg he ih => exact .step ih (hG _ _ hg) he

theorem Path.single {s t : σ} {a : α} (hg : G s a) (he : M.step s a = some t) : Path M G s t :=
  .tail (.refl s) hg he

theorem Path.trans {s t u : σ} (h : Path M G s t) (h' : Path M G t u) : Path M G s u := by
  induction h' with
  | refl => exact h
  | tail _ hg he ih => exact .tail ih hg he

theorem Reaches.path {s t : σ} (h : Reaches M G s) (hp : Path M G s t) : Reaches M G t := by
  induction hp with
  | refl => exact h
  | tail _ hg he ih => exact .step ih hg he

theorem Reachable.run {s t : σ} {as : List α} (h : Reachable M s)
    (hr : run M s as = some t) : Reachable M t := by
  induction as generalizing s with
  | nil =>
      have he : s = t := Option.some.inj hr
      exact he ▸ h
  | cons a as ih =>
      obtain ⟨u, hu, ht⟩ := Option.bind_eq_some_iff.mp hr
      exact ih (.step h trivial hu) ht

theorem Reachable.exists_run {γ : Type*} {s : σ} {v : γ} (h : Reachable M s) (as : List α)
    (f : σ → γ) (hr : (TransitionSystem.run M s as).map f = some v) :
    ∃ t, Reachable M t ∧ f t = v := by
  obtain ⟨t, ht, hv⟩ := Option.map_eq_some_iff.mp hr
  exact ⟨t, h.run ht, hv⟩

/-- The machine whose steps are those that satisfy the guard. -/
def Machine.restrict (M : Machine σ α) (G : σ → α → Prop) [∀ s a, Decidable (G s a)] :
    Machine σ α where
  init := M.init
  step s a := if G s a then M.step s a else none

theorem Reaches.run [∀ s a, Decidable (G s a)] {s t : σ} {as : List α} (h : Reaches M G s)
    (hr : run (M.restrict G) s as = some t) : Reaches M G t := by
  induction as generalizing s with
  | nil =>
      have he : s = t := Option.some.inj hr
      exact he ▸ h
  | cons a as ih =>
      obtain ⟨u, hu, ht⟩ := Option.bind_eq_some_iff.mp hr
      by_cases hg : G s a
      · exact ih (.step h hg ((if_pos hg).symm.trans hu)) ht
      · exact absurd ((if_neg hg).symm.trans hu) (by simp)

/-- A guarded run that ends in `Q`, found by evaluation. -/
theorem Reaches.exists_of_run [∀ s a, Decidable (G s a)] {Q : σ → Prop} [DecidablePred Q] {s : σ}
    (h : Reaches M G s) (as : List α)
    (hr : (TransitionSystem.run (M.restrict G) s as).any (fun t => Q t) = true) :
    ∃ t, Reaches M G t ∧ Q t := by
  obtain ⟨t, ht, hQ⟩ := (Option.any_eq_true _ _).mp hr
  exact ⟨t, h.run ht, of_decide_eq_true hQ⟩

/-- A relation that matches initial states and answers every guarded step by a
guarded path carries reachability across, together with the relation. -/
theorem Reaches.simulate (R : σ → τ → Prop) (h0 : ∀ s, M.init s → ∃ t, N.init t ∧ R s t)
    (hs : ∀ s a s' t, R s t → Reaches N H t → G s a → M.step s a = some s' →
      ∃ t', Path N H t t' ∧ R s' t') {s : σ} (h : Reaches M G s) :
    ∃ t, Reaches N H t ∧ R s t := by
  induction h with
  | init hi =>
      obtain ⟨t, ht, hR⟩ := h0 _ hi
      exact ⟨t, .init ht, hR⟩
  | step _ hg he ih =>
      obtain ⟨t, ht, hR⟩ := ih
      obtain ⟨t', hp, hR'⟩ := hs _ _ _ _ hR ht hg he
      exact ⟨t', ht.path hp, hR'⟩

end TransitionSystem
