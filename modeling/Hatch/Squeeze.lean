import Mathlib.Data.List.Basic
import Mathlib.Data.List.TakeWhile

/-!
# Squeezing a separator

`runs` leaves one separator of every run, and `squeeze` none at the front. Both can be computed
from left to right: whether a further separator is kept depends on the last character kept.
-/

namespace Squeeze

variable {α : Type*} [DecidableEq α] {s c : α} {a b l : List α}

def runs (s : α) : List α → List α
  | [] => []
  | x :: l => if x = s ∧ l.head? = some s then runs s l else x :: runs s l

def squeeze (s : α) (l : List α) : List α := runs s (l.dropWhile fun x => x = s)

theorem runs_cons_cons (s x y : α) (l : List α) :
    runs s (x :: y :: l) = if x = s ∧ y = s then runs s (y :: l) else x :: runs s (y :: l) := by
  rw [runs]
  simp only [List.head?_cons, Option.some.injEq]

theorem head?_runs (s : α) (l : List α) : (runs s l).head? = l.head? := by
  induction l with
  | nil => rfl
  | cons x l ih =>
      by_cases h : x = s ∧ l.head? = some s
      · rw [runs, if_pos h, ih, h.2, h.1, List.head?_cons]
      · rw [runs, if_neg h, List.head?_cons, List.head?_cons]

theorem runs_eq_nil : runs s l = [] ↔ l = [] := by
  rw [← List.head?_eq_none_iff, head?_runs, List.head?_eq_none_iff]

/-- Two texts are squeezed apart unless a run goes on from one to the other. -/
theorem runs_append (h : a.getLast? ≠ some s ∨ b.head? ≠ some s) :
    runs s (a ++ b) = runs s a ++ runs s b := by
  induction a with
  | nil => rfl
  | cons x a ih =>
      cases a with
      | nil =>
          have hx : ¬ (x = s ∧ b.head? = some s) := by
            rintro ⟨rfl, hb⟩
            rcases h with h | h
            · exact h rfl
            · exact h hb
          simp [runs, hx]
      | cons y a =>
          have htail := ih (by simpa using h)
          rw [List.cons_append, List.cons_append, runs_cons_cons, runs_cons_cons,
            ← List.cons_append, htail]
          split <;> rfl

theorem runs_of_notMem (h : s ∉ l) : runs s l = l := by
  induction l with
  | nil => rfl
  | cons x l ih =>
      have hx : x ≠ s := fun hx => h (hx ▸ List.mem_cons_self)
      rw [runs, if_neg (fun hc => hx hc.1), ih fun hl => h (List.mem_cons_of_mem x hl)]

theorem runs_of_forall (hne : l ≠ []) (h : ∀ x ∈ l, x = s) : runs s l = [s] := by
  induction l with
  | nil => exact absurd rfl hne
  | cons x l ih =>
      obtain rfl := h x List.mem_cons_self
      cases l with
      | nil => simp [runs]
      | cons y l =>
          obtain rfl := h y (by simp)
          rw [runs, if_pos ⟨rfl, rfl⟩]
          exact ih (List.cons_ne_nil _ _) fun z hz => h z (List.mem_cons_of_mem _ hz)

theorem getLast?_runs (s : α) (l : List α) : (runs s l).getLast? = l.getLast? := by
  induction l with
  | nil => rfl
  | cons x l ih =>
      by_cases h : x = s ∧ l.head? = some s
      · obtain ⟨y, r, rfl⟩ : ∃ y r, l = y :: r := by
          cases l with
          | nil => simp at h
          | cons y r => exact ⟨y, r, rfl⟩
        rw [runs, if_pos h, ih, List.getLast?_cons_cons]
      · rw [runs, if_neg h, List.getLast?_cons, List.getLast?_cons, ih]

theorem runs_concat (hne : l ≠ []) :
    runs s (l ++ [c]) = if c = s ∧ l.getLast? = some s then runs s l else runs s l ++ [c] := by
  induction l with
  | nil => exact absurd rfl hne
  | cons x l ih =>
      cases l with
      | nil => by_cases hc : c = s <;> by_cases hx : x = s <;> simp [runs, hc, hx]
      | cons y l =>
          have htail := ih (List.cons_ne_nil y l)
          rw [List.cons_append, List.cons_append, runs_cons_cons, ← List.cons_append, htail,
            List.getLast?_cons_cons, runs_cons_cons]
          split <;> split <;> rfl

/-- What a further character adds. -/
theorem squeeze_concat (s c : α) (l : List α) :
    squeeze s (l ++ [c]) =
      if c = s ∧ (squeeze s l = [] ∨ (squeeze s l).getLast? = some s) then squeeze s l
      else squeeze s l ++ [c] := by
  unfold squeeze
  simp only [runs_eq_nil, getLast?_runs]
  rw [List.dropWhile_append]
  by_cases hl : l.dropWhile (fun x => x = s) = []
  · by_cases hc : c = s <;> simp [hl, hc, runs]
  · rw [if_neg (by simpa using hl), runs_concat hl]
    simp only [hl, false_or]

theorem runs_subset (s : α) (l : List α) : runs s l ⊆ l := by
  induction l with
  | nil => exact List.Subset.refl _
  | cons x l ih =>
      rw [runs]
      split
      · exact List.subset_cons_of_subset x ih
      · exact List.cons_subset_cons x ih

theorem squeeze_subset (s : α) (l : List α) : squeeze s l ⊆ l := by
  intro x hx
  exact (List.dropWhile_sublist _).subset (runs_subset s _ hx)

theorem length_squeeze_concat (s c : α) (l : List α) :
    (squeeze s l).length ≤ (squeeze s (l ++ [c])).length := by
  rw [squeeze_concat]
  split
  · exact le_rfl
  · simp

end Squeeze
