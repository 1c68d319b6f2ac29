import Mathlib.Algebra.BigOperators.Group.Finset.Basic
import Mathlib.Data.Fintype.BigOperators

/-!
# Counting threads by their local state

`count p f` is the number of threads whose local state satisfies `p`. Moving one
thread changes it by the difference of the two indicators, which is all that a
counting invariant over interleavings needs.
-/

namespace ThreadCount

variable {T β : Type*} [Fintype T] [DecidableEq T]

def ind (b : Bool) : ℕ := if b then 1 else 0

@[simp] theorem ind_true : ind true = 1 := rfl

@[simp] theorem ind_false : ind false = 0 := rfl

def count {T β : Type*} [Fintype T] (p : β → Bool) (f : T → β) : ℕ := ∑ t, ind (p (f t))

theorem count_update (p : β → Bool) (f : T → β) (t : T) (v : β) :
    count p (Function.update f t v) + ind (p (f t)) = count p f + ind (p v) := by
  have h1 := Finset.add_sum_erase Finset.univ (fun u => ind (p (f u))) (Finset.mem_univ t)
  have h2 := Finset.add_sum_erase Finset.univ (fun u => ind (p (Function.update f t v u)))
    (Finset.mem_univ t)
  have h3 : ∑ u ∈ Finset.univ.erase t, ind (p (Function.update f t v u)) =
      ∑ u ∈ Finset.univ.erase t, ind (p (f u)) := by
    apply Finset.sum_congr rfl
    intro u hu
    rw [Function.update_of_ne (Finset.ne_of_mem_erase hu)]
  simp only [Function.update_self] at h2
  unfold count
  omega

theorem count_pos {p : β → Bool} {f : T → β} {t : T} (h : p (f t) = true) : 0 < count p f := by
  have hs := Finset.add_sum_erase Finset.univ (fun u => ind (p (f u))) (Finset.mem_univ t)
  simp only [h, ind_true] at hs
  unfold count
  omega

omit [DecidableEq T] in
theorem count_eq_zero {p : β → Bool} {f : T → β} (h : ∀ t, p (f t) = false) : count p f = 0 := by
  apply Finset.sum_eq_zero
  intro t _
  rw [h t, ind_false]

def weight {T β : Type*} [Fintype T] (w : β → ℕ) (f : T → β) : ℕ := ∑ t, w (f t)

theorem weight_update (w : β → ℕ) (f : T → β) (t : T) (v : β) :
    weight w (Function.update f t v) + w (f t) = weight w f + w v := by
  have h1 := Finset.add_sum_erase Finset.univ (fun u => w (f u)) (Finset.mem_univ t)
  have h2 := Finset.add_sum_erase Finset.univ (fun u => w (Function.update f t v u))
    (Finset.mem_univ t)
  have h3 : ∑ u ∈ Finset.univ.erase t, w (Function.update f t v u) =
      ∑ u ∈ Finset.univ.erase t, w (f u) := by
    apply Finset.sum_congr rfl
    intro u hu
    rw [Function.update_of_ne (Finset.ne_of_mem_erase hu)]
  simp only [Function.update_self] at h2
  unfold weight
  omega

end ThreadCount
