import Mathlib.Data.Nat.Notation

/-!
# Lists cut into blocks

`join` writes blocks one after the other, and `cut` takes the full blocks off the front of
a list. The two determine each other: a list is its blocks followed by a rest that is
shorter than a block, in one way only.
-/

namespace BlockStream

variable {α : Type*} {n : ℕ}

def join (bs : List (Vector α n)) : List α := (bs.map Vector.toList).flatten

@[simp] theorem join_nil : join ([] : List (Vector α n)) = [] := rfl

@[simp] theorem join_cons (b : Vector α n) (bs : List (Vector α n)) :
    join (b :: bs) = b.toList ++ join bs := rfl

@[simp] theorem join_append (bs cs : List (Vector α n)) : join (bs ++ cs) = join bs ++ join cs := by
  simp [join]

@[simp] theorem length_join (bs : List (Vector α n)) : (join bs).length = n * bs.length := by
  induction bs with
  | nil => rfl
  | cons b bs ih => simp [ih, Nat.mul_add, Nat.add_comm]

theorem size_take {l : List α} (h : 0 < n ∧ n ≤ l.length) : (l.take n).toArray.size = n := by
  rw [List.size_toArray, List.length_take, Nat.min_eq_left h.2]

def cut (n : ℕ) (l : List α) : List (Vector α n) × List α :=
  if h : 0 < n ∧ n ≤ l.length then
    (⟨(l.take n).toArray, size_take h⟩ :: (cut n (l.drop n)).1, (cut n (l.drop n)).2)
  else ([], l)
termination_by l.length
decreasing_by all_goals simp; omega

def blocks (n : ℕ) (l : List α) : List (Vector α n) := (cut n l).1

def rest (n : ℕ) (l : List α) : List α := (cut n l).2

theorem cut_of_le {l : List α} (h : 0 < n ∧ n ≤ l.length) :
    cut n l = (⟨(l.take n).toArray, size_take h⟩ :: (cut n (l.drop n)).1,
      (cut n (l.drop n)).2) := by
  rw [cut, dif_pos h]

theorem cut_of_not_le {l : List α} (h : ¬ (0 < n ∧ n ≤ l.length)) : cut n l = ([], l) := by
  rw [cut, dif_neg h]

theorem cut_join_append (bs : List (Vector α n)) {r : List α} (h : r.length < n) :
    cut n (join bs ++ r) = (bs, r) := by
  induction bs with
  | nil => exact cut_of_not_le (by simp; omega)
  | cons b bs ih =>
      have hb : b.toList.length = n := Vector.length_toList
      have htake : (join (b :: bs) ++ r).take n = b.toList := by
        rw [join_cons, List.append_assoc, List.take_left' hb]
      have hdrop : (join (b :: bs) ++ r).drop n = join bs ++ r := by
        rw [join_cons, List.append_assoc, List.drop_left' hb]
      rw [cut_of_le ⟨by omega, by simp⟩]
      simp only [htake, hdrop, ih]
      rfl

theorem join_blocks_append_rest (n : ℕ) (l : List α) : join (blocks n l) ++ rest n l = l := by
  induction l using cut.induct n with
  | case1 l h ih =>
      rw [blocks, rest, cut_of_le h]
      rw [blocks, rest] at ih
      simp only [join_cons, List.append_assoc, ih]
      exact List.take_append_drop n l
  | case2 l h => rw [blocks, rest, cut_of_not_le h, join_nil, List.nil_append]

theorem length_rest_lt (hn : 0 < n) (l : List α) : (rest n l).length < n := by
  induction l using cut.induct n with
  | case1 l h ih =>
      rw [rest, cut_of_le h]
      exact ih
  | case2 l h =>
      rw [rest, cut_of_not_le h]
      simp only [hn, true_and, Nat.not_le] at h
      exact h

theorem exists_blocks (hn : 0 < n) (l : List α) :
    ∃ (bs : List (Vector α n)) (r : List α), l = join bs ++ r ∧ r.length < n :=
  ⟨blocks n l, rest n l, (join_blocks_append_rest n l).symm, length_rest_lt hn l⟩

theorem exists_blocks_of_dvd (hn : 0 < n) {l : List α} (h : n ∣ l.length) :
    ∃ bs : List (Vector α n), l = join bs := by
  obtain ⟨bs, r, rfl, hr⟩ := exists_blocks hn l
  rw [List.length_append, length_join] at h
  have hdvd : n ∣ r.length := (Nat.dvd_add_right (Nat.dvd_mul_right n bs.length)).mp h
  have hnil : r = [] := List.eq_nil_of_length_eq_zero (Nat.eq_zero_of_dvd_of_lt hdvd hr)
  exact ⟨bs, by rw [hnil, List.append_nil]⟩

theorem blocks_join (hn : 0 < n) (bs : List (Vector α n)) : blocks n (join bs) = bs := by
  have h := cut_join_append bs (r := []) hn
  rw [List.append_nil] at h
  rw [blocks, h]

end BlockStream
