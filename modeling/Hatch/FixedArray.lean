import Mathlib.Algebra.GroupWithZero.Nat

/-!
# Arrays of fixed length by their cells

Two arrays of one length are equal when their cells are, and the cells of an array that is
filled by a function, written in one place or combined with another are known. The indices
of short arrays have numerals by the instances named here.
-/

namespace FixedArray

scoped instance neZero_two : NeZero 2 := ⟨by decide⟩

scoped instance neZero_four : NeZero 4 := ⟨by decide⟩

scoped instance neZero_eight : NeZero 8 := ⟨by decide⟩

scoped instance neZero_sixteen : NeZero 16 := ⟨by decide⟩

variable {α : Type*} {n : ℕ}

theorem ext_get {v w : Vector α n} (h : ∀ i, v.get i = w.get i) : v = w :=
  Vector.ext fun i hi => h ⟨i, hi⟩

@[simp] theorem get_ofFn (f : Fin n → α) (i : Fin n) : (Vector.ofFn f).get i = f i := by
  exact Vector.getElem_ofFn i.isLt

theorem get_of_toList {v : Vector α n} {i : Fin n} {a : α} (h : v.toList[i.val]? = some a) :
    v.get i = a := by
  have hi : i.val < v.toList.length := by
    rw [Vector.length_toList]
    exact i.isLt
  rw [List.getElem?_eq_getElem hi] at h
  exact Option.some.inj h

theorem get_set (v : Vector α n) {k : ℕ} (hk : k < n) (j : Fin n) (a : α) :
    (v.set k a hk).get j = if k = j.val then a else v.get j :=
  Vector.getElem_set hk j.isLt

theorem get_zipWith (f : α → α → α) (v w : Vector α n) (i : Fin n) :
    (Vector.zipWith f v w).get i = f (v.get i) (w.get i) :=
  Vector.getElem_zipWith ..

end FixedArray
