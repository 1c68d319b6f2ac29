import Mathlib.Data.List.Basic
import Mathlib.Data.Nat.Notation

/-!
# Searching texts

`strchr` and `strrchr` give the position of the first and of the last occurrence of a
character. Both are described by the text split at that position. Occurrences of a text in
another (`strstr`) are infixes.
-/

namespace CString

variable {α : Type*} {c : α} {s a b : List α} {i : ℕ}

/-- A last character that a text does not have is not part of its occurrence. -/
theorem infix_of_infix_concat {x : α} (h : s <:+: a ++ [x]) (hx : x ∉ s) : s <:+: a := by
  obtain ⟨p, q, hpq⟩ := h
  rcases List.eq_nil_or_concat' q with rfl | ⟨q, y, rfl⟩
  · rcases List.eq_nil_or_concat' s with rfl | ⟨s, y, rfl⟩
    · exact List.nil_infix
    · rw [List.append_nil, ← List.append_assoc] at hpq
      have hy : y = x := by simpa using (List.append_inj' hpq rfl).2
      exact absurd (hy ▸ List.mem_append_right _ (List.mem_singleton_self y)) hx
  · rw [← List.append_assoc] at hpq
    exact ⟨p, q, (List.append_inj' hpq rfl).1⟩

/-- Where a separator occurs between two characters, it is the first separator of the text or
a later one. -/
theorem infix_around {x y : α} (h : [x, c, y] <:+: a ++ c :: b) (ha : c ∉ a) (hx : x ≠ c) :
    (a.getLast? = some x ∧ b.head? = some y) ∨ [x, c, y] <:+: b := by
  obtain ⟨p, q, hpq⟩ := h
  have heq : (p ++ [x]) ++ c :: (y :: q) = a ++ c :: b := by simpa using hpq
  rcases List.append_eq_append_iff.mp heq with ⟨t, hat, hct⟩ | ⟨t, hpt, hbt⟩
  · cases t with
    | nil =>
        obtain ⟨-, rfl⟩ := List.cons.inj hct
        rw [List.append_nil] at hat
        exact .inl ⟨by rw [hat, List.getLast?_concat], rfl⟩
    | cons d t =>
        obtain ⟨rfl, -⟩ := List.cons.inj hct
        exact absurd (hat ▸ List.mem_append_right _ List.mem_cons_self) ha
  · cases t with
    | nil =>
        obtain ⟨-, rfl⟩ := List.cons.inj hbt
        rw [List.append_nil] at hpt
        exact .inl ⟨by rw [← hpt, List.getLast?_concat], rfl⟩
    | cons d t =>
        obtain ⟨rfl, rfl⟩ := List.cons.inj hbt
        rcases List.eq_nil_or_concat' t with rfl | ⟨t, z, rfl⟩
        · exact absurd (by simpa using (List.append_inj' hpt rfl).2) hx
        · have hz : x = z := by
            have hpt' : p ++ [x] = (a ++ c :: t) ++ [z] := by simpa using hpt
            simpa using (List.append_inj' hpt' rfl).2
          exact .inr ⟨t, q, by simp [hz]⟩

variable [DecidableEq α]

def strchr (c : α) (s : List α) : Option ℕ := s.idxOf? c

def strrchr (c : α) (s : List α) : Option ℕ :=
  (strchr c s.reverse).map fun i => s.length - 1 - i

theorem strchr_eq_none : strchr c s = none ↔ c ∉ s := List.idxOf?_eq_none_iff

theorem strchr_append (h : c ∉ a) : strchr c (a ++ c :: b) = some a.length := by
  induction a with
  | nil => simp [strchr, List.idxOf?_cons]
  | cons x a ih =>
      have hx : x ≠ c := fun hx => h (hx ▸ List.mem_cons_self)
      have ha := ih fun hc => h (List.mem_cons_of_mem x hc)
      unfold strchr at ha ⊢
      rw [List.cons_append, List.idxOf?_cons, ha]
      simp [hx]

theorem exists_of_strchr (h : strchr c s = some i) :
    ∃ a b, s = a ++ c :: b ∧ c ∉ a ∧ a.length = i := by
  have hc : c ∈ s := by
    by_contra hc
    rw [strchr_eq_none.mpr hc] at h
    cases h
  obtain ⟨a, b, rfl, ha⟩ := List.eq_append_cons_of_mem hc
  rw [strchr_append ha] at h
  exact ⟨a, b, rfl, ha, Option.some.inj h⟩

theorem lt_length_of_strchr (h : strchr c s = some i) :
    i < s.length := by
  obtain ⟨a, b, rfl, -, rfl⟩ := exists_of_strchr h
  rw [List.length_append, List.length_cons]
  omega

/-- The characters of a piece are those of the text, without the separator. -/
theorem mem_of_mem_splitOn {x : α} (h : a ∈ s.splitOn c) (hx : x ∈ a) : x ∈ s ∧ x ≠ c := by
  rw [List.splitOn_eq_splitOnP] at h
  induction s generalizing a with
  | nil =>
      rw [List.splitOnP_nil, List.mem_singleton] at h
      rw [h] at hx
      simp at hx
  | cons y s ih =>
      rw [List.splitOnP_cons_eq_if_modifyHead] at h
      split_ifs at h with hy
      · rcases List.mem_cons.mp h with rfl | h
        · simp at hx
        · exact ⟨List.mem_cons_of_mem y (ih h hx).1, (ih h hx).2⟩
      · obtain ⟨r, rs, hr⟩ := List.exists_cons_of_ne_nil (List.splitOnP_ne_nil (· == c) s)
        rw [hr] at ih h
        rcases List.mem_cons.mp h with rfl | h
        · rcases List.mem_cons.mp hx with rfl | hx
          · exact ⟨List.mem_cons_self, by simpa using hy⟩
          · have hmem := ih List.mem_cons_self hx
            exact ⟨List.mem_cons_of_mem y hmem.1, hmem.2⟩
        · have hmem := ih (List.mem_cons_of_mem r h) hx
          exact ⟨List.mem_cons_of_mem y hmem.1, hmem.2⟩

/-- The text in front of the first occurrence, and the text from there on. -/
theorem takeWhile_ne_append (ha : c ∉ a) :
    (a ++ c :: b).takeWhile (fun x => x ≠ c) = a ∧
      (a ++ c :: b).dropWhile (fun x => x ≠ c) = c :: b := by
  induction a with
  | nil => simp
  | cons x a ih =>
      have hx : x ≠ c := fun hx => ha (hx ▸ List.mem_cons_self)
      have htail := ih fun hc => ha (List.mem_cons_of_mem x hc)
      simpa [hx] using htail

theorem strrchr_append (h : c ∉ b) : strrchr c (a ++ c :: b) = some a.length := by
  have hrev : (a ++ c :: b).reverse = b.reverse ++ c :: a.reverse := by simp
  rw [strrchr, hrev, strchr_append (by rwa [List.mem_reverse]), Option.map_some, Option.some.injEq,
    List.length_reverse, List.length_append, List.length_cons]
  omega

theorem exists_of_strrchr (h : strrchr c s = some i) :
    ∃ a b, s = a ++ c :: b ∧ c ∉ b ∧ a.length = i := by
  obtain ⟨j, hj, -⟩ := Option.map_eq_some_iff.mp h
  obtain ⟨b, a, hs, hb, -⟩ := exists_of_strchr hj
  have hsplit : s = a.reverse ++ c :: b.reverse := by
    rw [← List.reverse_reverse s, hs]
    simp
  have hb' : c ∉ b.reverse := by rwa [List.mem_reverse]
  rw [hsplit, strrchr_append hb'] at h
  exact ⟨a.reverse, b.reverse, hsplit, hb', Option.some.inj h⟩

theorem lt_length_of_strrchr (h : strrchr c s = some i) :
    i < s.length := by
  obtain ⟨a, b, rfl, -, rfl⟩ := exists_of_strrchr h
  rw [List.length_append, List.length_cons]
  omega

theorem getElem?_of_strrchr (h : strrchr c s = some i) :
    s[i]? = some c := by
  obtain ⟨a, b, rfl, -, rfl⟩ := exists_of_strrchr h
  rw [List.getElem?_append_right (Nat.le_refl _), Nat.sub_self]
  rfl

end CString
