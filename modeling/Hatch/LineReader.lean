import Hatch.CString

/-!
# Reading a text line by line

A call of `fgets` with a buffer for `cap` characters takes a text up to its first line break, and
at most `cap` characters of it. `reads` are the results of one call after the other.
-/

namespace LineReader

open CString

variable {α : Type*} [DecidableEq α] (nl : α) (cap : ℕ)

def fgetsLength (text : List α) : ℕ :=
  match strchr nl (text.take cap) with
  | some i => i + 1
  | none => (text.take cap).length

def readsFrom : ℕ → List α → List (List α)
  | 0, _ => []
  | n + 1, text =>
      if text = [] then []
      else text.take (fgetsLength nl cap text) :: readsFrom n (text.drop (fgetsLength nl cap text))

def reads (text : List α) : List (List α) := readsFrom nl cap text.length text

variable {nl cap} {text b : List α}

theorem fgetsLength_pos (nl : α) (hcap : 0 < cap) (h : text ≠ []) :
    0 < fgetsLength nl cap text := by
  have hpos := List.length_pos_iff.mpr h
  unfold fgetsLength
  split
  · omega
  · rw [List.length_take]
    omega

theorem readsFrom_congr (hcap : 0 < cap) {m k : ℕ} (hm : text.length ≤ m) (hk : text.length ≤ k) :
    readsFrom nl cap m text = readsFrom nl cap k text := by
  induction m generalizing k text with
  | zero =>
      obtain rfl : text = [] := List.length_eq_zero_iff.mp (by omega)
      cases k <;> rfl
  | succ m ih =>
      cases k with
      | zero =>
          obtain rfl : text = [] := List.length_eq_zero_iff.mp (by omega)
          rfl
      | succ k =>
          by_cases ht : text = []
          · rw [readsFrom, readsFrom, if_pos ht, if_pos ht]
          · have hpos := fgetsLength_pos nl hcap ht
            have hdrop := List.length_drop (l := text) (i := fgetsLength nl cap text)
            rw [readsFrom, readsFrom, if_neg ht, if_neg ht, ih (k := k) (by omega) (by omega)]

theorem reads_eq (hcap : 0 < cap) (h : text ≠ []) :
    reads nl cap text = text.take (fgetsLength nl cap text) ::
      reads nl cap (text.drop (fgetsLength nl cap text)) := by
  have hpos := fgetsLength_pos nl hcap h
  have hlen := List.length_pos_iff.mpr h
  have hdrop := List.length_drop (l := text) (i := fgetsLength nl cap text)
  rw [reads, readsFrom_congr hcap (Nat.le_refl _) (Nat.le_add_left text.length 1), Nat.add_comm,
    readsFrom, if_neg h, readsFrom_congr hcap (by omega) (Nat.le_refl _)]
  rfl

/-- Nothing is lost between two calls. -/
theorem flatten_reads (hcap : 0 < cap) (text : List α) : (reads nl cap text).flatten = text := by
  induction hl : text.length using Nat.strongRecOn generalizing text with
  | ind l ih =>
      by_cases h : text = []
      · rw [h]
        rfl
      · have hpos := fgetsLength_pos nl hcap h
        have hlen := List.length_pos_iff.mpr h
        rw [reads_eq hcap h, List.flatten_cons,
          ih _ (by rw [List.length_drop]; omega) _ rfl, List.take_append_drop]

theorem fgetsLength_append (h : nl ∉ b) (rest : List α) :
    fgetsLength nl cap (b ++ nl :: rest) = min cap (b.length + 1) := by
  unfold fgetsLength
  rcases Nat.lt_or_ge b.length cap with hlt | hge
  · obtain ⟨k, rfl⟩ := Nat.exists_eq_add_of_lt hlt
    have hsplit : (b ++ nl :: rest).take (b.length + k + 1) = b ++ nl :: rest.take k := by
      rw [List.take_append, List.take_of_length_le (by omega),
        show b.length + k + 1 - b.length = k + 1 by omega]
      rfl
    rw [hsplit, strchr_append h]
    dsimp only
    omega
  · have hnone : strchr nl (b.take cap) = none :=
      strchr_eq_none.mpr fun hm => h (List.mem_of_mem_take hm)
    rw [List.take_append_of_le_length hge, hnone]
    dsimp only
    rw [List.length_take]
    omega

/-- In a line, the buffer is the only limit. -/
theorem fgetsLength_line (h : nl ∉ b.dropLast) : fgetsLength nl cap b = min cap b.length := by
  unfold fgetsLength
  split
  · next i hi =>
      obtain ⟨a, c, hs, -, rfl⟩ := exists_of_strchr hi
      have hb : b = a ++ nl :: (c ++ b.drop cap) := by
        rw [← List.cons_append, ← List.append_assoc, ← hs, List.take_append_drop]
      -- a break in front of the last character is not possible
      have hend : c ++ b.drop cap = [] := by
        by_contra hne
        apply h
        rw [hb, List.dropLast_append_of_ne_nil (List.cons_ne_nil _ _),
          List.dropLast_cons_of_ne_nil hne]
        simp
      have hshort : b.length ≤ cap := List.drop_eq_nil_iff.mp (List.append_eq_nil_iff.mp hend).2
      rw [hend] at hb
      have hlen : b.length = a.length + 1 := by rw [hb]; simp
      omega
  · rw [List.length_take]

/-- A line is read in pieces of the size of the buffer. -/
theorem reads_line (hcap : 0 < cap) (h : nl ∉ b.dropLast) (hne : b ≠ []) :
    reads nl cap b = b.take cap :: reads nl cap (b.drop cap) := by
  rw [reads_eq hcap hne, fgetsLength_line h]
  rcases Nat.le_total b.length cap with hle | hle
  · rw [Nat.min_eq_right hle, List.take_length, List.drop_length,
      List.take_of_length_le hle, List.drop_eq_nil_of_le hle]
  · rw [Nat.min_eq_left hle]

/-- Reading goes on behind a line as from the start. -/
theorem reads_append (hcap : 0 < cap) (h : nl ∉ b) (rest : List α) :
    reads nl cap (b ++ nl :: rest) = reads nl cap (b ++ [nl]) ++ reads nl cap rest := by
  induction hl : b.length using Nat.strongRecOn generalizing b with
  | ind l ih =>
      have hne : b ++ nl :: rest ≠ [] := by simp
      have hne' : b ++ [nl] ≠ [] := by simp
      have hcat : b ++ nl :: rest = b ++ [nl] ++ rest := by simp
      rw [reads_eq hcap hne, reads_eq hcap hne', fgetsLength_append h rest,
        fgetsLength_append h [], hcat]
      have hk : min cap (b.length + 1) ≤ (b ++ [nl]).length := by
        rw [List.length_append, List.length_singleton]
        exact Nat.min_le_right _ _
      rw [List.take_append_of_le_length hk, List.drop_append_of_le_length hk, List.cons_append]
      congr 1
      rcases Nat.lt_or_ge b.length cap with hlt | hge
      · rw [Nat.min_eq_right (by omega), List.drop_of_length_le (by simp)]
        rfl
      · rw [Nat.min_eq_left (by omega), List.drop_append_of_le_length hge, List.append_assoc]
        exact ih _ (by rw [List.length_drop]; omega) (fun hm => h (List.mem_of_mem_drop hm)) rfl

/-- A line that fits the buffer is read in one call. -/
theorem reads_append_line (h : nl ∉ b) (hcap : b.length < cap) (rest : List α) :
    reads nl cap (b ++ nl :: rest) = (b ++ [nl]) :: reads nl cap rest := by
  have hne : b ++ nl :: rest ≠ [] := by simp
  have hcat : b ++ nl :: rest = (b ++ [nl]) ++ rest := by simp
  have hlen : (b ++ [nl]).length = b.length + 1 := by simp
  rw [reads_eq (by omega) hne, fgetsLength_append h, Nat.min_eq_right (by omega), hcat,
    List.take_left' hlen, List.drop_left' hlen]

/-- So is a last line without a break. -/
theorem reads_last (h : nl ∉ b) (hne : b ≠ []) (hcap : b.length ≤ cap) : reads nl cap b = [b] := by
  have hpos := List.length_pos_iff.mpr hne
  have hlen : fgetsLength nl cap b = b.length := by
    unfold fgetsLength
    rw [List.take_of_length_le hcap, strchr_eq_none.mpr h]
  rw [reads_eq (by omega) hne, hlen, List.take_length, List.drop_length]
  rfl

end LineReader
