import Hatch.SplitText

/-!
# The chunks of a line

`fgets` never reads across a line break, so the chunks of a source are those of its lines. A
line is read in pieces of 8191 bytes. The first piece of a marker line has the marker and, if
it is short enough for `g_tmp_buf`, the name; the other pieces show no marker.
-/

namespace Hatch.Split

open ByteLayout (Bytes)
open CString

variable {text b : Bytes} {n : FileName}

/-! ### Reading -/

theorem infix_of_mem_reads {c : Bytes} (h : c ∈ reads text) : c <:+: text := by
  have hc := List.infix_of_mem_flatten h
  rwa [reads, LineReader.flatten_reads (by decide)] at hc

theorem flatten_reads (text : Bytes) : (reads text).flatten = text :=
  LineReader.flatten_reads (by decide) text

theorem reads_line (h : newline ∉ b.dropLast) (hne : b ≠ []) :
    reads b = b.take 8191 :: reads (b.drop 8191) :=
  LineReader.reads_line (by decide) h hne

theorem reads_append (h : newline ∉ b) (rest : Bytes) :
    reads (b ++ [newline] ++ rest) = reads (b ++ [newline]) ++ reads rest := by
  rw [List.append_assoc]
  exact LineReader.reads_append (by decide) h rest

/-! ### Lines with their breaks -/

def Broken (l : Line) (b : Bytes) : Prop := b = l.bytes ∨ b = l.bytes ++ [newline]

theorem broken_of_mem {finalBreak : Bool} {ls : List Line} {p : Line × Bytes}
    (h : p ∈ withBreaks finalBreak ls) : Broken p.1 p.2 := by
  fun_induction withBreaks finalBreak ls with
  | case1 => simp at h
  | case2 l =>
      obtain rfl := List.mem_singleton.mp h
      cases finalBreak
      · exact .inl (List.append_nil _)
      · exact .inr rfl
  | case3 l ls hls ih =>
      rcases List.mem_cons.mp h with rfl | h
      · exact .inr rfl
      · exact ih h

theorem map_fst_withBreaks (finalBreak : Bool) (ls : List Line) :
    (withBreaks finalBreak ls).map Prod.fst = ls := by
  fun_induction withBreaks finalBreak ls with
  | case1 => rfl
  | case2 l => rfl
  | case3 l ls hls ih => rw [List.map_cons, ih]

theorem FileName.ne_of_mem {c : UInt8} (h : c ∈ n.bytes) : c ≠ blank ∧ c ≠ newline ∧ c ≠ 0 := by
  rw [FileName.bytes, List.mem_append] at h
  rcases h with h | h
  · exact n.stem_char c h
  · rcases List.mem_pair.mp h with rfl | rfl
    · decide
    · exact ⟨n.ext_char.1, n.ext_char.2.1, n.ext_char.2.2.1⟩

theorem mem_closing {c : UInt8} {k : ℕ} (h : c ∈ closing k) : c = blank ∨ c = star ∨ c = slash := by
  simp only [closing, List.mem_cons, List.mem_append, List.mem_replicate, List.not_mem_nil,
    or_false] at h
  tauto

/-- The bytes of a marker line. -/
theorem mem_markLine {mark : Bytes} {c : UInt8} {k : ℕ}
    (h : c ∈ mark ++ blank :: (n.bytes ++ closing k)) :
    c ∈ mark ∨ c = blank ∨ c ∈ n.bytes ∨ c = star ∨ c = slash := by
  simp only [List.mem_append, List.mem_cons] at h
  rcases h with h | h | h | h
  · exact .inl h
  · exact .inr (.inl h)
  · exact .inr (.inr (.inl h))
  · rcases mem_closing h with h | h
    · exact .inr (.inl h)
    · exact .inr (.inr (.inr h))

theorem markLine_char {mark : Bytes} {k : ℕ} {c : UInt8} (hm : newline ∉ mark ∧ 0 ∉ mark)
    (h : c ∈ mark ++ blank :: (n.bytes ++ closing k)) : c ≠ newline ∧ c ≠ 0 := by
  rcases mem_markLine h with h | rfl | h | rfl | rfl
  · exact ⟨fun hc => hm.1 (hc ▸ h), fun hc => hm.2 (hc ▸ h)⟩
  · decide
  · exact (FileName.ne_of_mem h).2
  · decide
  · decide

theorem Line.char {l : Line} {c : UInt8} (h : c ∈ l.bytes) : c ≠ newline ∧ c ≠ 0 := by
  cases l with
  | plain l => exact ⟨fun hc => l.newline_notMem (hc ▸ h), fun hc => l.zero_notMem (hc ▸ h)⟩
  | beginFile n k => exact markLine_char (by decide) h
  | endOf n k => exact markLine_char (by decide) h

theorem Line.newline_notMem (l : Line) : newline ∉ l.bytes := fun h => (Line.char h).1 rfl

theorem Broken.zero_notMem {l : Line} (h : Broken l b) : 0 ∉ b := by
  intro hz
  rcases h with rfl | rfl
  · exact (Line.char hz).2 rfl
  · rcases List.mem_append.mp hz with hz | hz
    · exact (Line.char hz).2 rfl
    · exact absurd hz (by decide)

theorem Broken.newline_notMem {l : Line} (h : Broken l b) : newline ∉ b.dropLast := by
  rcases h with rfl | rfl
  · exact fun hm => l.newline_notMem (List.dropLast_subset _ hm)
  · rw [List.dropLast_concat]
    exact l.newline_notMem

/-- The chunks of a source are those of its lines. -/
theorem reads_withBreaks (finalBreak : Bool) (ls : List Line) :
    reads ((withBreaks finalBreak ls).flatMap Prod.snd) =
      (withBreaks finalBreak ls).flatMap fun p => reads p.2 := by
  fun_induction withBreaks finalBreak ls with
  | case1 => rfl
  | case2 l => simp
  | case3 l ls hls ih =>
      rw [List.flatMap_cons, List.flatMap_cons, reads_append l.newline_notMem, ih]

/-! ### Markers -/

structure Unmarked (c : Bytes) : Prop where
  zero_notMem : 0 ∉ c
  not_begin : ¬ beginMark <:+: c
  not_end : ¬ endMark <:+: c

theorem Unmarked.of_infix {c d : Bytes} (h : Unmarked d) (hc : c <:+: d) : Unmarked c where
  zero_notMem := fun hz => h.zero_notMem (hc.subset hz)
  not_begin := fun hm => h.not_begin (hm.trans hc)
  not_end := fun hm => h.not_end (hm.trans hc)

/-- A text without a break occurs in a line or not at all. -/
theorem Broken.infix_bytes {l : Line} {mark : Bytes} (h : Broken l b) (hmark : newline ∉ mark)
    (hm : mark <:+: b) : mark <:+: l.bytes := by
  rcases h with rfl | rfl
  · exact hm
  · exact infix_of_infix_concat hm hmark

theorem unmarked_plain {l : PlainLine} (h : Broken (.plain l) b) : Unmarked b where
  zero_notMem := h.zero_notMem
  not_begin := fun hm => l.not_begin (h.infix_bytes (by decide) hm)
  not_end := fun hm => l.not_end (h.infix_bytes (by decide) hm)

def tailOf (k : ℕ) (br : Bytes) : Bytes := closing k ++ br

theorem mem_tailOf {c : UInt8} {k : ℕ} {br : Bytes} (hbr : br = [] ∨ br = [newline])
    (h : c ∈ tailOf k br) : c = blank ∨ c = star ∨ c = slash ∨ c = newline := by
  rcases List.mem_append.mp h with h | h
  · rcases mem_closing h with h | h | h
    · exact .inl h
    · exact .inr (.inl h)
    · exact .inr (.inr (.inl h))
  · rcases hbr with rfl | rfl
    · simp at h
    · exact .inr (.inr (.inr (List.mem_singleton.mp h)))

theorem notMem_tailOf {c : UInt8} {k : ℕ} {br : Bytes} (hbr : br = [] ∨ br = [newline])
    (hc : c ≠ blank ∧ c ≠ star ∧ c ≠ slash ∧ c ≠ newline) : c ∉ tailOf k br := by
  intro h
  rcases mem_tailOf hbr h with rfl | rfl | rfl | rfl <;> simp at hc

/-- A marker line with its break, cut at the name. -/
theorem Broken.mark_eq {l : Line} {mark : Bytes} {k : ℕ} (h : Broken l b)
    (hl : l.bytes = mark ++ blank :: (n.bytes ++ closing k)) :
    ∃ br, (br = [] ∨ br = [newline]) ∧ b = mark ++ blank :: (n.bytes ++ tailOf k br) := by
  rcases h with rfl | rfl
  · exact ⟨[], .inl rfl, by simp [hl, tailOf]⟩
  · exact ⟨[newline], .inr rfl, by simp [hl, tailOf]⟩

/-- What `GetFileName` finds in a text cut at its last dot and at the last blank before it. -/
theorem getFileName_cut {mark stem r : Bytes} {x y : UInt8} (hdot : dot ∉ x :: r)
    (hblank : blank ∉ stem) (hfit : mark.length + stem.length + 2 < tmpBufSize) :
    getFileName ((y :: (mark ++ blank :: stem)) ++ dot :: x :: r) =
      .ok (some (stem ++ [dot, x])) := by
  have hfront : (y :: (mark ++ blank :: stem)).length = mark.length + stem.length + 2 := by
    simp only [List.length_cons, List.length_append]
    omega
  have htwo : ¬ ((y :: (mark ++ blank :: stem)) ++ dot :: x :: r).length -
      (mark.length + stem.length + 2) < 2 := by
    rw [List.length_append, hfront, List.length_cons, List.length_cons]
    omega
  have htmp : (((y :: (mark ++ blank :: stem)) ++ dot :: x :: r).drop (0 + 1)).take
      (mark.length + stem.length + 2) = mark ++ blank :: (stem ++ [dot]) := by
    have hcut : (y :: (mark ++ blank :: stem)) ++ dot :: x :: r =
        y :: ((mark ++ blank :: (stem ++ [dot])) ++ x :: r) := by simp
    rw [hcut, Nat.zero_add, List.drop_succ_cons, List.drop_zero]
    apply List.take_left'
    simp only [List.length_cons, List.length_append, List.length_nil]
    omega
  have hblank' : blank ∉ stem ++ [dot] := by
    rw [List.mem_append, not_or]
    exact ⟨hblank, by decide⟩
  have hname : (mark ++ blank :: (stem ++ [dot])).drop (mark.length + 1) = stem ++ [dot] := by
    rw [← List.drop_drop, List.drop_left]
    rfl
  have hext : ((y :: (mark ++ blank :: stem)) ++ dot :: x :: r).getD
      (mark.length + stem.length + 2 + 1) 0 = x := by
    rw [List.getD_eq_getElem?_getD, List.getElem?_append_right (by omega), hfront,
      Nat.add_sub_cancel_left]
    rfl
  unfold getFileName
  rw [strrchr_append hdot, hfront]
  simp only [if_neg htwo, if_neg (Nat.not_le.mpr hfit), if_neg (Nat.not_lt.mpr hfit.le),
    if_neg (Nat.ne_of_gt hfit), htmp, strrchr_append hblank', hext, hname]
  rw [List.append_assoc]
  rfl

theorem getFileName_unterminated {front r : Bytes} {x : UInt8} (hdot : dot ∉ x :: r)
    (hlen : front.length = tmpBufSize) :
    getFileName (front ++ dot :: x :: r) = .error .tmpBufUnterminated := by
  have htwo : ¬ (front ++ dot :: x :: r).length - tmpBufSize < 2 := by
    rw [List.length_append, List.length_cons, List.length_cons]
    omega
  unfold getFileName
  rw [strrchr_append hdot, hlen]
  simp only [if_neg htwo, lt_irrefl, if_false, if_true]

/-- The name of a marker line is found if the text in front of its dot fits `g_tmp_buf`. -/
theorem getFileName_name (mark : Bytes) {r : Bytes} {y : UInt8} (hr : dot ∉ r)
    (hfit : mark.length + n.bytes.length < tmpBufSize) :
    getFileName (y :: (mark ++ blank :: (n.bytes ++ r))) = .ok (some n.bytes) := by
  have hsrc : y :: (mark ++ blank :: (n.bytes ++ r)) =
      (y :: (mark ++ blank :: n.stem)) ++ dot :: n.ext :: r := by simp [FileName.bytes]
  have hdot : dot ∉ n.ext :: r := by
    rw [List.mem_cons, not_or]
    exact ⟨fun h => n.ext_char.2.2.2 h.symm, hr⟩
  have hlen : n.bytes.length = n.stem.length + 2 := by simp [FileName.bytes]
  rw [hsrc]
  exact getFileName_cut hdot (fun h => (n.stem_char _ h).1 rfl) (by omega)

/-- What a found name was copied from. -/
theorem exists_of_getFileName {src name : Bytes} (h : getFileName src = .ok (some name)) :
    ∃ len j, len < tmpBufSize ∧ strrchr dot src = some len ∧
      strrchr blank ((src.drop 1).take len) = some j ∧
      name = ((src.drop 1).take len).drop (j + 1) ++ [src.getD (len + 1) 0] := by
  unfold getFileName at h
  split at h
  · cases h
  · next len hlen =>
      by_cases hlt : len < tmpBufSize
      · simp only [if_neg (Nat.not_le.mpr hlt), if_neg (Nat.not_lt.mpr hlt.le),
          if_neg (Nat.ne_of_gt hlt), Nat.zero_add] at h
        split at h
        · cases h
        · split at h
          · cases h
          · next j hj =>
              simp only [Except.ok.injEq, Option.some.injEq] at h
              exact ⟨len, j, hlt, hlen, hj, h.symm⟩
      · simp only [if_pos (Nat.not_lt.mp hlt)] at h
        split_ifs at h <;> first | cases h | omega

/-- Behind a begin marker no longer name is found: the 26 characters between the first one and
the name take their part of `g_tmp_buf`. -/
theorem length_of_getFileName {r name : Bytes}
    (h : getFileName (beginMark ++ blank :: r) = .ok (some name)) : name.length ≤ 486 := by
  obtain ⟨len, j, hlt, hdot, hblank, rfl⟩ := exists_of_getFileName h
  obtain ⟨front, back, hsrc, -, rfl⟩ := exists_of_strrchr hdot
  obtain ⟨a, d, htmp, hd, rfl⟩ := exists_of_strrchr hblank
  have hmark : (beginMark ++ [blank]).length = 27 := rfl
  have hcat : beginMark ++ blank :: r = (beginMark ++ [blank]) ++ r := by simp
  -- the last dot is not part of the marker
  have hfront : 27 ≤ front.length := by
    by_contra hshort
    have hat : (beginMark ++ blank :: r)[front.length]? = some dot := by
      rw [hsrc, List.getElem?_append_right le_rfl, Nat.sub_self]
      rfl
    rw [hcat, List.getElem?_append_left (by omega)] at hat
    exact absurd (List.mem_of_getElem? hat) (by decide)
  -- and the blank behind the marker is copied
  have hcopied : (a ++ blank :: d)[25]? = some blank := by
    rw [← htmp, List.getElem?_take_of_lt (by omega), List.getElem?_drop]
    rfl
  have ha : 25 ≤ a.length := by
    by_contra hshort
    rw [List.getElem?_append_right (by omega),
      show 25 - a.length = (24 - a.length) + 1 by omega, List.getElem?_cons_succ] at hcopied
    exact hd (List.mem_of_getElem? hcopied)
  have hlen : a.length + d.length + 1 ≤ front.length := by
    have hle := List.length_take_le front.length ((beginMark ++ blank :: r).drop 1)
    rw [htmp, List.length_append, List.length_cons] at hle
    omega
  rw [htmp, ← List.drop_drop, List.drop_left]
  have htmpBuf : tmpBufSize = 512 := rfl
  simp only [List.drop_succ_cons, List.drop_zero, List.length_append, List.length_cons,
    List.length_nil]
  omega

theorem unmarked_of_notMem {c : Bytes} (hz : 0 ∉ c) (hb : 66 ∉ c) (he : 69 ∉ c) : Unmarked c where
  zero_notMem := hz
  not_begin := fun h => hb (h.subset (by decide))
  not_end := fun h => he (h.subset (by decide))

/-- The pieces of a marker line behind the first one show no marker. -/
theorem unmarked_drop {mark : Bytes} {k : ℕ} {br : Bytes} (hbr : br = [] ∨ br = [newline])
    (hlen : mark.length + n.bytes.length < 8191) :
    Unmarked ((mark ++ blank :: (n.bytes ++ tailOf k br)).drop 8191) := by
  have hsub : (mark ++ blank :: (n.bytes ++ tailOf k br)).drop 8191 ⊆ tailOf k br := by
    have hcut : mark ++ blank :: (n.bytes ++ tailOf k br) =
        (mark ++ blank :: n.bytes) ++ tailOf k br := by simp
    have hle : (mark ++ blank :: n.bytes).length ≤ 8191 := by
      simp only [List.length_append, List.length_cons]
      omega
    rw [hcut, List.drop_append, List.drop_of_length_le hle, List.nil_append]
    exact List.drop_subset _ _
  apply unmarked_of_notMem
  · exact fun h => notMem_tailOf hbr (by decide) (hsub h)
  · exact fun h => notMem_tailOf hbr (by decide) (hsub h)
  · exact fun h => notMem_tailOf hbr (by decide) (hsub h)

/-- No begin marker on an end line: of its blanks, none stands between a star and a `B`. -/
theorem not_begin_of_end {k : ℕ} {br : Bytes} (hbr : br = [] ∨ br = [newline]) :
    ¬ beginMark <:+: endMark ++ blank :: (n.bytes ++ tailOf k br) := by
  intro h
  have hkey : [star, blank, 66] <:+: beginMark := by decide
  have hend : endMark ++ blank :: (n.bytes ++ tailOf k br) = stars ++ blank ::
      ([69, 110, 100] ++ blank :: ([111, 102] ++ blank :: (n.bytes ++ tailOf k br))) := by
    simp [endMark, blank]
  have hstars := hkey.trans h
  rw [hend] at hstars
  rcases infix_around hstars (by decide) (by decide) with ⟨-, h⟩ | hword
  · simp at h
  rcases infix_around hword (by decide) (by decide) with ⟨h, -⟩ | hword
  · exact absurd h (by decide)
  rcases infix_around hword (by decide) (by decide) with ⟨h, -⟩ | hname
  · exact absurd h (by decide)
  -- the blank behind the name is followed by a star or a slash
  have htail : n.bytes ++ tailOf k br =
      n.bytes ++ blank :: (List.replicate k star ++ slash :: br) := by simp [tailOf, closing]
  rw [htail] at hname
  rcases infix_around hname (fun h => (FileName.ne_of_mem h).1 rfl) (by decide) with ⟨-, h⟩ | hlast
  · cases k with
    | zero => exact absurd h (by simp [slash])
    | succ k => exact absurd h (by simp [List.replicate_succ, star])
  · have hmem : (66 : UInt8) ∈ tailOf k br := by
      have := hlast.subset (show (66 : UInt8) ∈ [star, blank, 66] by simp)
      simp only [tailOf, closing, List.cons_append, List.append_assoc, List.mem_cons]
      right
      simpa using this
    exact notMem_tailOf hbr (by decide) hmem

end Hatch.Split
