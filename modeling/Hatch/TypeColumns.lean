import Hatch.TypeStatement

/-!
# Column lists

A column is a name, a type and what follows it: arguments, constraints and blanks, with commas
only inside brackets. The rewriter replaces the types of all columns, and nothing else, exactly
if behind every type there is a `(` or the end of the column and no column has a comma.
-/

namespace Hatch.Types

open ByteLayout (Bytes cstr)
open CString

/-- Brackets are closed, and commas stand inside them; `d` brackets are open. -/
def Enclosed : ℕ → Bytes → Prop
  | d, [] => d = 0
  | d, c :: r =>
      if c = lparen then Enclosed (d + 1) r
      else if c = rparen then 0 < d ∧ Enclosed (d - 1) r
      else (c = comma → 0 < d) ∧ Enclosed d r

instance decidableEnclosed : ∀ d b, Decidable (Enclosed d b)
  | d, [] => inferInstanceAs (Decidable (d = 0))
  | d, c :: r =>
      have := decidableEnclosed (d + 1) r
      have := decidableEnclosed (d - 1) r
      have := decidableEnclosed d r
      inferInstanceAs (Decidable (if c = lparen then Enclosed (d + 1) r
        else if c = rparen then 0 < d ∧ Enclosed (d - 1) r
        else (c = comma → 0 < d) ∧ Enclosed d r))

/-- A column definition. The type is spelled as in the table: single blanks, if any. -/
structure Column where
  lead : Bytes
  name : Bytes
  sep : Bytes
  type : Bytes
  rest : Bytes
  lead_blank : ∀ c ∈ lead, toBlank c = blank
  name_ne : name ≠ []
  name_char : ∀ c ∈ name, toBlank c ≠ blank ∧ c ≠ comma
  sep_ne : sep ≠ []
  sep_blank : ∀ c ∈ sep, toBlank c = blank
  type_ne : type ≠ []
  type_char : ∀ c ∈ type, toBlank c = c ∧ c ≠ lparen ∧ c ≠ comma
  type_runs : Squeeze.runs blank type = type
  type_head : type.head? ≠ some blank
  type_last : type.getLast? ≠ some blank
  rest_head : ∀ c ∈ rest.head?, c = lparen ∨ toBlank c = blank
  rest_enclosed : Enclosed 0 rest

namespace Column

variable (col : Column)

def text : Bytes := col.lead ++ (col.name ++ (col.sep ++ (col.type ++ col.rest)))

def tidyRest : Bytes := Squeeze.runs blank (col.rest.map toBlank)

def replaced (t : Table) : Bytes :=
  col.name ++ blank :: ((t.lookup col.type).getD [] ++ col.tidyRest)

/-- The type ends at a `(` or at the end of the column, which has no comma. -/
def Direct : Prop := (col.rest = [] ∨ col.rest.head? = some lparen) ∧ comma ∉ col.rest

end Column

/-- A statement whose column list is made of columns. -/
structure CreateTable where
  header : Bytes
  columns : List Column
  tail : Bytes
  lparen_notMem : lparen ∉ header
  rparen_notMem : rparen ∉ tail
  zero_notMem : 0 ∉ header ++ [comma].intercalate (columns.map Column.text) ++ tail
  two_le : 2 ≤ header.length

namespace CreateTable

variable (ct : CreateTable)

def statement : Statement where
  header := ct.header
  list := [comma].intercalate (ct.columns.map Column.text)
  tail := ct.tail
  lparen_notMem := ct.lparen_notMem
  rparen_notMem := ct.rparen_notMem
  zero_notMem := ct.zero_notMem

def replaced (t : Table) : Bytes :=
  ct.statement.withList ([comma].intercalate (ct.columns.map fun col => col.replaced t))

end CreateTable

variable {t : Table} {col : Column} {cols : List Column} {p : Bytes}

/-! ### A squeezed column -/

theorem map_toBlank_of_blank {l : Bytes} (h : ∀ c ∈ l, toBlank c = blank) :
    ∀ c ∈ l.map toBlank, c = blank :=
  List.forall_mem_map.mpr h

theorem toBlank_of_ne {c : UInt8} (h : toBlank c ≠ blank) : toBlank c = c := by
  unfold toBlank at h ⊢
  split
  · next hc => exact absurd (if_pos hc) h
  · rfl

theorem Column.map_name (col : Column) : col.name.map toBlank = col.name :=
  (List.map_congr_left fun c hc => toBlank_of_ne (col.name_char c hc).1).trans (List.map_id _)

theorem Column.blank_notMem_name (col : Column) : blank ∉ col.name := fun h =>
  (col.name_char blank h).1 (by decide)

theorem Column.map_type (col : Column) : col.type.map toBlank = col.type :=
  (List.map_congr_left fun c hc => (col.type_char c hc).1).trans (List.map_id _)

/-- Only the type and what follows it can be seen behind the first blank. -/
theorem Column.squeezed_text (col : Column) :
    squeezed col.text = col.name ++ blank :: (col.type ++ col.tidyRest) := by
  have hsep : (col.sep.map toBlank) ≠ [] := by simpa using col.sep_ne
  have hname : col.name.getLast? ≠ some blank := fun h =>
    col.blank_notMem_name (List.mem_of_getLast? h)
  have hhead : (col.type ++ col.rest.map toBlank).head? ≠ some blank := by
    rw [List.head?_append_of_ne_nil _ col.type_ne]
    exact col.type_head
  have hdrop : (col.text.map toBlank).dropWhile (fun c => c = blank) =
      col.name ++ (col.sep.map toBlank ++ (col.type ++ col.rest.map toBlank)) := by
    simp only [Column.text, List.map_append, col.map_name, col.map_type]
    rw [List.dropWhile_append_of_pos
      (fun c hc => decide_eq_true (map_toBlank_of_blank col.lead_blank c hc))]
    obtain ⟨c, r, hcr⟩ := List.exists_cons_of_ne_nil col.name_ne
    have hc : c ≠ blank := fun h => col.blank_notMem_name (by simp [hcr, h])
    rw [hcr, List.cons_append, List.dropWhile_cons_of_neg (by simpa using hc)]
  unfold squeezed Squeeze.squeeze
  rw [hdrop, Squeeze.runs_append (.inl hname), Squeeze.runs_of_notMem col.blank_notMem_name,
    Squeeze.runs_append (.inr hhead),
    Squeeze.runs_of_forall hsep (map_toBlank_of_blank col.sep_blank),
    Squeeze.runs_append (.inl col.type_last), col.type_runs]
  rfl

theorem Column.lparen_notMem_type (col : Column) : lparen ∉ col.type := fun h =>
  (col.type_char lparen h).2.1 rfl

theorem Column.head?_tidyRest (col : Column) :
    col.tidyRest.head? = (col.rest.head?).map toBlank := by
  rw [Column.tidyRest, Squeeze.head?_runs, List.head?_map]

/-- Behind the type nothing is taken for a part of it exactly if nothing is there or a `(`. -/
theorem Column.takeWhile_type (col : Column) :
    (col.type ++ col.tidyRest).takeWhile (fun c => c ≠ lparen) = col.type ↔
      col.rest = [] ∨ col.rest.head? = some lparen := by
  have htype : ∀ c ∈ col.type, decide (c ≠ lparen) = true := fun c hc =>
    decide_eq_true fun he => col.lparen_notMem_type (he ▸ hc)
  rw [List.takeWhile_append_of_pos htype]
  have hhead := col.head?_tidyRest
  cases hrest : col.rest with
  | nil =>
      have hnil : col.tidyRest = [] := by rw [Column.tidyRest, hrest]; rfl
      simp [hnil]
  | cons c r =>
      rw [hrest] at hhead
      obtain ⟨x, y, hxy⟩ : ∃ x y, col.tidyRest = x :: y := by
        cases htidy : col.tidyRest with
        | nil => simp [htidy] at hhead
        | cons x y => exact ⟨x, y, rfl⟩
      have hx : x = toBlank c := by simpa [hxy] using hhead
      by_cases hc : c = lparen
      · have hxl : x = lparen := by rw [hx, hc]; decide
        simp [hxy, hxl, hc]
      · have hxl : x ≠ lparen := fun h => hc (toBlank_ne (by decide) (hx.symm.trans h))
        simp [hxy, hxl, hc]

theorem Column.pieceType_text (col : Column) :
    pieceType (squeezed col.text) =
      (col.type ++ col.tidyRest).takeWhile (fun c => c ≠ lparen) := by
  rw [col.squeezed_text, pieceType_append col.blank_notMem_name]

theorem Column.rewritePiece_text {u : Bytes} (col : Column) (hu : t.lookup col.type = some u)
    (h : col.rest = [] ∨ col.rest.head? = some lparen) :
    rewritePiece t (squeezed col.text) = some (col.replaced t) := by
  have htake := col.takeWhile_type.mpr h
  have hdrop : (col.type ++ col.tidyRest).dropWhile (fun c => c ≠ lparen) = col.tidyRest := by
    have hcat := List.takeWhile_append_dropWhile (p := fun c => decide (c ≠ lparen))
      (l := col.type ++ col.tidyRest)
    rw [htake] at hcat
    exact List.append_cancel_left hcat
  rw [col.squeezed_text, rewritePiece_append col.blank_notMem_name, htake, hdrop, hu,
    Column.replaced, hu]
  rfl

/-! ### Commas -/

/-- An open bracket is closed later. -/
theorem Enclosed.rparen_mem {d : ℕ} {b : Bytes} (hd : 0 < d) (h : Enclosed d b) : rparen ∈ b := by
  induction b generalizing d with
  | nil => exact absurd h hd.ne'
  | cons c b ih =>
      rw [Enclosed] at h
      split_ifs at h with hl hr
      · exact List.mem_cons_of_mem c (ih (Nat.succ_pos d) h)
      · rw [hr]
        exact List.mem_cons_self
      · exact List.mem_cons_of_mem c (ih hd h.2)

theorem Enclosed.rparen_mem_of_comma {d : ℕ} {a b : Bytes} (h : Enclosed d (a ++ comma :: b)) :
    rparen ∈ b := by
  induction a generalizing d with
  | nil =>
      rw [List.nil_append, Enclosed, if_neg (by decide), if_neg (by decide)] at h
      exact Enclosed.rparen_mem (h.1 rfl) h.2
  | cons c a ih =>
      rw [List.cons_append, Enclosed] at h
      split_ifs at h with hl hr
      · exact ih h
      · exact ih h.2
      · exact ih h.2

theorem Column.comma_notMem_front (col : Column) :
    comma ∉ col.lead ++ (col.name ++ (col.sep ++ col.type)) := by
  intro hc
  simp only [List.mem_append] at hc
  rcases hc with hc | hc | hc | hc
  · exact absurd (col.lead_blank comma hc) (by decide)
  · exact (col.name_char comma hc).2 rfl
  · exact absurd (col.sep_blank comma hc) (by decide)
  · exact (col.type_char comma hc).2.2 rfl

theorem Column.text_eq (col : Column) :
    col.text = (col.lead ++ (col.name ++ (col.sep ++ col.type))) ++ col.rest := by
  simp [Column.text]

theorem Column.comma_mem_text (col : Column) : comma ∈ col.text ↔ comma ∈ col.rest := by
  rw [col.text_eq, List.mem_append, or_iff_right col.comma_notMem_front]

/-- Behind a comma of a column there is a closing bracket. -/
theorem Column.rparen_mem {a b : Bytes} (col : Column) (h : col.text = a ++ comma :: b) :
    rparen ∈ b := by
  rw [col.text_eq] at h
  rcases List.append_eq_append_iff.mp h with ⟨x, -, hrest⟩ | ⟨x, hx, hb⟩
  · exact Enclosed.rparen_mem_of_comma (hrest ▸ col.rest_enclosed)
  · cases x with
    | nil =>
        have hrest : col.rest = [] ++ comma :: b := by simpa using hb.symm
        exact Enclosed.rparen_mem_of_comma (hrest ▸ col.rest_enclosed)
    | cons y x =>
        obtain ⟨rfl, -⟩ := List.cons.inj hb
        exact absurd (hx ▸ List.mem_append_right _ List.mem_cons_self) col.comma_notMem_front

theorem squeezed_ne_nil {c : UInt8} (h : c ∈ p) (hc : toBlank c ≠ blank) : squeezed p ≠ [] := by
  intro hnil
  rw [squeezed, Squeeze.squeeze, Squeeze.runs_eq_nil, List.dropWhile_eq_nil_iff] at hnil
  exact hc (of_decide_eq_true (hnil _ (List.mem_map_of_mem h)))

theorem splitOn_append_cons (a b : Bytes) :
    (a ++ comma :: b).splitOn comma = a.splitOn comma ++ b.splitOn comma := by
  simp only [List.splitOn_eq_splitOnP]
  exact List.splitOnP_append_cons a b (by decide)

theorem splitOn_eq_singleton (h : comma ∉ p) : p.splitOn comma = [p] := by
  rw [List.splitOn_eq_splitOnP]
  exact List.splitOnP_eq_singleton fun c hc => by
    simpa using fun he : c = comma => h (he ▸ hc)

/-- The last piece of a text in which a bracket is closed behind every comma. -/
theorem getLast?_splitOn {s : Bytes} (hs : ∀ a b, s = a ++ comma :: b → rparen ∈ b)
    (h : (s.splitOn comma).getLast? = some p) : p = s ∨ rparen ∈ p := by
  induction hl : s.length using Nat.strong_induction_on generalizing s with
  | _ l ih =>
      by_cases hc : comma ∈ s
      · obtain ⟨a, b, rfl, ha⟩ := List.eq_append_cons_of_mem hc
        rw [splitOn_append_cons,
          List.getLast?_append_of_ne_nil _ (List.splitOn_ne_nil comma b)] at h
        have hb : ∀ x y, b = x ++ comma :: y → rparen ∈ y := fun x y hxy =>
          hs (a ++ comma :: x) y (by simp [hxy])
        have hlt : b.length < l := by
          rw [← hl, List.length_append, List.length_cons]
          omega
        rcases ih _ hlt hb h rfl with rfl | hp
        · exact .inr (hs a p rfl)
        · exact .inr hp
      · rw [splitOn_eq_singleton hc] at h
        exact .inl (Option.some.inj h).symm

/-- The last piece of a column is not blank. -/
theorem Column.last_ne_nil (col : Column) (h : (col.text.splitOn comma).getLast? = some p) :
    squeezed p ≠ [] := by
  rcases getLast?_splitOn (fun a b hab => col.rparen_mem hab) h with rfl | hp
  · rw [col.squeezed_text]
    exact List.append_ne_nil_of_left_ne_nil col.name_ne _
  · exact squeezed_ne_nil hp (by decide)

/-! ### The pieces of a column list -/

theorem splitOn_columns (hne : cols ≠ []) :
    ([comma].intercalate (cols.map Column.text)).splitOn comma =
      cols.flatMap fun col => col.text.splitOn comma := by
  induction cols with
  | nil => exact absurd rfl hne
  | cons col cols ih =>
      cases cols with
      | nil => simp
      | cons col' cols =>
          have htail := ih (List.cons_ne_nil col' cols)
          rw [List.map_cons, List.map_cons, List.intercalate_cons_cons, List.append_assoc,
            List.singleton_append, splitOn_append_cons, List.flatMap_cons, ← htail,
            List.map_cons]

theorem last_columns_ne_nil (h : (cols.flatMap fun col => col.text.splitOn comma).getLast? =
    some p) : squeezed p ≠ [] := by
  induction cols with
  | nil => simp at h
  | cons col cols ih =>
      rw [List.flatMap_cons] at h
      by_cases hnil : (cols.flatMap fun col => col.text.splitOn comma) = []
      · rw [hnil, List.append_nil] at h
        exact col.last_ne_nil h
      · rw [List.getLast?_append_of_ne_nil _ hnil] at h
        exact ih h

theorem typesOf_eq_map {ps : List Bytes} (h : ∀ p, ps.getLast? = some p → p ≠ []) :
    typesOf ps = ps.map pieceType := by
  induction ps with
  | nil => rfl
  | cons p ps ih =>
      cases ps with
      | nil => simp [typesOf, h p rfl]
      | cons q ps =>
          have htail := ih fun r hr => h r (by rw [List.getLast?_cons_cons]; exact hr)
          rw [typesOf, htail]
          · rfl
          · simp

/-- The type texts that are looked up, piece by piece. -/
theorem typesOf_columns (cols : List Column) :
    typesOf ((([comma].intercalate (cols.map Column.text)).splitOn comma).map squeezed) =
      cols.flatMap fun col => (col.text.splitOn comma).map fun p => pieceType (squeezed p) := by
  by_cases hne : cols = []
  · subst hne
    decide
  · rw [splitOn_columns hne, typesOf_eq_map]
    · rw [List.map_map, List.map_flatMap]
      rfl
    · intro q hq
      rw [List.getLast?_map, Option.map_eq_some_iff] at hq
      obtain ⟨p, hp, rfl⟩ := hq
      exact last_columns_ne_nil hp

/-- As many pieces as columns: no column was cut. -/
theorem flatMap_eq_map {f : Column → List Bytes} {g : Column → Bytes}
    (hf : ∀ col ∈ cols, f col ≠ []) (h : cols.flatMap f = cols.map g) :
    ∀ col ∈ cols, f col = [g col] := by
  have hlen : ∀ cs : List Column, (∀ col ∈ cs, f col ≠ []) →
      cs.length ≤ (cs.flatMap f).length := by
    intro cs
    induction cs with
    | nil => simp
    | cons col cs ih =>
        intro hcs
        have hpos := List.length_pos_iff.mpr (hcs col List.mem_cons_self)
        have htail := ih fun c hc => hcs c (List.mem_cons_of_mem col hc)
        rw [List.flatMap_cons, List.length_append, List.length_cons]
        omega
  induction cols with
  | nil => simp
  | cons col cols ih =>
      have htail : ∀ c ∈ cols, f c ≠ [] := fun c hc => hf c (List.mem_cons_of_mem col hc)
      rw [List.flatMap_cons, List.map_cons] at h
      obtain ⟨x, y, hxy⟩ := List.exists_cons_of_ne_nil (hf col List.mem_cons_self)
      rw [hxy, List.cons_append] at h
      obtain ⟨rfl, hrest⟩ := List.cons.inj h
      have hy : y = [] := by
        have hle := hlen cols htail
        have heq := congrArg List.length hrest
        rw [List.length_append, List.length_map] at heq
        exact List.length_eq_zero_iff.mp (by omega)
      rw [hy, List.nil_append] at hrest
      intro c hc
      rcases List.mem_cons.mp hc with rfl | hc
      · rw [hxy, hy]
      · exact ih htail hrest c hc

/-- The texts looked up are the types exactly if every column is direct. -/
theorem typesOf_columns_iff (cols : List Column) :
    typesOf ((([comma].intercalate (cols.map Column.text)).splitOn comma).map squeezed) =
      cols.map Column.type ↔ ∀ col ∈ cols, col.Direct := by
  rw [typesOf_columns]
  constructor
  · intro h col hcol
    have hone := flatMap_eq_map (fun c _ => by simp [List.splitOn_ne_nil]) h col hcol
    obtain ⟨p, hp⟩ : ∃ p, col.text.splitOn comma = [p] := by
      rw [← List.length_eq_one_iff, ← List.length_map (fun p => pieceType (squeezed p)), hone]
      rfl
    have htext : p = col.text := by
      have hcat : [comma].intercalate (col.text.splitOn comma) = col.text :=
        List.intercalate_splitOn comma
      rw [hp, List.intercalate_singleton] at hcat
      exact hcat
    rw [hp, htext, List.map_singleton, List.cons.injEq, col.pieceType_text] at hone
    refine ⟨col.takeWhile_type.mp hone.1, fun hc => ?_⟩
    have hmem : col.text ∈ col.text.splitOn comma := by
      rw [hp, htext]
      exact List.mem_singleton_self _
    exact splitOn_comma_notMem hmem (col.comma_mem_text.mpr hc)
  · intro h
    rw [List.map_eq_flatMap]
    refine List.flatMap_congr fun col hcol => ?_
    have hdirect := h col hcol
    rw [splitOn_eq_singleton fun hc => hdirect.2 (col.comma_mem_text.mp hc), List.map_singleton,
      col.pieceType_text, col.takeWhile_type.mpr hdirect.1]

/-! ### The statement -/

/-- Columns that are direct are rewritten as they should be. -/
theorem rewriteList_columns (hknown : ∀ col ∈ cols, ∃ u, t.lookup col.type = some u)
    (h : ∀ col ∈ cols, col.Direct) :
    rewriteList t ((([comma].intercalate (cols.map Column.text)).splitOn comma).map squeezed) =
      some ([comma].intercalate (cols.map fun col => col.replaced t)) := by
  by_cases hne : cols = []
  · subst hne
    rfl
  rw [splitOn_columns hne]
  induction cols with
  | nil => exact absurd rfl hne
  | cons col cols ih =>
      obtain ⟨u, hu⟩ := hknown col List.mem_cons_self
      have hdirect := h col List.mem_cons_self
      have hpiece := col.rewritePiece_text hu hdirect.1
      have hsplit := splitOn_eq_singleton fun hc => hdirect.2 (col.comma_mem_text.mp hc)
      have htext : squeezed col.text ≠ [] := by
        rw [col.squeezed_text]
        exact List.append_ne_nil_of_left_ne_nil col.name_ne _
      rw [List.flatMap_cons, hsplit, List.singleton_append, List.map_cons]
      cases cols with
      | nil => simpa [rewriteList, htext] using hpiece
      | cons col' cols =>
          have htail := ih (fun c hc => hknown c (List.mem_cons_of_mem col hc))
            (fun c hc => h c (List.mem_cons_of_mem col hc)) (List.cons_ne_nil col' cols)
          obtain ⟨q, qs, hqs⟩ := List.exists_cons_of_ne_nil
            (show (((col' :: cols).flatMap fun c => c.text.splitOn comma).map squeezed) ≠ [] by
              simp [List.splitOn_ne_nil])
          rw [hqs] at htail ⊢
          rw [rewriteList_cons.mpr ⟨_, _, hpiece, htail, rfl⟩]
          simp only [List.map_cons, List.intercalate_cons_cons, List.append_assoc,
            List.singleton_append]

theorem CreateTable.four_le (ct : CreateTable) : 4 ≤ ct.statement.text.length := by
  have := ct.two_le
  simp only [Statement.text, CreateTable.statement, List.length_append, List.length_cons]
  omega

theorem pieces_of_direct (ct : CreateTable) (h : ∀ col ∈ ct.columns, col.Direct)
    (hlen : ∀ col ∈ ct.columns, (squeezed col.text).length < uxTypeNameLength) :
    ∀ p ∈ ct.statement.pieces, p.length < uxTypeNameLength := by
  intro p hp
  obtain ⟨q, hq, rfl⟩ := List.mem_map.mp hp
  by_cases hne : ct.columns = []
  · have hnil : q = [] := by simpa [CreateTable.statement, hne] using hq
    rw [hnil]
    decide
  · change q ∈ ([comma].intercalate (ct.columns.map Column.text)).splitOn comma at hq
    rw [splitOn_columns hne, List.mem_flatMap] at hq
    obtain ⟨col, hcol, hq⟩ := hq
    rw [splitOn_eq_singleton fun hc => (h col hcol).2 (col.comma_mem_text.mp hc),
      List.mem_singleton] at hq
    rw [hq]
    exact hlen col hcol

/-- `TransformSql` returns zero and replaces exactly the types of the columns if and only if
every column is direct. -/
theorem transformSql_replaces_iff (t : Table) (ct : CreateTable)
    (hknown : ∀ col ∈ ct.columns, ∃ u, t.lookup col.type = some u)
    (hlen : ∀ col ∈ ct.columns, (squeezed col.text).length < uxTypeNameLength)
    (hfit : (ct.replaced t).length < ct.statement.text.length * 2)
    (hint : (ct.statement.text.length : ℤ) * 2 ≤ intMax) :
    (∃ r mem, transformSql t (some ct.statement.text) ct.statement.text.length true true =
        .ok r ∧ r.ret = 0 ∧ r.uxSql = some mem ∧ cstr mem 0 = ct.replaced t ∧
        r.replaced = ct.columns.map Column.type) ↔
      ∀ col ∈ ct.columns, col.Direct := by
  constructor
  · rintro ⟨r, mem, hr, hzero, -, -, hrep⟩
    obtain ⟨-, out, -, -, -, rfl⟩ :=
      (transformSql_zero ct.statement ct.statement.text.length true true).mp ⟨hr, hzero⟩
    exact (typesOf_columns_iff ct.columns).mp hrep
  · intro h
    have hout := rewriteList_columns hknown h
    have hfour : (4 : ℤ) ≤ ct.statement.text.length := by exact_mod_cast ct.four_le
    have hlt : (ct.replaced t).length < ((ct.statement.text.length : ℤ) * 2).toNat := by omega
    obtain ⟨hr, hzero⟩ :=
      (transformSql_zero (t := t) ct.statement ct.statement.text.length true true).mpr
        ⟨⟨hfour, hint, rfl, rfl⟩, _, hout, pieces_of_direct ct h hlen, hlt, rfl⟩
    refine ⟨_, _, hr, hzero, rfl, ?_, (typesOf_columns_iff ct.columns).mpr h⟩
    exact cstr_buffer (ct.statement.zero_notMem_withList hout) (Nat.sub_pos_of_lt hlt)

/-- The column `a NUMBER` and what follows it, which starts with `c`. -/
def numberColumn (c : UInt8) (r : Bytes) (hc : c = lparen ∨ toBlank c = blank)
    (henclosed : Enclosed 0 (c :: r)) : Column where
  lead := []
  name := [97]
  sep := [32]
  type := [78, 85, 77, 66, 69, 82]
  rest := c :: r
  lead_blank := nofun
  name_ne := by decide
  name_char := List.forall_mem_singleton.mpr (by decide)
  sep_ne := by decide
  sep_blank := List.forall_mem_singleton.mpr (by decide)
  type_ne := by decide
  type_char := by simp [toBlank, tab, newline, carriageReturn, lparen, comma]
  type_runs := by decide
  type_head := by decide
  type_last := by decide
  rest_head := fun _ h => Option.some.inj h ▸ hc
  rest_enclosed := henclosed

/-- The statement `tab(a NUMBER(10) not null)`. -/
def numberTen : CreateTable where
  header := tabHeader
  columns := [numberColumn 40 [49, 48, 41, 32, 110, 111, 116, 32, 110, 117, 108, 108]
    (by decide) (by decide)]
  tail := []
  lparen_notMem := lparen_notMem_tabHeader
  rparen_notMem := List.not_mem_nil
  zero_notMem := by decide
  two_le := by decide

theorem transformSql_replaces_numberTen :
    ∃ r mem, transformSql numbers (some numberTen.statement.text)
        numberTen.statement.text.length true true = .ok r ∧ r.ret = 0 ∧ r.uxSql = some mem ∧
        cstr mem 0 = numberTen.replaced numbers ∧
        r.replaced = numberTen.columns.map Column.type :=
  (transformSql_replaces_iff numbers numberTen
    (List.forall_mem_singleton.mpr ⟨[78, 85, 77, 69, 82, 73, 67], by decide⟩)
    (by decide) (by decide) (by decide)).mpr
    (List.forall_mem_singleton.mpr ⟨.inr rfl, by decide⟩)

/-- The statement `tab(a NUMBER(10,2))`. -/
def numberTenTwo : CreateTable where
  header := tabHeader
  columns := [numberColumn 40 [49, 48, 44, 50, 41] (by decide) (by decide)]
  tail := []
  lparen_notMem := lparen_notMem_tabHeader
  rparen_notMem := List.not_mem_nil
  zero_notMem := by decide
  two_le := by decide

/-- The statement `tab(a NUMBER not null)`. -/
def numberNotNull : CreateTable where
  header := tabHeader
  columns := [numberColumn 32 [110, 111, 116, 32, 110, 117, 108, 108] (by decide) (by decide)]
  tail := []
  lparen_notMem := lparen_notMem_tabHeader
  rparen_notMem := List.not_mem_nil
  zero_notMem := by decide
  two_le := by decide

/-- The arguments `10,2` are cut at their comma, and `NUMBER not null` is looked up as a
type. -/
theorem transformSql_rejects :
    (transformSql numbers (some numberTenTwo.statement.text)
      numberTenTwo.statement.text.length true true).map Result.ret =
        .ok TransformErr.syntaxErr.code ∧
    (transformSql numbers (some numberNotNull.statement.text)
      numberNotNull.statement.text.length true true).map Result.ret =
        .ok TransformErr.unidentifiedErr.code := by
  constructor
  · rfl
  · rfl

end Hatch.Types
