import Hatch.Squeeze
import Hatch.TypesTransform
import Mathlib.Data.List.Induction

/-!
# The rewriting of a statement

`rewriting` says what the type rewriter is for: the column list is cut at its commas, the
blanks of a piece are squeezed, and the text between its first blank and the next `(` is
replaced by what the table has for it. `TransformSql` returns zero with exactly this text.
-/

namespace Hatch.Types

open ByteLayout (Bytes cstr)
open CString

/-! ### The intended text -/

def Table.lookup (t : Table) (oType : Bytes) : Option Bytes :=
  (getMappingUXTypeName t oType).toOption.map Prod.fst

def squeezed (p : Bytes) : Bytes := Squeeze.squeeze blank (p.map toBlank)

def cutPiece (p : Bytes) : Option (Bytes × Bytes × Bytes) :=
  match p.dropWhile (fun c => c ≠ blank) with
  | [] => none
  | _ :: r => some (p.takeWhile (fun c => c ≠ blank), r.takeWhile (fun c => c ≠ lparen),
      r.dropWhile (fun c => c ≠ lparen))

def rewritePiece (t : Table) (p : Bytes) : Option Bytes := do
  let (name, oType, rest) ← cutPiece p
  let uxType ← t.lookup oType
  return name ++ blank :: (uxType ++ rest)

/-- The pieces with commas between them; a last piece without text is left out. -/
def rewriteList (t : Table) : List Bytes → Option Bytes
  | [] => some []
  | [p] => if p = [] then some [] else rewritePiece t p
  | p :: ps => do
      let a ← rewritePiece t p
      let b ← rewriteList t ps
      return a ++ comma :: b

/-- A statement with a `(` in front of its last `)`. -/
structure Statement where
  header : Bytes
  list : Bytes
  tail : Bytes
  lparen_notMem : lparen ∉ header
  rparen_notMem : rparen ∉ tail
  zero_notMem : 0 ∉ header ++ list ++ tail

def Statement.text (stmt : Statement) : Bytes :=
  stmt.header ++ lparen :: (stmt.list ++ rparen :: stmt.tail)

def Statement.pieces (stmt : Statement) : List Bytes := (stmt.list.splitOn comma).map squeezed

def Statement.rewriting (t : Table) (stmt : Statement) : Option Bytes :=
  (rewriteList t stmt.pieces).map fun list =>
    stmt.header ++ lparen :: (list ++ rparen :: stmt.tail)

def pieceType (p : Bytes) : Bytes :=
  ((p.dropWhile (fun c => c ≠ blank)).drop 1).takeWhile (fun c => c ≠ lparen)

def typesOf : List Bytes → List Bytes
  | [] => []
  | [p] => if p = [] then [] else [pieceType p]
  | p :: ps => pieceType p :: typesOf ps

variable {t : Table} {p w out : Bytes} {k uxSch : ℕ} {s s' : State}

/-! ### The output buffer -/

def buffer (w : Bytes) (k : ℕ) : Bytes := w ++ List.replicate k 0

theorem store_buffer (w d : Bytes) (k : ℕ) :
    store (buffer w k) w.length d =
      if d.length ≤ k then .ok (buffer (w ++ d) (k - d.length)) else .error .uxSqlOverflow := by
  have hlen : (buffer w k).length = w.length + k := by simp [buffer]
  unfold store
  by_cases h : d.length ≤ k
  · rw [if_pos (by omega), if_pos h]
    simp [ByteLayout.patch, buffer, List.drop_append]
  · rw [if_neg (by omega), if_neg h]

theorem strcpy_buffer (w d : Bytes) (k : ℕ) :
    strcpy (buffer w k) w.length d =
      if d.length < k then .ok (buffer (w ++ d) (k - d.length)) else .error .uxSqlOverflow := by
  rw [strcpy, store_buffer, List.length_append, List.length_singleton]
  by_cases h : d.length < k
  · rw [if_pos (Nat.succ_le_of_lt h), if_pos h]
    obtain ⟨j, rfl⟩ := Nat.exists_eq_add_of_lt h
    have hj : d.length + j + 1 - (d.length + 1) = j := by omega
    have hj' : d.length + j + 1 - d.length = j + 1 := by omega
    rw [hj, hj']
    simp [buffer, List.replicate_succ]
  · rw [if_neg fun hc => h (Nat.lt_of_succ_le hc), if_neg h]

/-- In a zeroed buffer `strcat` writes where it is told to. -/
theorem strcat_buffer (w d : Bytes) (k : ℕ) :
    strcat (buffer w k) w.length d =
      if d.length < k then .ok (buffer (w ++ d) (k - d.length)) else .error .uxSqlOverflow := by
  have hdrop : (buffer w k).drop w.length = List.replicate k 0 := by simp [buffer]
  unfold strcat
  rw [hdrop]
  cases k with
  | zero => rfl
  | succ k =>
      have hzero : strchr 0 (List.replicate (k + 1) (0 : UInt8)) = some 0 :=
        strchr_append (a := []) (by simp)
      rw [hzero]
      exact strcpy_buffer w d (k + 1)

theorem replaceType_buffer (w column uxType rest : Bytes) {pos : ℕ} (k : ℕ)
    (hpos : pos ≤ column.length) :
    replaceType (buffer w k) w.length column pos uxType rest =
      if pos + uxType.length + rest.length < k then
        .ok (buffer (w ++ (column.take pos ++ (uxType ++ rest)))
          (k - (pos + uxType.length + rest.length)), pos + uxType.length + rest.length)
      else .error .uxSqlOverflow := by
  have hcol : column.take pos ++ List.replicate (pos - column.length) 0 = column.take pos := by
    rw [Nat.sub_eq_zero_of_le hpos, List.replicate_zero, List.append_nil]
  have htake : (column.take pos).length = pos := List.length_take_of_le hpos
  have hone : w.length + pos = (w ++ column.take pos).length := by
    rw [List.length_append, htake]
  have htwo : w.length + (pos + uxType.length) = (w ++ column.take pos ++ uxType).length := by
    rw [List.length_append, ← hone]
    omega
  unfold replaceType strncpy
  rw [hcol, store_buffer, htake]
  by_cases h₁ : pos ≤ k
  · rw [if_pos h₁]
    change (strcat _ _ _ >>= _) = _
    rw [hone, strcat_buffer]
    by_cases h₂ : uxType.length < k - pos
    · rw [if_pos h₂]
      change (strcpy _ _ _ >>= _) = _
      rw [htwo, strcpy_buffer]
      by_cases h₃ : rest.length < k - pos - uxType.length
      · rw [if_pos h₃, if_pos (by omega)]
        have hk : k - pos - uxType.length - rest.length =
            k - (pos + uxType.length + rest.length) := by omega
        rw [hk, List.append_assoc, List.append_assoc]
        rfl
      · rw [if_neg h₃, if_neg (by omega)]
        rfl
    · rw [if_neg h₂, if_neg (by omega)]
      rfl
  · rw [if_neg h₁, if_neg (by omega)]
    rfl

/-! ### One column -/

theorem cutPiece_eq_none : cutPiece p = none ↔ blank ∉ p := by
  unfold cutPiece
  constructor
  · intro h hb
    obtain ⟨a, b, rfl, ha⟩ := List.eq_append_cons_of_mem hb
    rw [(takeWhile_ne_append ha).2] at h
    cases h
  · intro hb
    have hall : p.dropWhile (fun c => c ≠ blank) = [] := by
      rw [List.dropWhile_eq_nil_iff]
      exact fun c hc => decide_eq_true fun h => hb (h ▸ hc)
    rw [hall]

/-- The three texts of a piece with a blank. -/
theorem cutPiece_append {name r : Bytes} (hname : blank ∉ name) :
    cutPiece (name ++ blank :: r) = some (name, r.takeWhile (fun c => c ≠ lparen),
      r.dropWhile (fun c => c ≠ lparen)) := by
  unfold cutPiece
  rw [(takeWhile_ne_append hname).2, (takeWhile_ne_append hname).1]

theorem pieceType_append {name r : Bytes} (hname : blank ∉ name) :
    pieceType (name ++ blank :: r) = r.takeWhile (fun c => c ≠ lparen) := by
  unfold pieceType
  rw [(takeWhile_ne_append hname).2]
  rfl

theorem typeEnd_eq {r : Bytes} (hr : comma ∉ r) :
    typeEnd r = (r.takeWhile (fun c => c ≠ lparen)).length := by
  unfold typeEnd
  cases h : strchr lparen r with
  | some i =>
      obtain ⟨a, b, rfl, ha, rfl⟩ := exists_of_strchr h
      rw [(takeWhile_ne_append ha).1]
  | none =>
      have hall : r.takeWhile (fun c => c ≠ lparen) = r := by
        rw [List.takeWhile_eq_self_iff]
        exact fun c hc => decide_eq_true fun he => strchr_eq_none.mp h (he ▸ hc)
      rw [strchr_eq_none.mpr hr, hall]

theorem typeEnd_cut {r : Bytes} (hr : comma ∉ r) :
    r.take (typeEnd r) = r.takeWhile (fun c => c ≠ lparen) ∧
      r.drop (typeEnd r) = r.dropWhile (fun c => c ≠ lparen) := by
  have htake : r.take (typeEnd r) = r.takeWhile (fun c => c ≠ lparen) := by
    rw [typeEnd_eq hr]
    exact (List.prefix_iff_eq_take.mp (List.takeWhile_prefix _)).symm
  refine ⟨htake, (List.append_right_inj (r.takeWhile fun c => c ≠ lparen)).mp ?_⟩
  rw [List.takeWhile_append_dropWhile, ← htake, List.take_append_drop]

def State.wrote (s : State) (w : Bytes) (k : ℕ) (out oType : Bytes) : State :=
  { s with
    uxSql := buffer (w ++ out) (k - out.length)
    uxSchOffset := s.uxSchOffset + out.length
    replaced := s.replaced ++ [oType] }

theorem getMappingUXTypeName_ok {o u : Bytes} :
    t.lookup o = some u ↔ ∃ flag, getMappingUXTypeName t o = .ok (u, flag) := by
  unfold Table.lookup
  cases h : getMappingUXTypeName t o with
  | error e => simp [Except.toOption]
  | ok r =>
      obtain ⟨u', flag⟩ := r
      simp [Except.toOption]

theorem rewritePiece_append {name r : Bytes} (hname : blank ∉ name) :
    rewritePiece t (name ++ blank :: r) = (t.lookup (r.takeWhile fun c => c ≠ lparen)).map
      fun u => name ++ blank :: (u ++ r.dropWhile fun c => c ≠ lparen) := by
  rw [rewritePiece, cutPiece_append hname]
  change (t.lookup (r.takeWhile fun c => c ≠ lparen) >>= fun u =>
    some (name ++ blank :: (u ++ r.dropWhile fun c => c ≠ lparen))) = _
  cases t.lookup (r.takeWhile fun c => c ≠ lparen) <;> rfl

theorem rewritePiece_eq_none (h : blank ∉ p) : rewritePiece t p = none := by
  rw [rewritePiece, cutPiece_eq_none.mpr h]
  rfl

/-- `TransformColumn` on a name and a text behind it. -/
theorem transformColumn_append {name r : Bytes} (hp : s.tmpbuf = name ++ blank :: r)
    (hname : blank ∉ name) (hr : comma ∉ r) (hlen : s.tmpbuf.length < uxTypeNameLength)
    (hbuf : s.uxSql = buffer w k) (hoff : uxSch + s.uxSchOffset = w.length) :
    transformColumn t uxSch s =
      match getMappingUXTypeName t (r.takeWhile fun c => c ≠ lparen) with
      | .error e => .error (.ret e s)
      | .ok (u, _) =>
          if (name ++ blank :: (u ++ r.dropWhile fun c => c ≠ lparen)).length < k then
            .ok (s.wrote w k (name ++ blank :: (u ++ r.dropWhile fun c => c ≠ lparen))
              (r.takeWhile fun c => c ≠ lparen))
          else .error (.fault .uxSqlOverflow) := by
  have hstart : typeStart s.tmpbuf = some (name.length + 1) := by
    rw [typeStart, hp, strchr_append hname, Option.map_some]
  have hdrop : s.tmpbuf.drop (name.length + 1) = r := by
    rw [hp, ← List.drop_drop, List.drop_left]
    rfl
  have htake : s.tmpbuf.take (name.length + 1) = name ++ [blank] := by
    have hcat : name ++ blank :: r = (name ++ [blank]) ++ r := by simp
    rw [hp, hcat]
    exact List.take_left' (by simp)
  have hpos : name.length + 1 ≤ s.tmpbuf.length := by
    rw [hp, List.length_append, List.length_cons]
    omega
  unfold transformColumn
  rw [if_neg (Nat.not_le.mpr hlen), hstart]
  simp only [hdrop, (typeEnd_cut hr).1, (typeEnd_cut hr).2]
  cases getMappingUXTypeName t (r.takeWhile fun c => c ≠ lparen) with
  | error e => rfl
  | ok found =>
      obtain ⟨u, flag⟩ := found
      have hout : name.length + 1 + u.length + (r.dropWhile fun c => c ≠ lparen).length =
          (name ++ blank :: (u ++ r.dropWhile fun c => c ≠ lparen)).length := by
        simp only [List.length_append, List.length_cons]
        omega
      have hcat : name ++ [blank] ++ (u ++ r.dropWhile fun c => c ≠ lparen) =
          name ++ blank :: (u ++ r.dropWhile fun c => c ≠ lparen) := by simp
      simp only [hbuf, hoff, replaceType_buffer w s.tmpbuf u _ k hpos, htake, hout, hcat]
      by_cases hk : (name ++ blank :: (u ++ r.dropWhile fun c => c ≠ lparen)).length < k
      · rw [if_pos hk, if_pos hk]
        rfl
      · rw [if_neg hk, if_neg hk]

/-- A piece with its terminator has no rewriting and makes `TransformColumn` return with an error,
or its rewriting is written if it fits. -/
theorem transformColumn_inv (hbuf : s.uxSql = buffer w k)
    (hoff : uxSch + s.uxSchOffset = w.length) (hcomma : comma ∉ s.tmpbuf)
    (hlen : s.tmpbuf.length < uxTypeNameLength) :
    (rewritePiece t s.tmpbuf = none ∧ ∃ e, transformColumn t uxSch s = .error (.ret e s)) ∨
    ∃ out, rewritePiece t s.tmpbuf = some out ∧ transformColumn t uxSch s =
      if out.length < k then .ok (s.wrote w k out (pieceType s.tmpbuf))
      else .error (.fault .uxSqlOverflow) := by
  by_cases hblank : blank ∈ s.tmpbuf
  · obtain ⟨name, r, hp, hname⟩ := List.eq_append_cons_of_mem hblank
    have hr : comma ∉ r := fun h =>
      hcomma (hp ▸ List.mem_append_right _ (List.mem_cons_of_mem _ h))
    have hpiece : rewritePiece t s.tmpbuf = _ := hp ▸ rewritePiece_append hname
    have htype : pieceType s.tmpbuf = _ := hp ▸ pieceType_append hname
    rw [transformColumn_append hp hname hr hlen hbuf hoff, hpiece, htype]
    cases hget : getMappingUXTypeName t (r.takeWhile fun c => c ≠ lparen) with
    | error e =>
        have hnone : t.lookup (r.takeWhile fun c => c ≠ lparen) = none := by
          rw [Table.lookup, hget]
          rfl
        rw [hnone]
        exact .inl ⟨rfl, e, rfl⟩
    | ok found =>
        rw [getMappingUXTypeName_ok.mpr ⟨found.2, hget⟩, Option.map_some]
        exact .inr ⟨_, rfl, rfl⟩
  · refine .inl ⟨rewritePiece_eq_none hblank, .syntaxErr, ?_⟩
    rw [transformColumn, if_neg (Nat.not_le.mpr hlen), typeStart, strchr_eq_none.mpr hblank]
    rfl

theorem transformColumn_unterminated (h : ¬ s.tmpbuf.length < uxTypeNameLength) :
    transformColumn t uxSch s = .error (.fault .tmpbufUnterminated) := by
  rw [transformColumn, if_pos (Nat.not_lt.mp h)]

/-- `TransformColumn` succeeds exactly where the piece has a rewriting, and writes it. -/
theorem transformColumn_ok (hbuf : s.uxSql = buffer w k)
    (hoff : uxSch + s.uxSchOffset = w.length) (hcomma : comma ∉ s.tmpbuf) :
    transformColumn t uxSch s = .ok s' ↔
      ∃ out, rewritePiece t s.tmpbuf = some out ∧ s.tmpbuf.length < uxTypeNameLength ∧
        out.length < k ∧ s' = s.wrote w k out (pieceType s.tmpbuf) := by
  by_cases hlen : s.tmpbuf.length < uxTypeNameLength
  swap
  · rw [transformColumn_unterminated hlen]
    refine iff_of_false (fun h => ?_) fun ⟨out, _, hlt, _⟩ => hlen hlt
    cases h
  rcases transformColumn_inv (t := t) hbuf hoff hcomma hlen with
    ⟨hnone, e, he⟩ | ⟨out, hout, hrun⟩
  · rw [he, hnone]
    simp
  · rw [hrun, hout]
    constructor
    · intro h
      split_ifs at h with hk
      exact ⟨out, rfl, hlen, hk, (Except.ok.inj h).symm⟩
    · rintro ⟨out', hout', -, hk, rfl⟩
      obtain rfl := Option.some.inj hout'
      exact if_pos hk

/-! ### The characters of a piece -/

/-- The count of blanks says whether a further blank would be kept. -/
def Counts (s : State) (p : Bytes) : Prop :=
  s.tmpbuf = squeezed p ∧ s.tmpbuf.length ≤ uxTypeNameLength ∧
    (s.tmpbuf ≠ [] → (0 < s.blanks ↔ s.tmpbuf.getLast? = some blank))

theorem squeezed_concat (p : Bytes) (c : UInt8) :
    squeezed (p ++ [c]) =
      if toBlank c = blank ∧ (squeezed p = [] ∨ (squeezed p).getLast? = some blank)
      then squeezed p else squeezed p ++ [toBlank c] := by
  unfold squeezed
  rw [List.map_append]
  exact Squeeze.squeeze_concat blank (toBlank c) (p.map toBlank)

/-- The state behind a character, with the text `q` in `tmpbuf`. -/
def State.read (s : State) (q : Bytes) (b : ℕ) (d : Bytes) : State :=
  { s with tmpbuf := q, blanks := b, seen := s.seen ++ d }

/-- A character is left out, or it is put into `tmpbuf` as far as there is room. -/
theorem charStep_eq (s : State) (c : UInt8) :
    charStep s c =
      if toBlank c = blank ∧ (0 < s.blanks ∨ s.tmpbuf = []) then
        .ok (s.read s.tmpbuf (s.blanks + 1) [toBlank c])
      else if s.tmpbuf.length < uxTypeNameLength then
        .ok (s.read (s.tmpbuf ++ [toBlank c]) (if toBlank c = blank then s.blanks + 1 else 0)
          [toBlank c])
      else .error (.fault .tmpbufOverflow) := by
  unfold charStep State.read
  by_cases hc : toBlank c = blank
  · by_cases hb : 0 < s.blanks
    · simp [hc, hb]
    · by_cases htmp : s.tmpbuf = []
      · simp [hc, hb, htmp]
      · simp [hc, hb, htmp]
  · simp [hc]

theorem charStep_counts {c : UInt8} (h : Counts s p) :
    (uxTypeNameLength < (squeezed (p ++ [c])).length ∧
      charStep s c = .error (.fault .tmpbufOverflow)) ∨
    ∃ b, charStep s c = .ok (s.read (squeezed (p ++ [c])) b [toBlank c]) ∧
      Counts (s.read (squeezed (p ++ [c])) b [toBlank c]) (p ++ [c]) := by
  obtain ⟨htmp, hlen, hblanks⟩ := h
  rw [charStep_eq]
  by_cases hskip : toBlank c = blank ∧ (0 < s.blanks ∨ s.tmpbuf = [])
  · have hlast : s.tmpbuf ≠ [] → s.tmpbuf.getLast? = some blank := fun hne =>
      (hblanks hne).mp (hskip.2.resolve_right hne)
    have hsame : squeezed (p ++ [c]) = s.tmpbuf := by
      rw [squeezed_concat, ← htmp, if_pos]
      exact ⟨hskip.1, or_iff_not_imp_left.mpr hlast⟩
    rw [if_pos hskip, hsame]
    refine .inr ⟨s.blanks + 1, rfl, hsame.symm, hlen, fun hne => ?_⟩
    exact iff_of_true (Nat.succ_pos _) (hlast hne)
  · have hmore : squeezed (p ++ [c]) = s.tmpbuf ++ [toBlank c] := by
      rw [squeezed_concat, ← htmp, if_neg]
      rintro ⟨hc, hempty | hlast⟩
      · exact hskip ⟨hc, .inr hempty⟩
      · have hne : s.tmpbuf ≠ [] := by
          rintro hnil
          rw [hnil] at hlast
          cases hlast
        exact hskip ⟨hc, .inl ((hblanks hne).mpr hlast)⟩
    rw [if_neg hskip, hmore]
    by_cases hroom : s.tmpbuf.length < uxTypeNameLength
    · rw [if_pos hroom]
      refine .inr ⟨_, rfl, hmore.symm,
        by simpa [State.read, Nat.succ_le_iff] using hroom, fun _ => ?_⟩
      simp only [State.read, List.getLast?_concat, Option.some.injEq]
      split
      · next hc => simp [hc]
      · next hc => simp [hc]
    · rw [if_neg hroom]
      refine .inl ⟨?_, rfl⟩
      rw [List.length_append, List.length_singleton]
      omega

theorem typesStep_of_ne {c : UInt8} (h : c ≠ comma) : typesStep t uxSch s c = charStep s c :=
  if_neg h

/-- The characters of a piece leave the squeezed piece in `tmpbuf`, or it has no room. -/
theorem foldlM_piece (t : Table) (uxSch : ℕ) (hs : s.tmpbuf = []) (hp : comma ∉ p) :
    (uxTypeNameLength < (squeezed p).length ∧
      p.foldlM (typesStep t uxSch) s = .error (.fault .tmpbufOverflow)) ∨
    ∃ b, p.foldlM (typesStep t uxSch) s = .ok (s.read (squeezed p) b (p.map toBlank)) ∧
      Counts (s.read (squeezed p) b (p.map toBlank)) p := by
  induction p using List.reverseRecOn with
  | nil =>
      refine .inr ⟨s.blanks, ?_, rfl, Nat.zero_le _, fun hne => absurd rfl hne⟩
      obtain ⟨mem, off, tmp, blanks, seen, replaced⟩ := s
      obtain rfl : tmp = [] := hs
      simp [State.read, squeezed, Squeeze.squeeze, Squeeze.runs, pure, Except.pure]
  | append_singleton p c ih =>
      have hc : c ≠ comma := fun h => hp (by simp [h])
      have hgrow : (squeezed p).length ≤ (squeezed (p ++ [c])).length := by
        unfold squeezed
        rw [List.map_append]
        exact Squeeze.length_squeeze_concat blank (toBlank c) (p.map toBlank)
      rw [List.foldlM_append]
      rcases ih fun h => hp (List.mem_append_left _ h) with ⟨hlong, herr⟩ | ⟨b, hok, hcounts⟩
      · exact .inl ⟨Nat.lt_of_lt_of_le hlong hgrow, by rw [herr]; rfl⟩
      · rw [hok]
        change _ ∧ ([c].foldlM (typesStep t uxSch) _) = _ ∨
          ∃ b', ([c].foldlM (typesStep t uxSch) _) = _ ∧ _
        rw [List.foldlM_cons, typesStep_of_ne hc]
        rcases charStep_counts (c := c) hcounts with ⟨hlong, herr⟩ | ⟨b', hok', hcounts'⟩
        · exact .inl ⟨hlong, by rw [herr]; rfl⟩
        · refine .inr ⟨b', ?_, hcounts'.1, hcounts'.2.1, hcounts'.2.2⟩
          rw [hok']
          simp [State.read, pure, Except.pure, bind, Except.bind]

/-! ### The column list -/

theorem toBlank_ne {c d : UInt8} (hd : d ≠ blank) (h : toBlank c = d) : c = d := by
  unfold toBlank at h
  split at h
  · exact absurd h.symm hd
  · exact h

theorem mem_squeezed {d : UInt8} (hd : d ≠ blank) (h : d ∈ squeezed p) : d ∈ p := by
  obtain ⟨c, hc, hcd⟩ := List.mem_map.mp (Squeeze.squeeze_subset _ _ h)
  exact toBlank_ne hd hcd ▸ hc

theorem comma_notMem_squeezed (h : comma ∉ p) : comma ∉ squeezed p :=
  fun hc => h (mem_squeezed (by decide) hc)

def State.separated (s : State) (w : Bytes) (k : ℕ) (out oType : Bytes) : State :=
  { s with
    uxSql := buffer (w ++ out ++ [comma]) (k - out.length - 1)
    uxSchOffset := s.uxSchOffset + out.length + 1
    tmpbuf := []
    seen := s.seen ++ [comma]
    replaced := s.replaced ++ [oType] }

theorem separated_offset (hoff : uxSch + s.uxSchOffset = w.length) (a oType : Bytes) :
    uxSch + (s.separated w k a oType).uxSchOffset = (w ++ a ++ [comma]).length := by
  change uxSch + (s.uxSchOffset + a.length + 1) = _
  rw [List.length_append, List.length_append, List.length_singleton]
  omega

theorem commaStep_ok (hbuf : s.uxSql = buffer w k) (hoff : uxSch + s.uxSchOffset = w.length)
    (hcomma : comma ∉ s.tmpbuf) :
    commaStep t uxSch s = .ok s' ↔
      ∃ out, rewritePiece t s.tmpbuf = some out ∧ s.tmpbuf.length < uxTypeNameLength ∧
        out.length < k ∧ s' = s.separated w k out (pieceType s.tmpbuf) := by
  have hstore : ∀ out : Bytes, out.length < k →
      store (buffer (w ++ out) (k - out.length)) (uxSch + (s.uxSchOffset + out.length)) [comma] =
        .ok (buffer (w ++ out ++ [comma]) (k - out.length - 1)) := by
    intro out hk
    have hpos : uxSch + (s.uxSchOffset + out.length) = (w ++ out).length := by
      rw [List.length_append]
      omega
    rw [hpos, store_buffer, List.length_singleton, if_pos (by omega)]
  constructor
  · intro h
    unfold commaStep at h
    cases hcol : transformColumn t uxSch s with
    | error e =>
        rw [hcol] at h
        cases h
    | ok s₁ =>
        obtain ⟨out, hout, hlen, hk, rfl⟩ := (transformColumn_ok hbuf hoff hcomma).mp hcol
        rw [hcol] at h
        simp only [State.wrote, hstore out hk] at h
        exact ⟨out, hout, hlen, hk, (Except.ok.inj h).symm⟩
  · rintro ⟨out, hout, hlen, hk, rfl⟩
    have hcol := (transformColumn_ok hbuf hoff hcomma).mpr ⟨out, hout, hlen, hk, rfl⟩
    unfold commaStep
    rw [hcol]
    simp only [State.wrote, hstore out hk]
    rfl

/-- What a run over a column list leaves. -/
structure Wrote (s s' : State) (w : Bytes) (k : ℕ) (out d : Bytes) (types : List Bytes) : Prop where
  uxSql : s'.uxSql = buffer (w ++ out) (k - out.length)
  uxSchOffset : s'.uxSchOffset = s.uxSchOffset + out.length
  seen : s'.seen = s.seen ++ d
  replaced : s'.replaced = s.replaced ++ types

theorem lastColumn_sound (hbuf : s.uxSql = buffer w k) (hoff : uxSch + s.uxSchOffset = w.length)
    (hcomma : comma ∉ s.tmpbuf) (h : lastColumn t uxSch s = .ok s') :
    ∃ out, rewriteList t [s.tmpbuf] = some out ∧ s.tmpbuf.length < uxTypeNameLength ∧
      out.length ≤ k ∧ Wrote s s' w k out [] (typesOf [s.tmpbuf]) := by
  unfold lastColumn at h
  by_cases htmp : s.tmpbuf = []
  · rw [if_pos htmp] at h
    cases h
    refine ⟨[], by simp [rewriteList, htmp], by simp [htmp, uxTypeNameLength], Nat.zero_le k, ?_⟩
    exact ⟨by simp [hbuf], rfl, by simp, by simp [typesOf, htmp]⟩
  · rw [if_neg htmp] at h
    obtain ⟨out, hout, hlen, hk, rfl⟩ := (transformColumn_ok hbuf hoff hcomma).mp h
    refine ⟨out, by simpa [rewriteList, htmp] using hout, hlen, hk.le, ?_⟩
    exact ⟨rfl, rfl, (List.append_nil _).symm, by simp [State.wrote, typesOf, htmp]⟩

theorem lastColumn_complete (hbuf : s.uxSql = buffer w k)
    (hoff : uxSch + s.uxSchOffset = w.length) (hcomma : comma ∉ s.tmpbuf)
    (hout : rewriteList t [s.tmpbuf] = some out) (hlen : s.tmpbuf.length < uxTypeNameLength)
    (hk : out.length < k) : ∃ s', lastColumn t uxSch s = .ok s' := by
  unfold lastColumn
  by_cases htmp : s.tmpbuf = []
  · exact ⟨s, if_pos htmp⟩
  · rw [if_neg htmp]
    have hpiece : rewritePiece t s.tmpbuf = some out := by simpa [rewriteList, htmp] using hout
    exact ⟨_, (transformColumn_ok hbuf hoff hcomma).mpr ⟨out, hpiece, hlen, hk, rfl⟩⟩

theorem rewriteList_cons {p q : Bytes} {ps : List Bytes} :
    rewriteList t (p :: q :: ps) = some out ↔
      ∃ a b, rewritePiece t p = some a ∧ rewriteList t (q :: ps) = some b ∧
        out = a ++ comma :: b := by
  rw [rewriteList]
  · cases rewritePiece t p with
    | none => simp
    | some a =>
        cases rewriteList t (q :: ps) with
        | none => simp
        | some b => simp [eq_comm]
  · simp

theorem foldlM_intercalate (p q : Bytes) (ps : List Bytes) (s : State) :
    ([comma].intercalate (p :: q :: ps)).foldlM (typesStep t uxSch) s =
      p.foldlM (typesStep t uxSch) s >>= fun s =>
        commaStep t uxSch s >>= ([comma].intercalate (q :: ps)).foldlM (typesStep t uxSch) := by
  rw [List.intercalate_cons_cons, List.append_assoc, List.foldlM_append]
  rfl

/-- A column with its comma, and then the rest of the list. -/
theorem Wrote.cons {p a b d oType : Bytes} {types : List Bytes} {n : ℕ}
    (h : Wrote ((s.read (squeezed p) n (p.map toBlank)).separated w k a oType) s'
      (w ++ a ++ [comma]) (k - a.length - 1) b (d.map toBlank) types) :
    Wrote s s' w k (a ++ comma :: b) ((p ++ [comma] ++ d).map toBlank) (oType :: types) where
  uxSql := by
    have hlen : k - a.length - 1 - b.length = k - (a ++ comma :: b).length := by
      rw [List.length_append, List.length_cons]
      omega
    rw [h.uxSql, hlen]
    simp
  uxSchOffset := by
    rw [h.uxSchOffset, List.length_append, List.length_cons]
    change s.uxSchOffset + a.length + 1 + b.length = _
    omega
  seen := by
    rw [h.seen, List.map_append, List.map_append, ← List.append_assoc, ← List.append_assoc]
    rfl
  replaced := by
    rw [h.replaced]
    change s.replaced ++ [oType] ++ types = _
    rw [List.append_assoc]
    rfl

/-- The run over a column list with at least one piece succeeds only if every piece has a
rewriting and room; then it has written the rewritings. -/
theorem pieces_sound (ps : List Bytes) (hne : ps ≠ []) (hps : ∀ p ∈ ps, comma ∉ p)
    (hs : s.tmpbuf = []) (hbuf : s.uxSql = buffer w k) (hoff : uxSch + s.uxSchOffset = w.length)
    (h : ([comma].intercalate ps).foldlM (typesStep t uxSch) s >>= lastColumn t uxSch = .ok s') :
    ∃ out, rewriteList t (ps.map squeezed) = some out ∧
      (∀ p ∈ ps, (squeezed p).length < uxTypeNameLength) ∧ out.length ≤ k ∧
      Wrote s s' w k out (([comma].intercalate ps).map toBlank) (typesOf (ps.map squeezed)) := by
  induction ps generalizing s w k with
  | nil => exact absurd rfl hne
  | cons p ps ih =>
      have hp := hps p List.mem_cons_self
      cases ps with
      | nil =>
          rw [List.intercalate_singleton] at h ⊢
          rcases foldlM_piece t uxSch hs hp with ⟨-, herr⟩ | ⟨b, hok, -⟩
          · rw [herr] at h
            cases h
          · rw [hok] at h
            obtain ⟨out, hout, hlen, hk, hw⟩ :=
              lastColumn_sound (s := s.read (squeezed p) b (p.map toBlank)) hbuf hoff
                (comma_notMem_squeezed hp) h
            refine ⟨out, hout, List.forall_mem_singleton.mpr hlen, hk, hw.uxSql,
              hw.uxSchOffset, ?_, hw.replaced⟩
            rw [hw.seen, List.append_nil]
            rfl
      | cons q ps =>
          rw [foldlM_intercalate] at h
          rcases foldlM_piece t uxSch hs hp with ⟨-, herr⟩ | ⟨b, hok, -⟩
          · rw [herr] at h
            cases h
          · rw [hok] at h
            change (commaStep t uxSch _ >>= _) >>= _ = _ at h
            cases hcol : commaStep t uxSch (s.read (squeezed p) b (p.map toBlank)) with
            | error e =>
                rw [hcol] at h
                cases h
            | ok s₂ =>
                rw [hcol] at h
                obtain ⟨a, ha, hlen, hk, rfl⟩ :=
                  (commaStep_ok (s := s.read (squeezed p) b (p.map toBlank)) hbuf hoff
                    (comma_notMem_squeezed hp)).mp hcol
                have hoff₂ := separated_offset (k := k)
                  (s := s.read (squeezed p) b (p.map toBlank)) hoff a (pieceType (squeezed p))
                obtain ⟨out, hout, hlens, hk', hw⟩ := ih (List.cons_ne_nil q ps)
                  (fun r hr => hps r (List.mem_cons_of_mem p hr)) rfl rfl hoff₂ h
                refine ⟨a ++ comma :: out, rewriteList_cons.mpr ⟨a, out, ha, hout, rfl⟩,
                  List.forall_mem_cons.mpr ⟨hlen, hlens⟩, ?_, ?_⟩
                · rw [List.length_append, List.length_cons]
                  omega
                · rw [List.intercalate_cons_cons]
                  exact hw.cons

theorem pieces_complete (ps : List Bytes) (hne : ps ≠ []) (hps : ∀ p ∈ ps, comma ∉ p)
    (hs : s.tmpbuf = []) (hbuf : s.uxSql = buffer w k) (hoff : uxSch + s.uxSchOffset = w.length)
    (hlens : ∀ p ∈ ps, (squeezed p).length < uxTypeNameLength)
    (hout : rewriteList t (ps.map squeezed) = some out) (hk : out.length < k) :
    ∃ s', ([comma].intercalate ps).foldlM (typesStep t uxSch) s >>= lastColumn t uxSch =
      .ok s' := by
  induction ps generalizing s w k out with
  | nil => exact absurd rfl hne
  | cons p ps ih =>
      have hp := hps p List.mem_cons_self
      have hlen := hlens p List.mem_cons_self
      obtain ⟨b, hok⟩ : ∃ b, p.foldlM (typesStep t uxSch) s =
          .ok (s.read (squeezed p) b (p.map toBlank)) := by
        rcases foldlM_piece t uxSch hs hp with ⟨hlong, -⟩ | ⟨b, hok, -⟩
        · omega
        · exact ⟨b, hok⟩
      cases ps with
      | nil =>
          rw [List.intercalate_singleton, hok]
          exact lastColumn_complete (s := s.read (squeezed p) b (p.map toBlank)) hbuf hoff
            (comma_notMem_squeezed hp) hout hlen hk
      | cons q ps =>
          obtain ⟨a, rest, ha, hrest, rfl⟩ := rewriteList_cons.mp hout
          rw [List.length_append, List.length_cons] at hk
          have hcol : commaStep t uxSch (s.read (squeezed p) b (p.map toBlank)) = .ok _ :=
            (commaStep_ok (s := s.read (squeezed p) b (p.map toBlank)) hbuf hoff
              (comma_notMem_squeezed hp)).mpr ⟨a, ha, hlen, by omega, rfl⟩
          have hoff₂ := separated_offset (k := k)
            (s := s.read (squeezed p) b (p.map toBlank)) hoff a (pieceType (squeezed p))
          obtain ⟨s', hs'⟩ := ih (List.cons_ne_nil q ps)
            (fun r hr => hps r (List.mem_cons_of_mem p hr)) rfl rfl hoff₂
            (fun r hr => hlens r (List.mem_cons_of_mem p hr)) hrest (by omega)
          refine ⟨s', ?_⟩
          rw [foldlM_intercalate, hok]
          change (commaStep t uxSch _ >>= _) >>= _ = _
          rw [hcol]
          exact hs'

end Hatch.Types
