import Hatch.FaultProgram
import Hatch.TypeStatement

/-!
# The bounds of the type rewriter

No write of the rewriter is checked. `ColumnsFit` says when all of them are in range: a piece
leaves room in `tmpbuf`, and the rewritings up to the first piece without one leave room in the
output buffer. The brackets may stand in any order.
-/

namespace Hatch.Types

open ByteLayout (Bytes cstr length_cstr_le length_patch)
open CString
open FaultProgram (bind_eq_ok)

variable {t : Table} {p w mem mem' : Bytes} {k uxSch : ℕ} {s s' : State}

/-! ### Lengths -/

theorem length_store {off : ℕ} {d : Bytes} (h : store mem off d = .ok mem') :
    mem'.length = mem.length := by
  unfold store at h
  split_ifs at h with hroom
  cases h
  exact length_patch hroom

theorem length_strcat {off : ℕ} {d : Bytes} (h : strcat mem off d = .ok mem') :
    mem'.length = mem.length := by
  unfold strcat at h
  split at h
  · cases h
  · exact length_store h

theorem length_replaceType {column uxType rest : Bytes} {pos n : ℕ}
    (h : replaceType mem uxSch column pos uxType rest = .ok (mem', n)) :
    mem'.length = mem.length := by
  obtain ⟨mem₁, h₁, h⟩ := bind_eq_ok h
  obtain ⟨mem₂, h₂, h⟩ := bind_eq_ok h
  obtain ⟨mem₃, h₃, h⟩ := bind_eq_ok h
  cases h
  rw [length_store h₃, length_strcat h₂, length_store h₁]

/-- What is left of a state, whether or not the function has returned early: the buffer has its
length, and at most `n` characters were read, exactly `n` without an error. -/
def Leaves (s : State) (n : ℕ) : Except Stop State → Prop
  | .ok s' => s'.uxSql.length = s.uxSql.length ∧ s'.seen.length = s.seen.length + n
  | .error (.ret _ s') => s'.uxSql.length = s.uxSql.length ∧ s'.seen.length ≤ s.seen.length + n
  | .error (.fault _) => True

theorem Leaves.bind {n m : ℕ} {x : Except Stop State} {f : State → Except Stop State}
    (hx : Leaves s n x) (hf : ∀ s', Leaves s' m (f s')) : Leaves s (n + m) (x >>= f) := by
  cases x with
  | error e =>
      cases e with
      | fault f => exact hx
      | ret e s' => exact ⟨hx.1, hx.2.trans (by omega)⟩
  | ok s₁ =>
      change Leaves s (n + m) (f s₁)
      have h := hf s₁
      cases hr : f s₁ with
      | error e =>
          rw [hr] at h
          cases e with
          | fault f => exact h
          | ret e s' => exact ⟨h.1.trans hx.1, by have := h.2; have := hx.2; omega⟩
      | ok s' =>
          rw [hr] at h
          exact ⟨h.1.trans hx.1, by have := h.2; have := hx.2; omega⟩

theorem transformColumn_leaves (t : Table) (uxSch : ℕ) (s : State) :
    Leaves s 0 (transformColumn t uxSch s) := by
  unfold transformColumn
  split_ifs with hlen
  · exact trivial
  · cases typeStart s.tmpbuf with
    | none => exact ⟨rfl, le_rfl⟩
    | some pos =>
        dsimp only
        cases getMappingUXTypeName t ((s.tmpbuf.drop pos).take (typeEnd (s.tmpbuf.drop pos))) with
        | error e => exact ⟨rfl, le_rfl⟩
        | ok found =>
            dsimp only
            cases hrep : replaceType s.uxSql (uxSch + s.uxSchOffset) s.tmpbuf pos found.1
                ((s.tmpbuf.drop pos).drop (typeEnd (s.tmpbuf.drop pos))) with
            | error f => exact trivial
            | ok written => exact ⟨length_replaceType hrep, rfl⟩

theorem commaStep_leaves (t : Table) (uxSch : ℕ) (s : State) :
    Leaves s 1 (commaStep t uxSch s) := by
  have hcol := transformColumn_leaves t uxSch s
  unfold commaStep
  cases hr : transformColumn t uxSch s with
  | error e =>
      rw [hr] at hcol
      cases e with
      | fault f => exact hcol
      | ret e s' => exact ⟨hcol.1, hcol.2.trans (Nat.le_succ _)⟩
  | ok s₁ =>
      rw [hr] at hcol
      dsimp only
      cases hst : store s₁.uxSql (uxSch + s₁.uxSchOffset) [comma] with
      | error f => exact trivial
      | ok mem =>
          refine ⟨(length_store hst).trans hcol.1, ?_⟩
          rw [List.length_append, hcol.2]
          rfl

theorem charStep_leaves (s : State) (c : UInt8) : Leaves s 1 (charStep s c) := by
  rw [charStep_eq]
  by_cases hskip : toBlank c = blank ∧ (0 < s.blanks ∨ s.tmpbuf = [])
  · rw [if_pos hskip]
    exact ⟨rfl, List.length_append⟩
  · rw [if_neg hskip]
    by_cases hroom : s.tmpbuf.length < uxTypeNameLength
    · rw [if_pos hroom]
      exact ⟨rfl, List.length_append⟩
    · rw [if_neg hroom]
      exact trivial

theorem typesStep_leaves (t : Table) (uxSch : ℕ) (s : State) (c : UInt8) :
    Leaves s 1 (typesStep t uxSch s c) := by
  unfold typesStep
  split_ifs
  · exact commaStep_leaves t uxSch s
  · exact charStep_leaves s c

theorem foldlM_leaves (t : Table) (uxSch : ℕ) (list : Bytes) (s : State) :
    Leaves s list.length (list.foldlM (typesStep t uxSch) s) := by
  induction list generalizing s with
  | nil => exact ⟨rfl, rfl⟩
  | cons c list ih =>
      rw [List.foldlM_cons, List.length_cons, Nat.add_comm]
      exact (typesStep_leaves t uxSch s c).bind ih

theorem lastColumn_leaves (t : Table) (uxSch : ℕ) (s : State) :
    Leaves s 0 (lastColumn t uxSch s) := by
  unfold lastColumn
  split_ifs
  · exact ⟨rfl, rfl⟩
  · exact transformColumn_leaves t uxSch s

def State.initial (mem : Bytes) : State := ⟨mem, 0, [], 0, [], []⟩

theorem transformTypes_leaves (t : Table) (list mem : Bytes) (uxSch : ℕ) :
    Leaves (.initial mem) list.length (transformTypes t list mem uxSch) :=
  (foldlM_leaves t uxSch list (.initial mem)).bind (lastColumn_leaves t uxSch)

/-! ### Columns that fit -/

/-- The piece fits into `tmpbuf`, and its rewriting into a buffer of `k` bytes. -/
def PieceFits (t : Table) (k : ℕ) (p : Bytes) : Prop :=
  p.length < uxTypeNameLength ∧ ∀ a ∈ rewritePiece t p, a.length < k

/-- The pieces fit one after the other, as far as they have rewritings. -/
def ColumnsFit (t : Table) : ℕ → List Bytes → Prop
  | _, [] => True
  | k, [p] => p = [] ∨ PieceFits t k p
  | k, p :: ps => PieceFits t k p ∧ ∀ a ∈ rewritePiece t p, ColumnsFit t (k - a.length - 1) ps

instance (t : Table) (k : ℕ) (p : Bytes) : Decidable (PieceFits t k p) :=
  inferInstanceAs (Decidable (_ ∧ _))

instance decidableColumnsFit (t : Table) : ∀ k ps, Decidable (ColumnsFit t k ps)
  | _, [] => .isTrue trivial
  | k, [p] => inferInstanceAs (Decidable (p = [] ∨ PieceFits t k p))
  | k, p :: q :: ps =>
      have := fun k => decidableColumnsFit t k (q :: ps)
      inferInstanceAs (Decidable (PieceFits t k p ∧
        ∀ a ∈ rewritePiece t p, ColumnsFit t (k - a.length - 1) (q :: ps)))

theorem columnsFit_cons_of_none {q : Bytes} {ps : List Bytes} (hp : rewritePiece t p = none)
    (hfit : PieceFits t k p) : ColumnsFit t k (p :: q :: ps) := by
  refine ⟨hfit, fun a ha => ?_⟩
  rw [hp] at ha
  cases ha

theorem columnsFit_cons_of_some {a q : Bytes} {ps : List Bytes} (hp : rewritePiece t p = some a)
    (hfit : PieceFits t k p) :
    ColumnsFit t k (p :: q :: ps) ↔ ColumnsFit t (k - a.length - 1) (q :: ps) := by
  refine ⟨fun h => h.2 a hp, fun h => ⟨hfit, fun c hc => ?_⟩⟩
  rw [hp] at hc
  exact Option.some.inj hc ▸ h

/-- `TransformColumn` goes out of range, returns with an error, or writes the rewriting. -/
theorem transformColumn_cases (t : Table) (hbuf : s.uxSql = buffer w k)
    (hoff : uxSch + s.uxSchOffset = w.length) (hcomma : comma ∉ s.tmpbuf) :
    (¬ PieceFits t k s.tmpbuf ∧ ∃ f, transformColumn t uxSch s = .error (.fault f)) ∨
    (PieceFits t k s.tmpbuf ∧ rewritePiece t s.tmpbuf = none ∧
      ∃ e, transformColumn t uxSch s = .error (.ret e s)) ∨
    ∃ a, PieceFits t k s.tmpbuf ∧ rewritePiece t s.tmpbuf = some a ∧
      transformColumn t uxSch s = .ok (s.wrote w k a (pieceType s.tmpbuf)) := by
  by_cases hlen : s.tmpbuf.length < uxTypeNameLength
  swap
  · exact .inl ⟨fun hfit => hlen hfit.1, .tmpbufUnterminated, transformColumn_unterminated hlen⟩
  rcases transformColumn_inv (t := t) hbuf hoff hcomma hlen with
    ⟨hnone, he⟩ | ⟨out, hout, hrun⟩
  · refine .inr (.inl ⟨⟨hlen, fun a ha => ?_⟩, hnone, he⟩)
    rw [hnone] at ha
    cases ha
  by_cases hk : out.length < k
  · refine .inr (.inr ⟨out, ⟨hlen, fun a ha => ?_⟩, hout, by rw [hrun, if_pos hk]⟩)
    rw [hout] at ha
    exact Option.some.inj ha ▸ hk
  · exact .inl ⟨fun hfit => hk (hfit.2 out hout), .uxSqlOverflow, by rw [hrun, if_neg hk]⟩

/-- The same for the column in front of a comma. -/
theorem commaStep_cases (t : Table) (hbuf : s.uxSql = buffer w k)
    (hoff : uxSch + s.uxSchOffset = w.length) (hcomma : comma ∉ s.tmpbuf) :
    (¬ PieceFits t k s.tmpbuf ∧ ∃ f, commaStep t uxSch s = .error (.fault f)) ∨
    (PieceFits t k s.tmpbuf ∧ rewritePiece t s.tmpbuf = none ∧
      ∃ e, commaStep t uxSch s = .error (.ret e s)) ∨
    ∃ a, PieceFits t k s.tmpbuf ∧ rewritePiece t s.tmpbuf = some a ∧
      commaStep t uxSch s = .ok (s.separated w k a (pieceType s.tmpbuf)) := by
  rcases transformColumn_cases t hbuf hoff hcomma with
    ⟨hfit, f, hf⟩ | ⟨hfit, hnone, e, he⟩ | ⟨a, hfit, ha, -⟩
  · exact .inl ⟨hfit, f, by rw [commaStep, hf]⟩
  · exact .inr (.inl ⟨hfit, hnone, e, by rw [commaStep, he]⟩)
  · exact .inr (.inr ⟨a, hfit, ha,
      (commaStep_ok hbuf hoff hcomma).mpr ⟨a, ha, hfit.1, hfit.2 a ha, rfl⟩⟩)

theorem rewriteList_eq_none {q : Bytes} {ps : List Bytes}
    (h : ∀ a, rewritePiece t p = some a → rewriteList t (q :: ps) = none) :
    rewriteList t (p :: q :: ps) = none := by
  cases hout : rewriteList t (p :: q :: ps) with
  | none => rfl
  | some out =>
      obtain ⟨a, b, ha, hb, -⟩ := rewriteList_cons.mp hout
      rw [h a ha] at hb
      cases hb

theorem lastColumn_cases (t : Table) (hbuf : s.uxSql = buffer w k)
    (hoff : uxSch + s.uxSchOffset = w.length) (hcomma : comma ∉ s.tmpbuf) :
    (¬ ColumnsFit t k [s.tmpbuf] ∧ ∃ f, lastColumn t uxSch s = .error (.fault f)) ∨
    (ColumnsFit t k [s.tmpbuf] ∧ rewriteList t [s.tmpbuf] = none ∧
      ∃ e s', lastColumn t uxSch s = .error (.ret e s')) ∨
    (ColumnsFit t k [s.tmpbuf] ∧ ∃ s', lastColumn t uxSch s = .ok s') := by
  unfold lastColumn
  by_cases htmp : s.tmpbuf = []
  · rw [if_pos htmp]
    exact .inr (.inr ⟨.inl htmp, s, rfl⟩)
  · rw [if_neg htmp]
    rcases transformColumn_cases t hbuf hoff hcomma with
      ⟨hfit, hf⟩ | ⟨hfit, hnone, e, he⟩ | ⟨a, hfit, -, ha⟩
    · exact .inl ⟨fun h => hfit (h.resolve_left htmp), hf⟩
    · exact .inr (.inl ⟨.inr hfit, by rw [rewriteList, if_neg htmp, hnone], e, s, he⟩)
    · exact .inr (.inr ⟨.inr hfit, _, ha⟩)

/-- The run over a column list goes out of range exactly if the columns do not fit, and it
returns with an error only if there is no rewriting. -/
theorem pieces_cases (t : Table) (uxSch : ℕ) (ps : List Bytes) (hne : ps ≠ [])
    (hps : ∀ p ∈ ps, comma ∉ p)
    (hs : s.tmpbuf = []) (hbuf : s.uxSql = buffer w k)
    (hoff : uxSch + s.uxSchOffset = w.length) :
    (¬ ColumnsFit t k (ps.map squeezed) ∧ ∃ f,
      ([comma].intercalate ps).foldlM (typesStep t uxSch) s >>= lastColumn t uxSch =
        .error (.fault f)) ∨
    (ColumnsFit t k (ps.map squeezed) ∧ rewriteList t (ps.map squeezed) = none ∧ ∃ e s',
      ([comma].intercalate ps).foldlM (typesStep t uxSch) s >>= lastColumn t uxSch =
        .error (.ret e s')) ∨
    (ColumnsFit t k (ps.map squeezed) ∧ ∃ s',
      ([comma].intercalate ps).foldlM (typesStep t uxSch) s >>= lastColumn t uxSch = .ok s') := by
  induction ps generalizing s w k with
  | nil => exact absurd rfl hne
  | cons p ps ih =>
      have hp := hps p List.mem_cons_self
      have hlong : uxTypeNameLength < (squeezed p).length → ∀ j, ¬ PieceFits t j (squeezed p) :=
        fun h j hfit => absurd hfit.1 (by omega)
      cases ps with
      | nil =>
          rw [List.intercalate_singleton]
          rcases foldlM_piece t uxSch hs hp with ⟨hlen, herr⟩ | ⟨b, hok, -⟩
          · rw [herr]
            refine .inl ⟨?_, .tmpbufOverflow, rfl⟩
            rintro (hnil | hfit)
            · rw [hnil] at hlen
              exact absurd hlen (Nat.not_lt_zero _)
            · exact hlong hlen k hfit
          · rw [hok]
            exact lastColumn_cases t (s := s.read (squeezed p) b (p.map toBlank)) hbuf hoff
              (comma_notMem_squeezed hp)
      | cons q ps =>
          rw [foldlM_intercalate]
          rcases foldlM_piece t uxSch hs hp with ⟨hlen, herr⟩ | ⟨b, hok, -⟩
          · rw [herr]
            exact .inl ⟨fun hfit => hlong hlen k hfit.1, .tmpbufOverflow, rfl⟩
          rw [hok]
          change _ ∧ (∃ f, (commaStep t uxSch _ >>= _) >>= _ = _) ∨ _ ∧ _ ∧
            (∃ e s', (commaStep t uxSch _ >>= _) >>= _ = _) ∨ _ ∧
            ∃ s', (commaStep t uxSch _ >>= _) >>= _ = _
          rcases commaStep_cases t (s := s.read (squeezed p) b (p.map toBlank)) hbuf hoff
            (comma_notMem_squeezed hp) with
            ⟨hfit, f, hf⟩ | ⟨hfit, hnone, e, he⟩ | ⟨a, hfit, ha, hcol⟩
          · rw [hf]
            exact .inl ⟨fun h => hfit h.1, f, rfl⟩
          · change rewritePiece t (squeezed p) = none at hnone
            rw [he]
            refine .inr (.inl ⟨columnsFit_cons_of_none hnone hfit, rewriteList_eq_none ?_,
              e, _, rfl⟩)
            intro a ha
            rw [hnone] at ha
            cases ha
          · change rewritePiece t (squeezed p) = some a at ha
            rw [hcol]
            have hoff₂ := separated_offset (k := k)
              (s := s.read (squeezed p) b (p.map toBlank)) hoff a (pieceType (squeezed p))
            have hiff : ColumnsFit t k ((p :: q :: ps).map squeezed) ↔
                ColumnsFit t (k - a.length - 1) ((q :: ps).map squeezed) :=
              columnsFit_cons_of_some ha hfit
            rw [hiff]
            rcases ih (List.cons_ne_nil q ps) (fun r hr => hps r (List.mem_cons_of_mem p hr)) rfl
              rfl hoff₂ with hfault | ⟨hfit', hnone, hret⟩ | hdone
            · exact .inl hfault
            · exact .inr (.inl ⟨hfit', rewriteList_eq_none fun _ _ => hnone, hret⟩)
            · exact .inr (.inr hdone)

def piecesOf (list : Bytes) : List Bytes := (list.splitOn comma).map squeezed

/-- `TransformTypes` behind a text of any kind. -/
theorem transformTypes_cases (t : Table) (list w : Bytes) (k : ℕ) :
    (¬ ColumnsFit t k (piecesOf list) ∧
      ∃ f, transformTypes t list (buffer w k) w.length = .error (.fault f)) ∨
    (ColumnsFit t k (piecesOf list) ∧ rewriteList t (piecesOf list) = none ∧
      ∃ e s', transformTypes t list (buffer w k) w.length = .error (.ret e s')) ∨
    (ColumnsFit t k (piecesOf list) ∧
      ∃ s', transformTypes t list (buffer w k) w.length = .ok s') := by
  have hlist : [comma].intercalate (list.splitOn comma) = list := List.intercalate_splitOn comma
  have h := pieces_cases t w.length (list.splitOn comma) (s := .initial (buffer w k))
    (List.splitOn_ne_nil comma list) (fun p hp => splitOn_comma_notMem hp) rfl rfl rfl
  rw [hlist] at h
  exact h

/-! ### The brackets -/

/-- The text between the first `(` and the last `)`. It is all that follows the first `(` if the
last `)` stands in front of it. -/
def columnList (sql : Bytes) (i j : ℕ) : Bytes :=
  if i < j then (sql.take j).drop (i + 1) else sql.drop (i + 1)

theorem cstr_set {sql : Bytes} {i j : ℕ} (hzero : 0 ∉ sql) (hj : j < sql.length) :
    cstr (sql.set j 0) (i + 1) = columnList sql i j := by
  unfold columnList cstr
  by_cases hij : i < j
  · have hlen : i + 1 ≤ (sql.take j).length := by
      rw [List.length_take]
      omega
    rw [if_pos hij, List.set_eq_take_append_cons_drop, if_pos hj,
      List.drop_append_of_le_length hlen]
    apply ByteLayout.takeWhile_append_zero
    exact fun h => hzero (List.mem_of_mem_take (List.mem_of_mem_drop h))
  · rw [if_neg hij, List.drop_set_of_lt (by omega), List.takeWhile_eq_self_iff]
    intro c hc
    exact bne_iff_ne.mpr fun h => hzero (h ▸ List.mem_of_mem_drop hc)

theorem store_ok (mem : Bytes) (off : ℕ) (d : Bytes) :
    (∃ mem', store mem off d = .ok mem') ↔ off + d.length ≤ mem.length := by
  unfold store
  split_ifs with h
  · exact iff_of_true ⟨_, rfl⟩ h
  · exact iff_of_false (fun ⟨_, h'⟩ => nomatch h') h

theorem strncpy_front (src : Bytes) {m n : ℕ} (h : m ≤ n) :
    ∃ w, w.length = m ∧ strncpy (buffer [] n) 0 src m = .ok (buffer w (n - m)) := by
  have hlen : (src.take m ++ List.replicate (m - src.length) 0).length = m := by
    rw [List.length_append, List.length_take, List.length_replicate]
    omega
  refine ⟨_, hlen, ?_⟩
  change store (buffer [] n) ([] : Bytes).length _ = _
  rw [store_buffer, hlen, if_pos h, List.nil_append]

/-- The text that `TransformSql` appends has the length it had in the statement. -/
theorem finish_ok {sql : Bytes} {fixed j m : ℕ} (ret : ℤ)
    (hseen : fixed + s.seen.length ≤ sql.length) :
    (∃ r, finish sql fixed j ret m s = .ok r) ↔ m + (sql.length - j) < s.uxSql.length := by
  have hlen : (sql.take fixed ++ s.seen ++ sql.drop (fixed + s.seen.length)).length =
      sql.length := by
    rw [List.length_append, List.length_append, List.length_take, List.length_drop]
    omega
  have hstore := store_ok s.uxSql m
    ((sql.take fixed ++ s.seen ++ sql.drop (fixed + s.seen.length)).drop j ++ [0])
  rw [List.length_append, List.length_drop, hlen, List.length_singleton] at hstore
  constructor
  · rintro ⟨r, hr⟩
    obtain ⟨mem, hmem, -⟩ := bind_eq_ok hr
    have := hstore.mp ⟨mem, hmem⟩
    omega
  · intro h
    obtain ⟨mem, hmem⟩ := hstore.mpr (by omega)
    refine ⟨⟨ret, some mem, some m, s.replaced⟩, ?_⟩
    unfold finish
    simp only [strcpy, hmem]
    rfl

theorem length_buffer (w : Bytes) (k : ℕ) : (buffer w k).length = w.length + k := by
  rw [buffer, List.length_append, List.length_replicate]

/-- The run behind the header, which is as long as it is whatever stands in it. -/
theorem transformCopy_run (t : Table) (sql : Bytes) {n i : ℕ} (j : ℕ) (hn : i < n) :
    ∃ w, w.length = i + 1 ∧ transformCopy t sql (buffer [] n) (i + 1) j =
      afterTypes sql (i + 1) j (transformTypes t (cstr (sql.set j 0) (i + 1))
        (buffer w (n - (i + 1))) w.length) := by
  obtain ⟨w, hw, hcopy⟩ := strncpy_front (cstr (sql.set j 0) 0) hn
  refine ⟨w, hw, ?_⟩
  unfold transformCopy
  simp only [hcopy, hw]
  rfl

theorem lt_of_transformCopy {sql : Bytes} {n i j : ℕ} {r : Result}
    (h : transformCopy t sql (buffer [] n) (i + 1) j = .ok r) : i < n := by
  obtain ⟨mem, hmem, -⟩ := bind_eq_ok h
  have hroom := (store_ok _ _ _).mp ⟨mem, hmem⟩
  rw [List.length_append, List.length_take, List.length_replicate, length_buffer] at hroom
  rw [List.length_nil] at hroom
  omega

theorem transformCopy_ok (t : Table) {sql : Bytes} {n i j : ℕ} (hi : i < sql.length) (hn : i < n) :
    (∃ r, transformCopy t sql (buffer [] n) (i + 1) j = .ok r) ↔
      ColumnsFit t (n - (i + 1)) (piecesOf (cstr (sql.set j 0) (i + 1))) ∧
        i + 1 + ((rewriteList t (piecesOf (cstr (sql.set j 0) (i + 1)))).getD []).length +
          (sql.length - j) < n := by
  obtain ⟨w, hw, hrun⟩ := transformCopy_run t sql j hn
  have hlist := length_cstr_le (sql.set j 0) (i + 1)
  rw [List.length_set] at hlist
  have hmem : (buffer w (n - (i + 1))).length = n := by
    rw [length_buffer, hw]
    omega
  have hleaves := transformTypes_leaves t (cstr (sql.set j 0) (i + 1)) (buffer w (n - (i + 1)))
    w.length
  rw [hrun]
  rcases transformTypes_cases t (cstr (sql.set j 0) (i + 1)) w (n - (i + 1)) with
    ⟨hfit, f, hf⟩ | ⟨hfit, hnone, e, s, hs⟩ | ⟨hfit, s, hs⟩
  · rw [hf]
    exact iff_of_false (fun ⟨r, hr⟩ => nomatch hr) fun h => hfit h.1
  · rw [hs] at hleaves ⊢
    obtain ⟨hsize, hseen⟩ : s.uxSql.length = _ ∧ s.seen.length ≤ 0 + _ := hleaves
    rw [afterTypes, finish_ok _ (by omega), hsize]
    rw [State.initial, hmem, hnone, and_iff_right hfit]
    rfl
  · rw [hs] at hleaves ⊢
    obtain ⟨hsize, hseen⟩ : s.uxSql.length = _ ∧ s.seen.length = 0 + _ := hleaves
    obtain ⟨out, hout, -, -, -, hoff, -⟩ := transformTypes_sound hs
    rw [afterTypes, finish_ok _ (by omega), hsize, hoff]
    rw [State.initial, hmem, piecesOf, hout, ← piecesOf, and_iff_right hfit]
    rfl

theorem transformSchCopy_ok (t : Table) {sql : Bytes} {n fixed j : ℕ} :
    (∃ r, transformSchCopy t sql (buffer [] n) fixed j = .ok r) ↔
      ColumnsFit t n (piecesOf (cstr (sql.set j 0) fixed)) ∧
        ∀ out, rewriteList t (piecesOf (cstr (sql.set j 0) fixed)) = some out →
          (n : ℤ) + out.length ≤ intMax := by
  unfold transformSchCopy
  have hmem : (buffer [] n).length = n := by rw [length_buffer, List.length_nil, Nat.zero_add]
  rw [hmem]
  rcases transformTypes_cases t (cstr (sql.set j 0) fixed) [] n with
    ⟨hfit, f, hf⟩ | ⟨hfit, hnone, e, s, hs⟩ | ⟨hfit, s, hs⟩
  · rw [show (0 : ℕ) = ([] : Bytes).length from rfl, hf]
    exact iff_of_false (fun ⟨r, hr⟩ => nomatch hr) fun h => hfit h.1
  · rw [show (0 : ℕ) = ([] : Bytes).length from rfl, hs]
    refine iff_of_true ⟨_, rfl⟩ ⟨hfit, fun out hout => ?_⟩
    rw [hnone] at hout
    cases hout
  · obtain ⟨out, hout, -, -, -, hoff, -⟩ := transformTypes_sound hs
    rw [show (0 : ℕ) = ([] : Bytes).length from rfl, hs, afterSchTypes, hoff]
    change rewriteList t (piecesOf _) = some out at hout
    rw [hout, and_iff_right hfit]
    split_ifs with hmax
    · exact iff_of_false (fun ⟨r, hr⟩ => nomatch hr) fun h => absurd (h out rfl) (by omega)
    · refine iff_of_true ⟨_, rfl⟩ fun out' hout' => ?_
      cases hout'
      omega

theorem withBrackets_ok (rewrite : Bytes → Bytes → ℕ → ℕ → Except Fault Result) (sql : Bytes)
    {size : ℤ} (h4 : 4 ≤ size) :
    (∀ palloc strdup, ∃ r, withBrackets rewrite (some sql) size palloc strdup = .ok r) ↔
      size * 2 ≤ intMax ∧ ∃ i j, strchr lparen sql = some i ∧ strrchr rparen sql = some j ∧
        ∃ r, rewrite sql (buffer [] (size * 2).toNat) (i + 1) j = .ok r := by
  unfold withBrackets
  by_cases hmax : intMax < size * 2
  · simp only [if_neg (Int.not_lt.mpr h4), if_pos hmax]
    refine iff_of_false (fun h => ?_) fun h => absurd h.1 (by omega)
    obtain ⟨r, hr⟩ := h true true
    cases hr
  simp only [if_neg (Int.not_lt.mpr h4), if_neg hmax]
  rw [and_iff_right (by omega)]
  constructor
  · intro h
    obtain ⟨r, hr⟩ := h true true
    cases hi : strchr lparen sql with
    | none =>
        rw [hi] at hr
        cases hr
    | some i =>
        cases hj : strrchr rparen sql with
        | none =>
            rw [hi, hj] at hr
            cases hr
        | some j =>
            rw [hi, hj] at hr
            exact ⟨i, j, rfl, rfl, r, hr⟩
  · rintro ⟨i, j, hi, hj, r, hr⟩ palloc strdup
    rw [hi, hj]
    cases palloc with
    | false => exact ⟨_, rfl⟩
    | true =>
        cases strdup with
        | false => exact ⟨_, rfl⟩
        | true => exact ⟨r, hr⟩

/-- Whether or not there is memory, `TransformSql` and `TransformSchSql` stay in range exactly if
the sizes fit an `int`, there are both brackets, and the columns fit; for `TransformSql`
the text that is copied last has to fit too. -/
theorem transform_inRange_iff (t : Table) (sql : Bytes) (hzero : 0 ∉ sql) (h4 : 4 ≤ sql.length) :
    ((∀ palloc strdup, ∃ r, transformSql t (some sql) sql.length palloc strdup = .ok r) ↔
      (sql.length : ℤ) * 2 ≤ intMax ∧
      ∃ i j, strchr lparen sql = some i ∧ strrchr rparen sql = some j ∧
        ColumnsFit t (sql.length * 2 - (i + 1)) (piecesOf (columnList sql i j)) ∧
        i + 1 + ((rewriteList t (piecesOf (columnList sql i j))).getD []).length +
          (sql.length - j) < sql.length * 2) ∧
    ((∀ palloc strdup, ∃ r, transformSchSql t (some sql) sql.length palloc strdup = .ok r) ↔
      (sql.length : ℤ) * 2 ≤ intMax ∧
      ∃ i j, strchr lparen sql = some i ∧ strrchr rparen sql = some j ∧
        ColumnsFit t (sql.length * 2) (piecesOf (columnList sql i j)) ∧
        ∀ out, rewriteList t (piecesOf (columnList sql i j)) = some out →
          (sql.length : ℤ) * 2 + out.length ≤ intMax) := by
  have hsize : ((sql.length : ℤ) * 2).toNat = sql.length * 2 := by omega
  have hcast : ((sql.length * 2 : ℕ) : ℤ) = (sql.length : ℤ) * 2 := by omega
  have h4' : (4 : ℤ) ≤ sql.length := by omega
  constructor
  · rw [transformSql, withBrackets_ok _ _ h4', hsize]
    refine and_congr_right fun _ => exists_congr fun i => exists_congr fun j => ?_
    refine and_congr_right fun hi => and_congr_right fun hj => ?_
    have hi' := lt_length_of_strchr hi
    rw [transformCopy_ok t hi' (by omega), cstr_set hzero (lt_length_of_strrchr hj)]
  · rw [transformSchSql, withBrackets_ok _ _ h4', hsize]
    refine and_congr_right fun _ => exists_congr fun i => exists_congr fun j => ?_
    refine and_congr_right fun hi => and_congr_right fun hj => ?_
    rw [transformSchCopy_ok, cstr_set hzero (lt_length_of_strrchr hj), hcast]

/-- On `tab(a NUMBER)` both stay in range. -/
theorem transform_inRange_oneNumber :
    (∀ palloc strdup, ∃ r, transformSql numbers (some oneNumber.text) oneNumber.text.length
      palloc strdup = .ok r) ∧
    ∀ palloc strdup, ∃ r, transformSchSql numbers (some oneNumber.text) oneNumber.text.length
      palloc strdup = .ok r := by
  have h := transform_inRange_iff numbers oneNumber.text (by decide) (by decide)
  refine ⟨h.1.mpr ⟨by decide, 3, 12, rfl, rfl, by decide, by decide⟩,
    h.2.mpr ⟨by decide, 3, 12, rfl, rfl, by decide, ?_⟩⟩
  intro out hout
  cases hout
  decide

/-- The table with the line `n:xxxxxxxxxx:0` only. -/
def widening : Table where
  entries := ⟨0, 0, ⟨[110], by decide, by decide⟩, ⟨List.replicate 10 120, by decide, by decide⟩⟩ ::
    List.replicate 255 unused
  length_eq := by rw [List.length_cons, List.length_replicate]; rfl

/-- The statement `t(aa..a)` with a column of `n` characters. -/
def longColumn (n : ℕ) : Bytes := [116, lparen] ++ List.replicate n 97 ++ [rparen]

/-- The text `abcd` has no bracket, the type of `t(a n)` grows to ten characters, and a column of
128 characters fills `tmpbuf`. -/
theorem transform_outOfRange :
    (transformSql numbers (some [97, 98, 99, 100]) 4 true true = .error .nullPointer ∧
      transformSchSql numbers (some [97, 98, 99, 100]) 4 true true = .error .nullPointer) ∧
    (transformSql widening (some [116, lparen, 97, 32, 110, rparen]) 6 true true =
        .error .uxSqlOverflow ∧
      transformSchSql widening (some [116, lparen, 97, 32, 110, rparen]) 6 true true =
        .error .uxSqlOverflow) ∧
    (transformSql numbers (some (longColumn 128)) 131 true true).isOk = false ∧
      (transformSchSql numbers (some (longColumn 128)) 131 true true).isOk = false := by
  refine ⟨⟨rfl, rfl⟩, ⟨rfl, rfl⟩, ?_, ?_⟩
  · decide +kernel
  · decide +kernel

end Hatch.Types
