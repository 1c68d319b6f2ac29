import Hatch.TypeRewriting

/-!
# Statements with a column list

`TransformSql` returns zero exactly if there is memory, every piece of the column list has a
rewriting and room in `tmpbuf`, and the rewriting of the statement fits the output buffer, and
it leaves the rewriting there.
-/

namespace Hatch.Types

open ByteLayout (Bytes cstr)
open CString

variable {t : Table} {w out mem : Bytes} {k : ℕ} {s' : State} {r : Result}

/-! ### Texts without a zero -/

theorem Table.zero_notMem {o u : Bytes} (h : t.lookup o = some u) : 0 ∉ u := by
  obtain ⟨flag, hget⟩ := getMappingUXTypeName_ok.mp h
  unfold getMappingUXTypeName at hget
  split at hget
  · cases hget
  · next e _ =>
      cases hget
      exact e.utypeName.zero_notMem

theorem zero_notMem_rewritePiece {p : Bytes} (hp : 0 ∉ p) (h : rewritePiece t p = some out) :
    0 ∉ out := by
  by_cases hblank : blank ∈ p
  · obtain ⟨name, r, rfl, hname⟩ := List.eq_append_cons_of_mem hblank
    rw [rewritePiece_append hname, Option.map_eq_some_iff] at h
    obtain ⟨u, hu, rfl⟩ := h
    have hr : 0 ∉ r.dropWhile (fun c => c ≠ lparen) := fun hz =>
      hp (List.mem_append_right _
        (List.mem_cons_of_mem _ ((List.dropWhile_sublist _).subset hz)))
    have hn : 0 ∉ name := fun hz => hp (List.mem_append_left _ hz)
    simp only [List.mem_append, List.mem_cons, not_or]
    exact ⟨hn, by decide, Table.zero_notMem hu, hr⟩
  · rw [rewritePiece_eq_none hblank] at h
    cases h

theorem zero_notMem_rewriteList {ps : List Bytes} (hps : ∀ p ∈ ps, 0 ∉ p)
    (h : rewriteList t ps = some out) : 0 ∉ out := by
  induction ps generalizing out with
  | nil =>
      cases h
      simp
  | cons p ps ih =>
      have hp := hps p List.mem_cons_self
      cases ps with
      | nil =>
          by_cases hempty : p = []
          · obtain rfl : [] = out := by simpa [rewriteList, hempty] using h
            simp
          · exact zero_notMem_rewritePiece hp (by simpa [rewriteList, hempty] using h)
      | cons q ps =>
          obtain ⟨a, b, ha, hb, rfl⟩ := rewriteList_cons.mp h
          simp only [List.mem_append, List.mem_cons, not_or]
          exact ⟨zero_notMem_rewritePiece hp ha, by decide,
            ih (fun r hr => hps r (List.mem_cons_of_mem p hr)) hb⟩

theorem cstr_buffer (hw : 0 ∉ w) (hk : 0 < k) : cstr (buffer w k) 0 = w := by
  obtain ⟨j, rfl⟩ := Nat.exists_eq_succ_of_ne_zero hk.ne'
  exact ByteLayout.takeWhile_append_zero hw (List.replicate j 0)

namespace Statement

variable (stmt : Statement)

theorem zero_notMem_header : 0 ∉ stmt.header := fun h =>
  stmt.zero_notMem (List.mem_append_left _ (List.mem_append_left _ h))

theorem zero_notMem_list : 0 ∉ stmt.list := fun h =>
  stmt.zero_notMem (List.mem_append_left _ (List.mem_append_right _ h))

def withList (list : Bytes) : Bytes := stmt.header ++ lparen :: (list ++ rparen :: stmt.tail)

theorem zero_notMem_withList (h : rewriteList t stmt.pieces = some out) :
    0 ∉ stmt.withList out := by
  have hout : 0 ∉ out := by
    refine zero_notMem_rewriteList (fun p hp hz => ?_) h
    obtain ⟨q, hq, rfl⟩ := List.mem_map.mp hp
    exact stmt.zero_notMem_list (mem_of_mem_splitOn hq (mem_squeezed (by decide) hz)).1
  have htail : 0 ∉ stmt.tail := fun hz => stmt.zero_notMem (List.mem_append_right _ hz)
  simp only [withList, List.mem_append, List.mem_cons, not_or]
  exact ⟨stmt.zero_notMem_header, by decide, hout, by decide, htail⟩

/-! ### The brackets -/

def fixed : ℕ := stmt.header.length + 1

def searchEnd : ℕ := stmt.fixed + stmt.list.length

theorem strchr_text : strchr lparen stmt.text = some stmt.header.length :=
  strchr_append stmt.lparen_notMem

theorem text_eq : stmt.text = (stmt.header ++ [lparen] ++ stmt.list) ++ rparen :: stmt.tail := by
  simp [text]

theorem length_front : (stmt.header ++ [lparen] ++ stmt.list).length = stmt.searchEnd := by
  simp only [searchEnd, fixed, List.length_append, List.length_singleton]

theorem strrchr_text : strrchr rparen stmt.text = some stmt.searchEnd := by
  rw [text_eq, strrchr_append stmt.rparen_notMem, length_front]

theorem set_searchEnd : stmt.text.set stmt.searchEnd 0 =
    (stmt.header ++ [lparen] ++ stmt.list) ++ 0 :: stmt.tail := by
  rw [text_eq, ← length_front, List.set_append_right _ _ le_rfl, Nat.sub_self]
  rfl

theorem cstr_search : cstr (stmt.text.set stmt.searchEnd 0) 0 =
    stmt.header ++ [lparen] ++ stmt.list := by
  rw [set_searchEnd, cstr, List.drop_zero]
  apply ByteLayout.takeWhile_append_zero
  simp only [List.mem_append, List.mem_singleton, not_or]
  exact ⟨⟨stmt.zero_notMem_header, by decide⟩, stmt.zero_notMem_list⟩

theorem cstr_fixed : cstr (stmt.text.set stmt.searchEnd 0) stmt.fixed = stmt.list := by
  have hlen : (stmt.header ++ [lparen]).length = stmt.fixed := by simp [fixed]
  rw [set_searchEnd, cstr, List.append_assoc (stmt.header ++ [lparen]), List.drop_left' hlen]
  exact ByteLayout.takeWhile_append_zero stmt.zero_notMem_list stmt.tail

/-- Behind `TransformTypes` the text from the last `)` on is as it was. -/
theorem search_drop {seen : Bytes} (h : seen.length = stmt.list.length) :
    (stmt.text.take stmt.fixed ++ seen ++ stmt.text.drop (stmt.fixed + seen.length)).drop
      stmt.searchEnd = rparen :: stmt.tail := by
  have hfront : (stmt.text.take stmt.fixed ++ seen).length = stmt.searchEnd := by
    rw [List.length_append, h, List.length_take, text_eq, List.length_append, length_front]
    simp only [searchEnd]
    omega
  rw [List.drop_left' hfront, h, text_eq]
  exact List.drop_left' stmt.length_front

end Statement

/-! ### Whole statements -/

theorem splitOn_comma_notMem {list p : Bytes} (h : p ∈ list.splitOn comma) : comma ∉ p :=
  fun hc => (mem_of_mem_splitOn h hc).2 rfl

theorem transformTypes_sound {list : Bytes}
    (h : transformTypes t list (buffer w k) w.length = .ok s') :
    ∃ out, rewriteList t ((list.splitOn comma).map squeezed) = some out ∧
      (∀ p ∈ list.splitOn comma, (squeezed p).length < uxTypeNameLength) ∧ out.length ≤ k ∧
      s'.uxSql = buffer (w ++ out) (k - out.length) ∧ s'.uxSchOffset = out.length ∧
      s'.seen = list.map toBlank ∧
      s'.replaced = typesOf ((list.splitOn comma).map squeezed) := by
  have hlist : [comma].intercalate (list.splitOn comma) = list := List.intercalate_splitOn comma
  unfold transformTypes at h
  rw [← hlist] at h
  obtain ⟨out, hout, hlens, hk, hw⟩ := pieces_sound (list.splitOn comma)
    (List.splitOn_ne_nil comma list) (fun p hp => splitOn_comma_notMem hp) rfl rfl rfl h
  refine ⟨out, hout, hlens, hk, hw.uxSql, ?_, ?_, ?_⟩
  · rw [hw.uxSchOffset, Nat.zero_add]
  · rw [hw.seen, hlist, List.nil_append]
  · rw [hw.replaced, List.nil_append]

theorem transformTypes_complete {list : Bytes}
    (hlens : ∀ p ∈ list.splitOn comma, (squeezed p).length < uxTypeNameLength)
    (hout : rewriteList t ((list.splitOn comma).map squeezed) = some out) (hk : out.length < k) :
    ∃ s', transformTypes t list (buffer w k) w.length = .ok s' := by
  have hlist : [comma].intercalate (list.splitOn comma) = list := List.intercalate_splitOn comma
  unfold transformTypes
  rw [← hlist]
  exact pieces_complete (list.splitOn comma) (List.splitOn_ne_nil comma list)
    (fun p hp => splitOn_comma_notMem hp) rfl rfl rfl hlens hout hk

def Statement.result (stmt : Statement) (n : ℕ) (out : Bytes) : Result where
  ret := 0
  uxSql := some (buffer (stmt.withList out) (n - (stmt.withList out).length))
  uxSqlSize := some ↑(stmt.fixed + out.length)
  replaced := typesOf stmt.pieces

theorem finish_ret {sql : Bytes} {i j m : ℕ} {ret : ℤ} {s : State}
    (h : finish sql i j ret m s = .ok r) : r.ret = ret := by
  unfold finish at h
  cases hcopy : strcpy s.uxSql m
      ((sql.take i ++ s.seen ++ sql.drop (i + s.seen.length)).drop j) with
  | error f =>
      simp only [hcopy] at h
      cases h
  | ok mem =>
      simp only [hcopy] at h
      cases h
      rfl

theorem strncpy_header (stmt : Statement) (n : ℕ) :
    strncpy (buffer [] n) 0 (stmt.header ++ [lparen] ++ stmt.list) stmt.fixed =
      if stmt.fixed ≤ n then .ok (buffer (stmt.header ++ [lparen]) (n - stmt.fixed))
      else .error .uxSqlOverflow := by
  have hlen : (stmt.header ++ [lparen]).length = stmt.fixed := by simp [Statement.fixed]
  have hpad : stmt.fixed - (stmt.header ++ [lparen] ++ stmt.list).length = 0 := by
    rw [List.length_append, hlen]
    omega
  rw [strncpy, List.take_left' hlen, hpad, List.replicate_zero, List.append_nil]
  change store (buffer [] n) ([] : Bytes).length _ = _
  rw [store_buffer, hlen, List.nil_append]

theorem length_withList (stmt : Statement) (out : Bytes) :
    (stmt.withList out).length = stmt.fixed + out.length + (stmt.tail.length + 1) := by
  simp only [Statement.withList, Statement.fixed, List.length_append, List.length_cons]
  omega

/-- The end of a run that has written `out`. -/
theorem finish_wrote (stmt : Statement) {n : ℕ}
    (hbuf : s'.uxSql = buffer (stmt.header ++ [lparen] ++ out) (n - stmt.fixed - out.length))
    (hseen : s'.seen = stmt.list.map toBlank) (hrep : s'.replaced = typesOf stmt.pieces) :
    finish stmt.text stmt.fixed stmt.searchEnd 0 (stmt.fixed + out.length) s' =
      if (stmt.withList out).length < n then .ok (stmt.result n out)
      else .error .uxSqlOverflow := by
  have hseenlen : s'.seen.length = stmt.list.length := by rw [hseen, List.length_map]
  have hpos : stmt.fixed + out.length = (stmt.header ++ [lparen] ++ out).length := by
    simp only [Statement.fixed, List.length_append, List.length_singleton]
  have hlen := length_withList stmt out
  unfold finish
  simp only [stmt.search_drop hseenlen, hbuf]
  rw [hpos, strcpy_buffer, List.length_cons]
  by_cases h : stmt.tail.length + 1 < n - stmt.fixed - out.length
  · have hk : n - stmt.fixed - out.length - (stmt.tail.length + 1) =
        n - (stmt.withList out).length := by omega
    have htext : stmt.header ++ [lparen] ++ out ++ rparen :: stmt.tail = stmt.withList out := by
      simp [Statement.withList]
    rw [if_pos h, if_pos (by omega), hk, htext]
    change Except.ok _ = _
    rw [hrep, ← hpos]
    rfl
  · rw [if_neg h, if_neg (by omega)]
    rfl

/-- The copy is rewritten and zero returned exactly if every piece has a rewriting and room
and the rewriting of the statement fits. -/
theorem transformCopy_zero (stmt : Statement) (n : ℕ) :
    (transformCopy t stmt.text (buffer [] n) stmt.fixed stmt.searchEnd = .ok r ∧ r.ret = 0) ↔
      ∃ out, rewriteList t stmt.pieces = some out ∧
        (∀ p ∈ stmt.pieces, p.length < uxTypeNameLength) ∧
        (stmt.withList out).length < n ∧ r = stmt.result n out := by
  have hfixed : stmt.fixed = (stmt.header ++ [lparen]).length := by simp [Statement.fixed]
  have hpieces : (∀ p ∈ stmt.pieces, p.length < uxTypeNameLength) ↔
      ∀ p ∈ stmt.list.splitOn comma, (squeezed p).length < uxTypeNameLength :=
    List.forall_mem_map
  unfold transformCopy
  simp only [stmt.cstr_search, stmt.cstr_fixed, strncpy_header]
  by_cases hn : stmt.fixed ≤ n
  swap
  · rw [if_neg hn]
    constructor
    · rintro ⟨h, -⟩
      cases h
    · rintro ⟨out, -, -, hlt, -⟩
      rw [length_withList] at hlt
      omega
  rw [if_pos hn]
  change (afterTypes stmt.text stmt.fixed stmt.searchEnd
    (transformTypes t stmt.list (buffer _ _) stmt.fixed) = .ok r ∧ r.ret = 0) ↔ _
  constructor
  · rintro ⟨h, hzero⟩
    cases htypes : transformTypes t stmt.list
        (buffer (stmt.header ++ [lparen]) (n - stmt.fixed)) stmt.fixed with
    | error e =>
        rw [htypes] at h
        cases e with
        | fault f => cases h
        | ret e s => exact absurd ((finish_ret h).symm.trans hzero) e.code_ne_zero
    | ok s =>
        rw [htypes] at h
        rw [hfixed] at htypes
        obtain ⟨out, hout, hlens, -, hbuf, hoff, hseen, hrep⟩ := transformTypes_sound htypes
        rw [← hfixed] at hbuf
        rw [afterTypes, hoff, finish_wrote stmt hbuf hseen hrep] at h
        split_ifs at h with hlt
        exact ⟨out, hout, hpieces.mpr hlens, hlt, (Except.ok.inj h).symm⟩
  · rintro ⟨out, hout, hlens, hlt, rfl⟩
    have hk : out.length < n - stmt.fixed := by
      rw [length_withList] at hlt
      omega
    obtain ⟨s, hs⟩ := transformTypes_complete (w := stmt.header ++ [lparen])
      (hpieces.mp hlens) hout hk
    obtain ⟨out', hout', -, -, hbuf, hoff, hseen, hrep⟩ := transformTypes_sound hs
    obtain rfl : out' = out := Option.some.inj (hout'.symm.trans hout)
    rw [← hfixed] at hs
    rw [hs, afterTypes, hoff, finish_wrote stmt hbuf hseen hrep, if_pos hlt]
    exact ⟨rfl, rfl⟩

/-- Zero comes only from the function that rewrites between the brackets, with all memory there. -/
theorem withBrackets_zero (rewrite : Bytes → Bytes → ℕ → ℕ → Except Fault Result) (sql : Bytes)
    (size : ℤ) (palloc strdup : Bool) :
    (withBrackets rewrite (some sql) size palloc strdup = .ok r ∧ r.ret = 0) ↔
      (4 ≤ size ∧ size * 2 ≤ intMax ∧ palloc = true ∧ strdup = true) ∧
        ∃ i j, strchr lparen sql = some i ∧ strrchr rparen sql = some j ∧
          rewrite sql (buffer [] (size * 2).toNat) (i + 1) j = .ok r ∧ r.ret = 0 := by
  unfold withBrackets
  constructor
  · rintro ⟨h, hzero⟩
    dsimp only at h
    split_ifs at h with h4 hmax hpalloc hstrdup
    · cases h
      cases hzero
    · cases h
      cases hzero
    · cases h
      cases hzero
    · refine ⟨⟨by omega, by omega, by simpa using hpalloc, by simpa using hstrdup⟩, ?_⟩
      split at h
      · next i j hi hj => exact ⟨i, j, hi, hj, h, hzero⟩
      · cases h
  · rintro ⟨⟨h4, hmax, rfl, rfl⟩, i, j, hi, hj, hrun, hzero⟩
    simp only [if_neg (Int.not_lt.mpr h4), if_neg (Int.not_lt.mpr hmax), hi, hj]
    exact ⟨hrun, hzero⟩

theorem transformSql_zero (stmt : Statement) (size : ℤ) (palloc strdup : Bool) :
    (transformSql t (some stmt.text) size palloc strdup = .ok r ∧ r.ret = 0) ↔
      (4 ≤ size ∧ size * 2 ≤ intMax ∧ palloc = true ∧ strdup = true) ∧
        ∃ out, rewriteList t stmt.pieces = some out ∧
          (∀ p ∈ stmt.pieces, p.length < uxTypeNameLength) ∧
          (stmt.withList out).length < (size * 2).toNat ∧
          r = stmt.result (size * 2).toNat out := by
  rw [transformSql, withBrackets_zero, stmt.strchr_text, stmt.strrchr_text, ← transformCopy_zero]
  simp only [Option.some.injEq, exists_and_left, exists_eq_left']
  rfl

/-- If `TransformSql` returns zero, the text in the buffer is the rewriting of the statement.
It does return zero if there is a rewriting with room for it. -/
theorem transformSql_text (t : Table) (stmt : Statement) (size : ℤ) (palloc strdup : Bool) :
    (∀ r, transformSql t (some stmt.text) size palloc strdup = .ok r → r.ret = 0 →
      ∃ mem, r.uxSql = some mem ∧ stmt.rewriting t = some (cstr mem 0)) ∧
    (∀ text, stmt.rewriting t = some text → (text.length : ℤ) < size * 2 →
      (∀ p ∈ stmt.pieces, p.length < uxTypeNameLength) →
      4 ≤ size → size * 2 ≤ intMax → palloc = true → strdup = true →
      ∃ r mem, transformSql t (some stmt.text) size palloc strdup = .ok r ∧ r.ret = 0 ∧
        r.uxSql = some mem ∧ cstr mem 0 = text) := by
  constructor
  · intro r hr hzero
    obtain ⟨-, out, hout, -, hlt, rfl⟩ := (transformSql_zero stmt size palloc strdup).mp ⟨hr, hzero⟩
    refine ⟨_, rfl, ?_⟩
    rw [cstr_buffer (stmt.zero_notMem_withList hout) (by omega), Statement.rewriting, hout]
    rfl
  · intro text htext hfit hlens h4 hmax hpalloc hstrdup
    obtain ⟨out, hout, rfl⟩ := Option.map_eq_some_iff.mp htext
    have hlt : (stmt.withList out).length < (size * 2).toNat := by
      change ((stmt.withList out).length : ℤ) < size * 2 at hfit
      omega
    obtain ⟨hr, hzero⟩ := (transformSql_zero (t := t) stmt size palloc strdup).mpr
      ⟨⟨h4, hmax, hpalloc, hstrdup⟩, out, hout, hlens, hlt, rfl⟩
    refine ⟨_, _, hr, hzero, rfl, ?_⟩
    exact cstr_buffer (stmt.zero_notMem_withList hout) (by omega)

def unused : TypesMap where
  index := 0
  flag := 0
  otypeName := ⟨[], by decide, by decide⟩
  utypeName := ⟨[], by decide, by decide⟩

/-- The line `NUMBER:NUMERIC:1` of `typesMapping.config`. -/
def number : TypesMap where
  index := 0
  flag := 1
  otypeName := ⟨[78, 85, 77, 66, 69, 82], by decide, by decide⟩
  utypeName := ⟨[78, 85, 77, 69, 82, 73, 67], by decide, by decide⟩

def numbers : Table where
  entries := number :: List.replicate 255 unused
  length_eq := by rw [List.length_cons, List.length_replicate]; rfl

def tabHeader : Bytes := [116, 97, 98]

theorem lparen_notMem_tabHeader : lparen ∉ tabHeader := by decide

/-- The statement `tab(a NUMBER)`. -/
def oneNumber : Statement where
  header := tabHeader
  list := [97, 32, 78, 85, 77, 66, 69, 82]
  tail := []
  lparen_notMem := lparen_notMem_tabHeader
  rparen_notMem := List.not_mem_nil
  zero_notMem := by decide

/-- The result is `tab(a NUMERIC)`. -/
theorem transformSql_oneNumber :
    ∃ r mem, transformSql numbers (some oneNumber.text) 13 true true = .ok r ∧ r.ret = 0 ∧
      r.uxSql = some mem ∧
      cstr mem 0 = [116, 97, 98, 40, 97, 32, 78, 85, 77, 69, 82, 73, 67, 41] :=
  (transformSql_text numbers oneNumber 13 true true).2 _ (by decide) (by decide) (by decide)
    (by decide) (by decide) rfl rfl

end Hatch.Types
