import Hatch.TypeBounds

/-!
# The sizes that the type rewriter reports

Both functions are given a pointer for the length of the text. `TransformSql` stops counting at
the end of the column list, and `TransformSchSql` starts from the size of the buffer.
-/

namespace Hatch.Types

open ByteLayout (Bytes cstr patch eq_zero_of_cstr getElem?_patch)
open CString
open FaultProgram (bind_eq_ok)

variable {t : Table} {w : Bytes}

/-- If a call returns zero, `*uxSqlSize` is the length of the text in the buffer. -/
def ReportsSize (run : Except Fault Result) : Prop :=
  ∀ r, run = .ok r → r.ret = 0 →
    ∃ mem, r.uxSql = some mem ∧ r.uxSqlSize = some ((cstr mem 0).length : ℤ)

/-- What `TransformTypes` changes in a statement lies between the brackets. -/
theorem search_getElem? {sql seen : Bytes} {i j : ℕ} (hi : i < sql.length) (hj : j < sql.length)
    (hseen : seen.length = (columnList sql i j).length) :
    (sql.take (i + 1) ++ seen ++ sql.drop (i + 1 + seen.length))[j]? = sql[j]? := by
  have hfront : (sql.take (i + 1)).length = i + 1 := List.length_take_of_le hi
  by_cases hij : i < j
  · have hlen : i + 1 + seen.length = j := by
      rw [hseen, columnList, if_pos hij, List.length_drop, List.length_take]
      omega
    have hleft : (sql.take (i + 1) ++ seen).length = j := by
      rw [List.length_append, hfront, hlen]
    rw [hlen, List.getElem?_append_right hleft.le, hleft, Nat.sub_self, List.getElem?_drop,
      Nat.add_zero]
  · have hlt : j < (sql.take (i + 1)).length := by omega
    rw [List.append_assoc, List.getElem?_append_left hlt, List.getElem?_take_of_lt (by omega)]

/-- `TransformSql` leaves a `)` at the position that it reports. -/
theorem transformCopy_size (t : Table) {sql : Bytes} {n i j : ℕ} {r : Result} (hzero : 0 ∉ sql)
    (hi : i < sql.length) (hj : strrchr rparen sql = some j)
    (h : transformCopy t sql (buffer [] n) (i + 1) j = .ok r) (hret : r.ret = 0) :
    ∃ (mem : Bytes) (m : ℕ), r.uxSql = some mem ∧ r.uxSqlSize = some ↑m ∧
      mem[m]? = some rparen := by
  obtain ⟨w, hw, hrun⟩ := transformCopy_run t sql j (lt_of_transformCopy h)
  have hleaves := transformTypes_leaves t (cstr (sql.set j 0) (i + 1)) (buffer w (n - (i + 1)))
    w.length
  have hj' := lt_length_of_strrchr hj
  rw [hrun] at h
  cases htypes : transformTypes t (cstr (sql.set j 0) (i + 1)) (buffer w (n - (i + 1)))
      w.length with
  | error e =>
      rw [htypes] at h
      cases e with
      | fault f => cases h
      | ret e s => exact absurd ((finish_ret h).symm.trans hret) e.code_ne_zero
  | ok s =>
      rw [htypes] at h hleaves
      have hseen : s.seen.length = (columnList sql i j).length := by
        rw [hleaves.2, cstr_set hzero hj']
        exact Nat.zero_add _
      obtain ⟨mem, hmem, hr⟩ := bind_eq_ok h
      cases hr
      refine ⟨mem, _, rfl, rfl, ?_⟩
      have hroom := (store_ok _ _ _).mp ⟨mem, hmem⟩
      have hpatch : mem = patch s.uxSql (i + 1 + s.uxSchOffset)
          ((sql.take (i + 1) ++ s.seen ++ sql.drop (i + 1 + s.seen.length)).drop j ++ [0]) := by
        unfold strcpy store at hmem
        rw [if_pos hroom] at hmem
        exact (Except.ok.inj hmem).symm
      have hsearch : (sql.take (i + 1) ++ s.seen ++ sql.drop (i + 1 + s.seen.length))[j]? =
          some rparen := by rw [search_getElem? hi hj' hseen, getElem?_of_strrchr hj]
      rw [hpatch, getElem?_patch (by omega) (by simp), List.head?_append, List.head?_drop, hsearch]
      rfl

theorem zero_notMem_piecesOf {list : Bytes} (h : 0 ∉ list) : ∀ p ∈ piecesOf list, 0 ∉ p := by
  intro p hp hz
  obtain ⟨q, hq, rfl⟩ := List.mem_map.mp hp
  exact h (mem_of_mem_splitOn hq (mem_squeezed (by decide) hz)).1

theorem cstr_buffer_of_notMem (hw : 0 ∉ w) (k : ℕ) : cstr (buffer w k) 0 = w := by
  cases k with
  | zero =>
      change (w ++ []).takeWhile _ = w
      rw [List.append_nil, List.takeWhile_eq_self_iff]
      exact fun c hc => bne_iff_ne.mpr fun h => hw (h ▸ hc)
  | succ k => exact cstr_buffer hw (Nat.succ_pos k)

/-- `TransformSchSql` reports the size of the buffer and the length of the text together. -/
theorem transformSchCopy_size (t : Table) {sql : Bytes} {n fixed j : ℕ} {r : Result}
    (h : transformSchCopy t sql (buffer [] n) fixed j = .ok r) (hret : r.ret = 0) :
    ∃ mem, r.uxSql = some mem ∧ r.uxSqlSize = some (n + (cstr mem 0).length : ℤ) := by
  unfold transformSchCopy at h
  have hmem : (buffer [] n).length = n := by rw [length_buffer, List.length_nil, Nat.zero_add]
  cases htypes : transformTypes t (cstr (sql.set j 0) fixed) (buffer [] n) 0 with
  | error e =>
      rw [htypes] at h
      cases e with
      | fault f => cases h
      | ret e s =>
          cases h
          exact absurd hret e.code_ne_zero
  | ok s =>
      obtain ⟨out, hout, -, -, hbuf, hoff, -⟩ := transformTypes_sound (w := []) htypes
      have hnz := zero_notMem_rewriteList
        (zero_notMem_piecesOf (ByteLayout.zero_notMem_cstr (sql.set j 0) fixed)) hout
      rw [htypes, afterSchTypes, hmem, hoff] at h
      split_ifs at h
      cases h
      refine ⟨_, rfl, ?_⟩
      rw [hbuf, List.nil_append, cstr_buffer_of_notMem hnz]

/-- Neither function ever reports the length of its text: as soon as a call returns zero, the
reported size is wrong. -/
theorem transform_reportsSize_iff (t : Table) (sql : Bytes) (hzero : 0 ∉ sql) (size : ℤ)
    (palloc strdup : Bool) :
    (ReportsSize (transformSql t (some sql) size palloc strdup) ↔
      ∀ r, transformSql t (some sql) size palloc strdup = .ok r → r.ret ≠ 0) ∧
    (ReportsSize (transformSchSql t (some sql) size palloc strdup) ↔
      ∀ r, transformSchSql t (some sql) size palloc strdup = .ok r → r.ret ≠ 0) := by
  refine ⟨⟨fun h r hr hret => ?_, fun h r hr hret => absurd hret (h r hr)⟩,
    ⟨fun h r hr hret => ?_, fun h r hr hret => absurd hret (h r hr)⟩⟩
  · obtain ⟨mem, hmem, hlen⟩ := h r hr hret
    obtain ⟨-, i, j, hi, hj, hcopy, -⟩ := (withBrackets_zero _ _ _ _ _).mp ⟨hr, hret⟩
    obtain ⟨mem', m, hmem', hlen', hparen⟩ :=
      transformCopy_size t hzero (lt_length_of_strchr hi) hj hcopy hret
    obtain rfl : mem' = mem := Option.some.inj (hmem'.symm.trans hmem)
    obtain rfl : m = (cstr mem' 0).length :=
      Int.natCast_inj.mp (Option.some.inj (hlen'.symm.trans hlen))
    exact absurd (eq_zero_of_cstr hparen) (by decide)
  · obtain ⟨mem, hmem, hlen⟩ := h r hr hret
    obtain ⟨⟨h4, -⟩, i, j, -, -, hcopy, -⟩ := (withBrackets_zero _ _ _ _ _).mp ⟨hr, hret⟩
    obtain ⟨mem', hmem', hlen'⟩ := transformSchCopy_size t hcopy hret
    obtain rfl : mem' = mem := Option.some.inj (hmem'.symm.trans hmem)
    have heq := Option.some.inj (hlen'.symm.trans hlen)
    omega

/-- For `tab(a NUMBER)` the calls return zero, and no size is right. -/
theorem transform_reportsSize_oneNumber :
    ¬ ReportsSize (transformSql numbers (some oneNumber.text) 13 true true) ∧
      ¬ ReportsSize (transformSchSql numbers (some oneNumber.text) 13 true true) := by
  have h := transform_reportsSize_iff numbers oneNumber.text (by decide) 13 true true
  exact ⟨fun hsize => h.1.mp hsize _ rfl rfl, fun hsize => h.2.mp hsize _ rfl rfl⟩

/-- `TransformSql` reports 13 for the 14 characters of `tab(a NUMERIC)`, and `TransformSchSql`
reports 35 for the 9 characters of `a NUMERIC`. -/
theorem transform_sizes_oneNumber :
    (∃ r mem, transformSql numbers (some oneNumber.text) 13 true true = .ok r ∧ r.ret = 0 ∧
      r.uxSql = some mem ∧ r.uxSqlSize = some 13 ∧ (cstr mem 0).length = 14) ∧
    ∃ r mem, transformSchSql numbers (some oneNumber.text) 13 true true = .ok r ∧ r.ret = 0 ∧
      r.uxSql = some mem ∧ r.uxSqlSize = some 35 ∧ (cstr mem 0).length = 9 :=
  ⟨⟨_, _, rfl, rfl, rfl, rfl, rfl⟩, ⟨_, _, rfl, rfl, rfl, rfl, rfl⟩⟩

end Hatch.Types
