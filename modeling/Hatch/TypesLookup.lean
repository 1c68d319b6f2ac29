import Hatch.TypesLoad
import Mathlib.Data.List.Basic

/-!
# Looking up loaded types

A configuration of lines `o:u:f` is loaded into the cleared table, and `GetMappingUXTypeName`
searches all of its slots. A slot that was not filled has the empty text for a name.
-/

namespace Hatch.Types

open ByteLayout (Bytes cstr zero_notMem_cstr takeWhile_append_zero)
open CString

/-! ### Tables in memory -/

theorem length_cstr_lt {b : Bytes} (h : 0 ∈ b) : (cstr b 0).length < b.length := by
  obtain ⟨a, r, rfl, ha⟩ := List.eq_append_cons_of_mem h
  rw [cstr, List.drop_zero, takeWhile_append_zero ha, List.length_append, List.length_cons]
  omega

def NameArray.name (a : NameArray) (h : 0 ∈ a.bytes) : TypeName where
  bytes := cstr a.bytes 0
  zero_notMem := zero_notMem_cstr _ _
  length_lt := a.length_eq ▸ length_cstr_lt h

def TypesSlot.Terminated (s : TypesSlot) : Prop := 0 ∈ s.otypeName.bytes ∧ 0 ∈ s.utypeName.bytes

def TypesSlot.entry (s : TypesSlot) (h : s.Terminated) : TypesMap :=
  ⟨s.index, s.flag, s.otypeName.name h.1, s.utypeName.name h.2⟩

def TableMemory.table (m : TableMemory) (h : ∀ s ∈ m.slots, s.Terminated) : Table where
  entries := m.slots.pmap TypesSlot.entry h
  length_eq := by rw [List.length_pmap, m.length_eq]

def searchSlots (q : Bytes) : List TypesSlot → Except TransformErr (Bytes × ℤ)
  | [] => .error .unidentifiedErr
  | s :: slots =>
      if cstr s.otypeName.bytes 0 = q then .ok (cstr s.utypeName.bytes 0, s.flag)
      else searchSlots q slots

theorem searchSlots_eq (slots : List TypesSlot) (h : ∀ s ∈ slots, s.Terminated) (q : Bytes) :
    searchSlots q slots =
      match (slots.pmap TypesSlot.entry h).find? fun e => e.otypeName.bytes = q with
      | none => .error .unidentifiedErr
      | some e => .ok (e.utypeName.bytes, e.flag) := by
  induction slots with
  | nil => rfl
  | cons s slots ih =>
      rw [List.pmap_cons, List.find?_cons, searchSlots]
      by_cases hq : cstr s.otypeName.bytes 0 = q
      · have hs : decide ((s.entry (h s List.mem_cons_self)).otypeName.bytes = q) = true :=
          decide_eq_true hq
        rw [if_pos hq, hs]
        rfl
      · have hs : decide ((s.entry (h s List.mem_cons_self)).otypeName.bytes = q) = false :=
          decide_eq_false hq
        rw [if_neg hq, hs]
        exact ih fun s hs => h s (List.mem_cons_of_mem _ hs)

theorem getMappingUXTypeName_table (m : TableMemory) (h : ∀ s ∈ m.slots, s.Terminated)
    (q : Bytes) : getMappingUXTypeName (m.table h) q = searchSlots q m.slots :=
  (searchSlots_eq m.slots h q).symm

theorem overwrite_zeroed {d : Bytes} (h : d.length < uxTypeNameLength) :
    ∃ k, (NameArray.zeroed.overwrite d).bytes = d ++ 0 :: List.replicate k 0 := by
  obtain ⟨k, hk⟩ := Nat.exists_eq_add_of_lt h
  refine ⟨k, ?_⟩
  have hrest : uxTypeNameLength - d.length = k + 1 := by omega
  change (d ++ (List.replicate uxTypeNameLength 0).drop d.length).take uxTypeNameLength = _
  rw [List.drop_replicate, hrest, List.replicate_succ, List.take_of_length_le]
  rw [List.length_append, List.length_cons, List.length_replicate]
  omega

theorem cstr_overwrite {d : Bytes} (h : d.length < uxTypeNameLength) (hz : 0 ∉ d) :
    cstr (NameArray.zeroed.overwrite d).bytes 0 = d := by
  obtain ⟨k, hk⟩ := overwrite_zeroed h
  rw [hk]
  exact takeWhile_append_zero hz _

theorem zero_mem_overwrite {d : Bytes} (h : d.length < uxTypeNameLength) :
    0 ∈ (NameArray.zeroed.overwrite d).bytes := by
  obtain ⟨k, hk⟩ := overwrite_zeroed h
  rw [hk]
  exact List.mem_append_right _ List.mem_cons_self

/-! ### Complete lines -/

def enteredSlots : ℕ → List Bytes → List TypesSlot
  | _, [] => []
  | index, line :: lines =>
      TypesSlot.zeroed.entered index (parseLine line) :: enteredSlots (index + 1) lines

theorem loadLoop_all {lines : List Bytes} {index : ℕ}
    (h : ∀ line ∈ lines, (parseLine line).IsComplete ∧ (parseLine line).Stays)
    (hlen : index + lines.length ≤ uxTypesNumMax) (m : TableMemory) :
    (loadLoop lines index m).result = .ok (0, m.enterAll index lines) := by
  induction lines generalizing index m with
  | nil => rfl
  | cons line lines ih =>
      rw [List.length_cons] at hlen
      obtain ⟨hc, hs⟩ := h line List.mem_cons_self
      rw [loadLoop_complete (by omega) hs hc]
      exact ih (fun l hl => h l (List.mem_cons_of_mem line hl)) (by omega) (m.enter index line)

theorem slots_enterAll (lines : List Bytes) (m : TableMemory) (filled : List TypesSlot) (k : ℕ)
    (hm : m.slots = filled ++ List.replicate (lines.length + k) .zeroed) :
    (m.enterAll filled.length lines).slots =
      filled ++ (enteredSlots filled.length lines ++ List.replicate k .zeroed) := by
  induction lines generalizing m filled with
  | nil =>
      rw [List.length_nil, Nat.zero_add] at hm
      exact hm
  | cons line lines ih =>
      have hrep : List.replicate ((line :: lines).length + k) TypesSlot.zeroed =
          .zeroed :: List.replicate (lines.length + k) .zeroed := by
        rw [List.length_cons, Nat.add_right_comm, List.replicate_succ]
      rw [hrep] at hm
      have hget : m.slots[filled.length]? = some .zeroed := by
        rw [hm, List.getElem?_append_right le_rfl, Nat.sub_self]
        rfl
      have hslots : (m.enter filled.length line).slots =
          (filled ++ [TypesSlot.zeroed.entered filled.length (parseLine line)]) ++
            List.replicate (lines.length + k) .zeroed := by
        rw [TableMemory.enter, hget]
        change m.slots.set _ _ = _
        rw [hm, List.set_append_right _ _ le_rfl, Nat.sub_self]
        simp
      have htail := ih _ _ hslots
      rw [List.length_append, List.length_singleton] at htail
      rw [TableMemory.enterAll, htail, enteredSlots]
      simp

theorem slots_loaded (lines : List Bytes) (h : lines.length ≤ uxTypesNumMax) :
    (TableMemory.zeroed.enterAll 0 lines).slots =
      enteredSlots 0 lines ++ List.replicate (uxTypesNumMax - lines.length) .zeroed := by
  have hm : TableMemory.zeroed.slots =
      [] ++ List.replicate (lines.length + (uxTypesNumMax - lines.length)) .zeroed := by
    rw [Nat.add_sub_cancel' h]
    rfl
  exact slots_enterAll lines .zeroed [] _ hm

/-! ### Configurations -/

structure MappingLine where
  otype : Bytes
  utype : Bytes
  flag : Bytes
  otype_ne : otype ≠ []
  utype_ne : utype ≠ []
  otype_lt : otype.length < uxTypeNameLength
  utype_lt : utype.length < uxTypeNameLength
  otype_char : ∀ c ∈ otype, c ≠ colon ∧ c ≠ newline ∧ c ≠ 0
  utype_char : ∀ c ∈ utype, c ≠ colon ∧ c ≠ newline ∧ c ≠ 0
  flag_ne : flag ≠ []
  flag_le : flag.length ≤ 9
  flag_digit : ∀ c ∈ flag, isDigit c = true

def MappingLine.bytes (l : MappingLine) : Bytes :=
  l.otype ++ colon :: (l.utype ++ colon :: l.flag)

def MappingLine.value (l : MappingLine) : ℤ := digitsValue l.flag

/-- The lines with their breaks, of which only the last may be missing. -/
def brokenLines (finalBreak : Bool) : List MappingLine → List Bytes
  | [] => []
  | [l] => [l.bytes ++ if finalBreak then [newline] else []]
  | l :: ls => (l.bytes ++ [newline]) :: brokenLines finalBreak ls

def configText (finalBreak : Bool) (lines : List MappingLine) : Bytes :=
  (brokenLines finalBreak lines).flatten

def mapped (lines : List MappingLine) (q : Bytes) : Except TransformErr (Bytes × ℤ) :=
  match lines.find? fun l => l.otype = q with
  | none => .error .unidentifiedErr
  | some l => .ok (l.utype, l.value)

/-- What may stand behind the flag of a line. -/
def IsBreak (e : Bytes) : Prop := e = [] ∨ e = [newline]

namespace MappingLine

variable (l : MappingLine) {e : Bytes}

theorem isDigit_ne {c d : UInt8} (h : isDigit c = true) (hd : isDigit d = false) : c ≠ d := by
  rintro rfl
  rw [h] at hd
  cases hd

theorem notMem_bytes {d : UInt8} (hc : colon ≠ d) (hd : isDigit d = false)
    (ho : ∀ c ∈ l.otype, c ≠ d) (hu : ∀ c ∈ l.utype, c ≠ d) : d ∉ l.bytes := by
  intro h
  rcases List.mem_append.mp h with h | h
  · exact ho d h rfl
  rcases List.mem_cons.mp h with h | h
  · exact hc h.symm
  rcases List.mem_append.mp h with h | h
  · exact hu d h rfl
  rcases List.mem_cons.mp h with h | h
  · exact hc h.symm
  · exact isDigit_ne (l.flag_digit d h) hd rfl

theorem newline_notMem : newline ∉ l.bytes :=
  l.notMem_bytes (by decide) (by decide) (fun c hc => (l.otype_char c hc).2.1)
    fun c hc => (l.utype_char c hc).2.1

theorem zero_notMem : 0 ∉ l.bytes :=
  l.notMem_bytes (by decide) (by decide) (fun c hc => (l.otype_char c hc).2.2)
    fun c hc => (l.utype_char c hc).2.2

theorem length_bytes_le : l.bytes.length ≤ 265 := by
  have ho := l.otype_lt
  have hu := l.utype_lt
  have hf := l.flag_le
  rw [bytes, List.length_append, List.length_cons, List.length_append, List.length_cons]
  unfold uxTypeNameLength at ho hu
  omega

theorem parseLine_append (e : Bytes) :
    parseLine (l.bytes ++ e) = .fields l.otype l.utype (l.flag ++ e) := by
  have hcat : l.bytes ++ e = l.otype ++ colon :: (l.utype ++ colon :: (l.flag ++ e)) := by
    simp [bytes]
  rw [hcat]
  exact parseLine_fields (fun h => (l.otype_char _ h).1 rfl) fun h => (l.utype_char _ h).1 rfl

theorem fits_append (he : IsBreak e) : (parseLine (l.bytes ++ e)).Fits := by
  have hf := l.flag_le
  have hlen : e.length ≤ 1 := by
    rcases he with rfl | rfl
    · exact Nat.zero_le _
    · exact le_rfl
  rw [parseLine_append]
  refine ⟨l.otype_lt, l.utype_lt, ?_⟩
  rw [List.length_append]
  unfold flagSize
  omega

end MappingLine

/-! ### Flags -/

theorem foldl_digits_lt {ds : Bytes} (h : ∀ c ∈ ds, isDigit c = true) {v k : ℕ} (hv : v < 10 ^ k) :
    ds.foldl (fun v c => 10 * v + (c.toNat - 48)) v < 10 ^ (k + ds.length) := by
  induction ds generalizing v k with
  | nil => exact hv
  | cons c ds ih =>
      have hc : c.toNat ≤ 57 := by
        have hd := h c List.mem_cons_self
        simp only [isDigit, Bool.and_eq_true, decide_eq_true_eq] at hd
        exact UInt8.le_iff_toNat_le.mp hd.2
      have hstep : 10 * v + (c.toNat - 48) < 10 ^ (k + 1) := by
        rw [Nat.pow_succ]
        omega
      rw [List.foldl_cons, List.length_cons, ← Nat.add_assoc, Nat.add_right_comm]
      exact ih (fun d hd => h d (List.mem_cons_of_mem c hd)) hstep

theorem MappingLine.value_lt (l : MappingLine) : l.value < 10 ^ 9 := by
  have h := foldl_digits_lt l.flag_digit (v := 0) (k := 0) (by decide)
  have hmono : 10 ^ (0 + l.flag.length) ≤ 10 ^ 9 :=
    Nat.pow_le_pow_right (by decide) (by have := l.flag_le; omega)
  have hnat : digitsValue l.flag < 10 ^ 9 := Nat.lt_of_lt_of_le h hmono
  unfold MappingLine.value
  omega

/-- A digit is no space and no sign. -/
theorem isSpace_of_isDigit {c : UInt8} (h : isDigit c = true) :
    isSpace c = false ∧ c ≠ 45 ∧ c ≠ 43 := by
  refine ⟨?_, MappingLine.isDigit_ne h (by decide), MappingLine.isDigit_ne h (by decide)⟩
  have hne : c ≠ 32 := MappingLine.isDigit_ne h (by decide)
  have hle : ¬ c ≤ 13 := by
    simp only [isDigit, Bool.and_eq_true, decide_eq_true_eq] at h
    exact fun hc => absurd (UInt8.le_trans h.1 hc) (by decide)
  simp [isSpace, hne, hle]

/-- `atoi` reads the digits and stops at the line break. -/
theorem MappingLine.atoi_append (l : MappingLine) {e : Bytes} (he : IsBreak e) :
    atoi (l.flag ++ e) = l.value := by
  have htake : (l.flag ++ e).takeWhile isDigit = l.flag := by
    rw [List.takeWhile_append_of_pos l.flag_digit]
    rcases he with rfl | rfl
    · exact List.append_nil _
    · exact List.append_nil _
  have hvalue : (l.value).bmod (2 ^ 32) = l.value := by
    have hlt := l.value_lt
    have hnonneg : 0 ≤ l.value := Int.natCast_nonneg _
    exact Int.bmod_eq_of_le (by omega) (by omega)
  obtain ⟨c, ds, hflag⟩ := List.exists_cons_of_ne_nil l.flag_ne
  have hc : isDigit c = true := l.flag_digit c (hflag ▸ List.mem_cons_self)
  obtain ⟨hspace, hminus, hplus⟩ := isSpace_of_isDigit hc
  have hdrop : (l.flag ++ e).dropWhile isSpace = l.flag ++ e := by
    rw [hflag, List.cons_append, List.dropWhile_cons_of_neg (by rw [hspace]; decide)]
  have hhead : (l.flag ++ e).head? = some c := by
    rw [hflag]
    rfl
  unfold atoi signedValue
  rw [hdrop, hhead, if_neg (fun h => hminus (Option.some.inj h)),
    if_neg (fun h => hplus (Option.some.inj h)), htake]
  exact hvalue

/-! ### The loaded mapping -/

theorem isBreak_final (finalBreak : Bool) : IsBreak (if finalBreak then [newline] else []) := by
  cases finalBreak
  · exact .inl rfl
  · exact .inr rfl

theorem brokenLines_cons (finalBreak : Bool) (l : MappingLine) (lines : List MappingLine) :
    ∃ e, IsBreak e ∧
      brokenLines finalBreak (l :: lines) = (l.bytes ++ e) :: brokenLines finalBreak lines := by
  cases lines with
  | nil => exact ⟨_, isBreak_final finalBreak, rfl⟩
  | cons k lines => exact ⟨[newline], .inr rfl, rfl⟩

theorem length_brokenLines (finalBreak : Bool) (lines : List MappingLine) :
    (brokenLines finalBreak lines).length = lines.length := by
  induction lines with
  | nil => rfl
  | cons l lines ih =>
      obtain ⟨e, -, hcons⟩ := brokenLines_cons finalBreak l lines
      rw [hcons, List.length_cons, ih, List.length_cons]

theorem fits_brokenLines (finalBreak : Bool) (lines : List MappingLine) :
    ∀ b ∈ brokenLines finalBreak lines, (parseLine b).IsComplete ∧ (parseLine b).Fits := by
  induction lines with
  | nil => exact nofun
  | cons l lines ih =>
      obtain ⟨e, he, hcons⟩ := brokenLines_cons finalBreak l lines
      rw [hcons, List.forall_mem_cons]
      refine ⟨⟨?_, l.fits_append he⟩, ih⟩
      rw [l.parseLine_append]
      trivial

theorem MappingLine.cstr_append (l : MappingLine) {e : Bytes} (he : IsBreak e) :
    cstr (l.bytes ++ e) 0 = l.bytes ++ e := by
  rw [cstr, List.drop_zero, List.takeWhile_eq_self_iff]
  intro c hc
  refine bne_iff_ne.mpr ?_
  rintro rfl
  rcases List.mem_append.mp hc with hc | hc
  · exact l.zero_notMem hc
  · rcases he with rfl | rfl
    · cases hc
    · exact absurd (List.mem_singleton.mp hc) (by decide)

theorem configLines_configText (finalBreak : Bool) (lines : List MappingLine) :
    configLines (configText finalBreak lines) = brokenLines finalBreak lines := by
  have hread : ∀ (l : MappingLine) (rest : Bytes), configLines (l.bytes ++ newline :: rest) =
      (l.bytes ++ [newline]) :: configLines rest := fun l rest => by
    have hlen : l.bytes.length < configbufSize - 1 :=
      Nat.lt_of_le_of_lt l.length_bytes_le (by decide)
    rw [configLines, LineReader.reads_append_line l.newline_notMem hlen, List.map_cons,
      l.cstr_append (.inr rfl), configLines]
  induction lines with
  | nil => rfl
  | cons l lines ih =>
      cases lines with
      | nil =>
          cases finalBreak with
          | true =>
              have htext : configText true [l] = l.bytes ++ newline :: [] := by
                simp [configText, brokenLines]
              rw [htext, hread]
              rfl
          | false =>
              have htext : configText false [l] = l.bytes := by simp [configText, brokenLines]
              have hne : l.bytes ≠ [] := by simp [MappingLine.bytes]
              have hlen : l.bytes.length ≤ configbufSize - 1 :=
                Nat.le_trans l.length_bytes_le (by decide)
              have hcstr := l.cstr_append (.inl rfl)
              rw [List.append_nil] at hcstr
              rw [htext, configLines, LineReader.reads_last l.newline_notMem hne hlen,
                List.map_singleton, hcstr]
              exact congrArg (fun b => [b]) (List.append_nil _).symm
      | cons k lines =>
          have htext : configText finalBreak (l :: k :: lines) =
              l.bytes ++ newline :: configText finalBreak (k :: lines) := by
            simp [configText, brokenLines]
          rw [htext, hread, ih]
          rfl

/-- A line fills its slot with its names and its flag. -/
theorem MappingLine.entered_append (l : MappingLine) {e : Bytes} (he : IsBreak e) (index : ℕ) :
    TypesSlot.zeroed.entered index (parseLine (l.bytes ++ e)) =
      ⟨index, l.value, NameArray.zeroed.overwrite l.otype, NameArray.zeroed.overwrite l.utype⟩ := by
  rw [l.parseLine_append, TypesSlot.entered, l.atoi_append he]
  rfl

/-- The lines are searched first, and the slots that were not filled behind them. -/
theorem searchSlots_lines (finalBreak : Bool) (lines : List MappingLine) (index : ℕ)
    (slots : List TypesSlot) (q : Bytes) :
    searchSlots q (enteredSlots index (brokenLines finalBreak lines) ++ slots) =
      match lines.find? fun l => l.otype = q with
      | none => searchSlots q slots
      | some l => .ok (l.utype, l.value) := by
  induction lines generalizing index with
  | nil => rfl
  | cons l lines ih =>
      obtain ⟨e, he, hcons⟩ := brokenLines_cons finalBreak l lines
      have ho := cstr_overwrite l.otype_lt fun h => (l.otype_char 0 h).2.2 rfl
      have hu := cstr_overwrite l.utype_lt fun h => (l.utype_char 0 h).2.2 rfl
      rw [hcons, enteredSlots, l.entered_append he, List.cons_append, searchSlots, ho, hu,
        List.find?_cons]
      by_cases hq : l.otype = q
      · rw [if_pos hq, decide_eq_true hq]
      · rw [if_neg hq, decide_eq_false hq]
        exact ih (index + 1)

theorem cstr_zeroed : cstr NameArray.zeroed.bytes 0 = [] := rfl

/-- The first slot that was not filled has the empty name. -/
theorem searchSlots_zeroed (k : ℕ) (q : Bytes) :
    searchSlots q (List.replicate k .zeroed) =
      if 0 < k ∧ q = [] then .ok ([], 0) else .error .unidentifiedErr := by
  induction k with
  | zero => rfl
  | succ k ih =>
      rw [List.replicate_succ, searchSlots, ih]
      change (if cstr NameArray.zeroed.bytes 0 = q then
        Except.ok (cstr NameArray.zeroed.bytes 0, (0 : ℤ)) else _) = _
      rw [cstr_zeroed]
      by_cases hq : q = []
      · rw [if_pos hq.symm, if_pos ⟨Nat.succ_pos k, hq⟩]
      · rw [if_neg fun h => hq h.symm, if_neg fun h => hq h.2, if_neg fun h => hq h.2]

theorem terminated_zeroed : TypesSlot.zeroed.Terminated := by
  have h : 0 ∈ NameArray.zeroed.bytes := List.mem_replicate.mpr ⟨by decide, rfl⟩
  exact ⟨h, h⟩

theorem terminated_lines (finalBreak : Bool) (lines : List MappingLine) (index : ℕ) :
    ∀ s ∈ enteredSlots index (brokenLines finalBreak lines), s.Terminated := by
  induction lines generalizing index with
  | nil => exact nofun
  | cons l lines ih =>
      obtain ⟨e, he, hcons⟩ := brokenLines_cons finalBreak l lines
      rw [hcons, enteredSlots, List.forall_mem_cons, l.entered_append he]
      exact ⟨⟨zero_mem_overwrite l.otype_lt, zero_mem_overwrite l.utype_lt⟩, ih (index + 1)⟩

/-- The table that a configuration of at most 256 lines gives. -/
theorem load_configText (finalBreak : Bool) (lines : List MappingLine)
    (h : lines.length ≤ uxTypesNumMax) :
    ∃ m, (loadTypesMappingRelation (.file (configText finalBreak lines)) .zeroed).result =
        .ok (0, m) ∧
      m.slots = enteredSlots 0 (brokenLines finalBreak lines) ++
        List.replicate (uxTypesNumMax - lines.length) .zeroed ∧
      ∀ s ∈ m.slots, s.Terminated := by
  have hlen := length_brokenLines finalBreak lines
  have hslots := slots_loaded (brokenLines finalBreak lines) (by omega)
  rw [hlen] at hslots
  refine ⟨TableMemory.zeroed.enterAll 0 (brokenLines finalBreak lines), ?_, hslots, ?_⟩
  · rw [loadTypesMappingRelation, configLines_configText]
    exact loadLoop_all (fun b hb => ⟨(fits_brokenLines finalBreak lines b hb).1,
      (fits_brokenLines finalBreak lines b hb).2.stays⟩) (by omega) .zeroed
  · rw [hslots, List.forall_mem_append]
    refine ⟨terminated_lines finalBreak lines 0, fun s hs => ?_⟩
    rw [(List.mem_replicate.mp hs).2]
    exact terminated_zeroed

theorem find?_nil (lines : List MappingLine) : (lines.find? fun l => l.otype = []) = none :=
  List.find?_eq_none.mpr fun l _ h => l.otype_ne (of_decide_eq_true h)

theorem mapped_nil (lines : List MappingLine) : mapped lines [] = .error .unidentifiedErr := by
  rw [mapped, find?_nil]

/-- The lookup is the mapping of the lines, up to the empty name in a table with room. -/
theorem search_configText (finalBreak : Bool) (lines : List MappingLine) (q : Bytes)
    {m : TableMemory}
    (hm : m.slots = enteredSlots 0 (brokenLines finalBreak lines) ++
      List.replicate (uxTypesNumMax - lines.length) .zeroed)
    (ht : ∀ s ∈ m.slots, s.Terminated) :
    getMappingUXTypeName (m.table ht) q =
      if lines.length < uxTypesNumMax ∧ q = [] then .ok ([], 0) else mapped lines q := by
  rw [getMappingUXTypeName_table, hm, searchSlots_lines, searchSlots_zeroed]
  by_cases hq : q = []
  · subst hq
    rw [mapped_nil, find?_nil]
    dsimp only
    by_cases hlt : lines.length < uxTypesNumMax
    · rw [if_pos ⟨by omega, rfl⟩, if_pos ⟨hlt, rfl⟩]
    · rw [if_neg fun h => hlt (by omega), if_neg fun h => hlt h.1]
  · rw [if_neg fun h => hq h.2, if_neg fun h => hq h.2]
    rfl

/-- `GetMappingUXTypeName` is the loaded mapping exactly if the type looked up is not empty or no
slot is left. -/
theorem lookup_loaded_iff (finalBreak : Bool) (lines : List MappingLine)
    (h : lines.length ≤ uxTypesNumMax) (q : Bytes) :
    (∃ m, ∃ ht : ∀ s ∈ m.slots, s.Terminated,
      (loadTypesMappingRelation (.file (configText finalBreak lines)) .zeroed).result =
        .ok (0, m) ∧ getMappingUXTypeName (m.table ht) q = mapped lines q) ↔
      q ≠ [] ∨ lines.length = uxTypesNumMax := by
  obtain ⟨m, hload, hm, ht⟩ := load_configText finalBreak lines h
  constructor
  · rintro ⟨m', ht', hload', hget⟩
    obtain rfl : m' = m := (Prod.mk.inj (Except.ok.inj (hload'.symm.trans hload))).2
    by_contra hcond
    rw [not_or, not_not] at hcond
    obtain ⟨rfl, hne⟩ := hcond
    rw [search_configText finalBreak lines [] hm, if_pos ⟨by omega, rfl⟩, mapped_nil] at hget
    cases hget
  · intro hq
    refine ⟨m, ht, hload, ?_⟩
    rw [search_configText finalBreak lines q hm, if_neg]
    rintro ⟨hlt, rfl⟩
    rcases hq with hq | hq
    · exact hq rfl
    · omega

theorem length_numberName_lt :
    ([78, 85, 77, 66, 69, 82] : Bytes).length < uxTypeNameLength := by decide

theorem length_numericName_lt :
    ([78, 85, 77, 69, 82, 73, 67] : Bytes).length < uxTypeNameLength := by decide

/-- The line `NUMBER:NUMERIC:1`. -/
def numberLine : MappingLine where
  otype := [78, 85, 77, 66, 69, 82]
  utype := [78, 85, 77, 69, 82, 73, 67]
  flag := [49]
  otype_ne := List.cons_ne_nil _ _
  utype_ne := List.cons_ne_nil _ _
  otype_lt := length_numberName_lt
  utype_lt := length_numericName_lt
  otype_char := by simp [colon, newline]
  utype_char := by simp [colon, newline]
  flag_ne := List.cons_ne_nil _ _
  flag_le := by decide
  flag_digit := List.forall_mem_singleton.mpr rfl

theorem lookup_loaded_number :
    ∃ m, ∃ ht : ∀ s ∈ m.slots, s.Terminated,
      (loadTypesMappingRelation (.file (configText true [numberLine])) .zeroed).result =
        .ok (0, m) ∧ getMappingUXTypeName (m.table ht) numberLine.otype =
          mapped [numberLine] numberLine.otype :=
  (lookup_loaded_iff true [numberLine] (by decide) numberLine.otype).mpr
    (.inl numberLine.otype_ne)

/-- With one line loaded, the empty type is found and mapped to the empty type. -/
theorem lookup_loaded_empty :
    ∃ m, ∃ ht : ∀ s ∈ m.slots, s.Terminated,
      (loadTypesMappingRelation (.file (configText true [numberLine])) .zeroed).result =
        .ok (0, m) ∧ getMappingUXTypeName (m.table ht) [] = .ok ([], 0) ∧
      mapped [numberLine] [] = .error .unidentifiedErr := by
  obtain ⟨m, hload, hm, ht⟩ := load_configText true [numberLine] (by decide)
  refine ⟨m, ht, hload, ?_, rfl⟩
  rw [search_configText true [numberLine] [] hm, if_pos ⟨by decide, rfl⟩]

end Hatch.Types
