import Hatch.FaultProgram
import Hatch.LineReader
import Hatch.TypesTransform

/-!
# Loading the type mapping

`LoadTypesMappingRelation` reads a configuration line by line into the slots of a global table,
and `ReloadTypesMappingRelation` clears the table first. The table is memory here: the arrays for
the names have their size and may lack a terminating zero. A copy that does not fit its array is
a fault. The lines handed to `AddTypeMappingNode` are kept as a history.
-/

namespace Hatch.Types

open ByteLayout (Bytes cstr)
open CString
open FaultProgram (bind_eq_ok)

inductive LoadFault where
  | slotOutside
  | nameOverflow
  | flagOverflow
  | flagUnterminated
  deriving DecidableEq, Repr

def colon : UInt8 := 58

def flagSize : ℕ := 16

def configbufSize : ℕ := 512

structure NameArray where
  bytes : Bytes
  length_eq : bytes.length = uxTypeNameLength

structure TypesSlot where
  index : ℤ
  flag : ℤ
  otypeName : NameArray
  utypeName : NameArray

structure TableMemory where
  slots : List TypesSlot
  length_eq : slots.length = uxTypesNumMax

def NameArray.zeroed : NameArray := ⟨List.replicate uxTypeNameLength 0, List.length_replicate⟩

def TypesSlot.zeroed : TypesSlot := ⟨0, 0, .zeroed, .zeroed⟩

def TableMemory.zeroed : TableMemory :=
  ⟨List.replicate uxTypesNumMax .zeroed, List.length_replicate⟩

/-! ### Copies -/

/-- The text at the front of the array, as far as it goes, and what was behind it. -/
def NameArray.overwrite (a : NameArray) (d : Bytes) : NameArray where
  bytes := (d ++ a.bytes.drop d.length).take uxTypeNameLength
  length_eq := by
    rw [List.length_take, List.length_append, List.length_drop, a.length_eq]
    omega

/-- `strncpy` with the length of the text, which writes no zero. -/
def NameArray.copy (a : NameArray) (d : Bytes) : Except LoadFault NameArray :=
  if d.length ≤ uxTypeNameLength then .ok (a.overwrite d) else .error .nameOverflow

def isSpace (c : UInt8) : Bool := c = 32 || 9 ≤ c && c ≤ 13

def isDigit (c : UInt8) : Bool := 48 ≤ c && c ≤ 57

def digitsValue (ds : Bytes) : ℕ := ds.foldl (fun v c => 10 * v + (c.toNat - 48)) 0

def signedValue (s : Bytes) : ℤ :=
  if s.head? = some 45 then -(digitsValue (s.tail.takeWhile isDigit) : ℤ)
  else if s.head? = some 43 then digitsValue (s.tail.takeWhile isDigit)
  else digitsValue (s.takeWhile isDigit)

/-- `atoi`, which cuts the value to an `int`. -/
def atoi (s : Bytes) : ℤ := (signedValue (s.dropWhile isSpace)).bmod (2 ^ 32)

def readFlag (d : Bytes) : Except LoadFault ℤ :=
  if flagSize < d.length then .error .flagOverflow
  else if d.length = flagSize then .error .flagUnterminated
  else .ok (atoi d)

def TableMemory.setSlot (m : TableMemory) (index : ℕ) (s : TypesSlot) : TableMemory :=
  ⟨m.slots.set index s, by rw [List.length_set, m.length_eq]⟩

def TableMemory.update (m : TableMemory) (index : ℕ) (f : TypesSlot → Except LoadFault TypesSlot) :
    Except LoadFault TableMemory :=
  match m.slots[index]? with
  | none => .error .slotOutside
  | some s =>
      match f s with
      | .error e => .error e
      | .ok s => .ok (m.setSlot index s)

def TypesSlot.copyOtype (d : Bytes) (s : TypesSlot) : Except LoadFault TypesSlot :=
  (s.otypeName.copy d).map fun a => { s with otypeName := a }

def TypesSlot.copyUtype (d : Bytes) (s : TypesSlot) : Except LoadFault TypesSlot :=
  (s.utypeName.copy d).map fun a => { s with utypeName := a }

/-! ### The loader -/

/-- `AddTypeMappingNode`. The end of the third field is always found. -/
def addTypeMappingNode (divides : Bytes) (index : ℕ) (m : TableMemory) :
    Except LoadFault (ℤ × TableMemory) :=
  match strchr colon divides with
  | none => .ok (TransformErr.configFileErr.code, m)
  | some i => do
      let m ← m.update index (TypesSlot.copyOtype (divides.take i))
      let second := divides.drop (i + 1)
      match strchr colon second with
      | none => return (TransformErr.configFileErr.code, m)
      | some j =>
          let m ← m.update index (TypesSlot.copyUtype (second.take j))
          let flag ← readFlag (second.drop (j + 1))
          let m ← m.update index fun s => .ok { s with flag := flag, index := index }
          return (0, m)

structure NodeCall where
  index : ℕ
  divides : Bytes

structure Load where
  calls : List NodeCall
  result : Except LoadFault (ℤ × TableMemory)

/-- The loop of `LoadTypesMappingRelation`. The number of slots is tested behind the call. -/
def loadLoop : List Bytes → ℕ → TableMemory → Load
  | [], _, m => ⟨[], .ok (0, m)⟩
  | divides :: rest, index, m =>
      match addTypeMappingNode divides index m with
      | .error e => ⟨[⟨index, divides⟩], .error e⟩
      | .ok (ret, m) =>
          if ret ≠ 0 then ⟨[⟨index, divides⟩], .ok (ret, m)⟩
          else if uxTypesNumMax < index + 1 then ⟨[⟨index, divides⟩], .ok (0, m)⟩
          else ⟨⟨index, divides⟩ :: (loadLoop rest (index + 1) m).calls,
            (loadLoop rest (index + 1) m).result⟩

inductive Config where
  | null
  | missing
  | file (text : Bytes)

def configLines (text : Bytes) : List Bytes :=
  (LineReader.reads newline (configbufSize - 1) text).map fun line => cstr line 0

def loadTypesMappingRelation (config : Config) (m : TableMemory) : Load :=
  match config with
  | .null => ⟨[], .ok (TransformErr.unknownErr.code, m)⟩
  | .missing => ⟨[], .ok (TransformErr.configFileErr.code, m)⟩
  | .file text => loadLoop (configLines text) 0 m

/-- `ReloadTypesMappingRelation`: the table is cleared before the file is opened. -/
def reloadTypesMappingRelation (config : Config) (_ : TableMemory) : Load :=
  loadTypesMappingRelation config .zeroed

/-! ### The fields of a line -/

/-- A line by the number of its colons. -/
inductive ConfigLine where
  | noColon
  | oneColon (o : Bytes)
  | fields (o u f : Bytes)

def parseLine (line : Bytes) : ConfigLine :=
  match strchr colon line with
  | none => .noColon
  | some i =>
      match strchr colon (line.drop (i + 1)) with
      | none => .oneColon (line.take i)
      | some j => .fields (line.take i) ((line.drop (i + 1)).take j)
          ((line.drop (i + 1)).drop (j + 1))

namespace ConfigLine

def IsComplete : ConfigLine → Prop
  | .fields _ _ _ => True
  | _ => False

instance : DecidablePred IsComplete
  | .fields _ _ _ => .isTrue trivial
  | .noColon | .oneColon _ => .isFalse id

/-- What is copied stays inside the arrays, and `atoi` finds a zero. -/
def Stays : ConfigLine → Prop
  | .noColon => True
  | .oneColon o => o.length ≤ uxTypeNameLength
  | .fields o u f =>
      o.length ≤ uxTypeNameLength ∧ u.length ≤ uxTypeNameLength ∧ f.length < flagSize

def Fits : ConfigLine → Prop
  | .noColon => True
  | .oneColon o => o.length < uxTypeNameLength
  | .fields o u f => o.length < uxTypeNameLength ∧ u.length < uxTypeNameLength ∧ f.length < flagSize

instance : DecidablePred Fits
  | .noColon => .isTrue trivial
  | .oneColon o => inferInstanceAs (Decidable (o.length < uxTypeNameLength))
  | .fields o u f => inferInstanceAs (Decidable (o.length < uxTypeNameLength ∧
      u.length < uxTypeNameLength ∧ f.length < flagSize))

def ret : ConfigLine → ℤ
  | .fields _ _ _ => 0
  | _ => TransformErr.configFileErr.code

theorem Fits.stays {c : ConfigLine} (h : c.Fits) : c.Stays := by
  cases c with
  | noColon => trivial
  | oneColon o => exact le_of_lt h
  | fields o u f => exact ⟨le_of_lt h.1, le_of_lt h.2.1, h.2.2⟩

theorem ret_eq_zero {c : ConfigLine} : c.ret = 0 ↔ c.IsComplete := by
  cases c with
  | noColon => exact iff_of_false TransformErr.configFileErr.code_ne_zero id
  | oneColon o => exact iff_of_false TransformErr.configFileErr.code_ne_zero id
  | fields o u f => exact iff_of_true rfl trivial

end ConfigLine

def TypesSlot.entered (s : TypesSlot) (index : ℕ) : ConfigLine → TypesSlot
  | .noColon => s
  | .oneColon o => { s with otypeName := s.otypeName.overwrite o }
  | .fields o u f => ⟨index, atoi f, s.otypeName.overwrite o, s.utypeName.overwrite u⟩

variable {m m' : TableMemory} {index : ℕ} {s : TypesSlot} {line : Bytes}

theorem update_ok {f : TypesSlot → Except LoadFault TypesSlot} {s' : TypesSlot}
    (hs : m.slots[index]? = some s) (hf : f s = .ok s') :
    m.update index f = .ok (m.setSlot index s') := by
  unfold TableMemory.update
  rw [hs]
  dsimp only
  rw [hf]

theorem copyOtype_ok {d : Bytes} (h : d.length ≤ uxTypeNameLength) :
    s.copyOtype d = .ok { s with otypeName := s.otypeName.overwrite d } := by
  rw [TypesSlot.copyOtype, NameArray.copy, if_pos h]
  rfl

theorem copyUtype_ok {d : Bytes} (h : d.length ≤ uxTypeNameLength) :
    s.copyUtype d = .ok { s with utypeName := s.utypeName.overwrite d } := by
  rw [TypesSlot.copyUtype, NameArray.copy, if_pos h]
  rfl

theorem readFlag_ok {d : Bytes} (h : d.length < flagSize) : readFlag d = .ok (atoi d) := by
  rw [readFlag, if_neg (by omega), if_neg (by omega)]

theorem setSlot_setSlot (m : TableMemory) (index : ℕ) (s s' : TypesSlot) :
    (m.setSlot index s).setSlot index s' = m.setSlot index s' := by
  simp only [TableMemory.setSlot, List.set_set]

theorem getElem?_setSlot (hs : m.slots[index]? = some s) (s' : TypesSlot) :
    (m.setSlot index s').slots[index]? = some s' := by
  have hlt := (List.getElem?_eq_some_iff.mp hs).1
  exact List.getElem?_set_self hlt

/-! ### One call -/

theorem addTypeMappingNode_eq (line : Bytes) (index : ℕ) (m : TableMemory) :
    addTypeMappingNode line index m =
      match parseLine line with
      | .noColon => .ok (TransformErr.configFileErr.code, m)
      | .oneColon o => do
          let m ← m.update index (TypesSlot.copyOtype o)
          return (TransformErr.configFileErr.code, m)
      | .fields o u f => do
          let m ← m.update index (TypesSlot.copyOtype o)
          let m ← m.update index (TypesSlot.copyUtype u)
          let flag ← readFlag f
          let m ← m.update index fun s => .ok { s with flag := flag, index := index }
          return (0, m) := by
  unfold addTypeMappingNode parseLine
  cases strchr colon line with
  | none => rfl
  | some i =>
      dsimp only
      cases strchr colon (line.drop (i + 1)) with
      | none => rfl
      | some j => rfl

theorem setSlot_self (hs : m.slots[index]? = some s) : m.setSlot index s = m := by
  have hset : m.slots.set index s = m.slots := by
    obtain ⟨hlt, rfl⟩ := List.getElem?_eq_some_iff.mp hs
    exact List.set_getElem_self hlt
  simp only [TableMemory.setSlot, hset]

/-- A line whose copies stay inside the arrays is entered into its slot. -/
theorem addTypeMappingNode_ok (hs : m.slots[index]? = some s) (h : (parseLine line).Stays) :
    addTypeMappingNode line index m =
      .ok ((parseLine line).ret, m.setSlot index (s.entered index (parseLine line))) := by
  rw [addTypeMappingNode_eq]
  cases hline : parseLine line with
  | noColon =>
      rw [TypesSlot.entered, setSlot_self hs]
      rfl
  | oneColon o =>
      rw [hline] at h
      dsimp only
      rw [update_ok hs (copyOtype_ok h)]
      rfl
  | fields o u f =>
      rw [hline] at h
      obtain ⟨ho, hu, hf⟩ := h
      simp only [update_ok hs (copyOtype_ok ho), readFlag_ok hf, bind, Except.bind,
        update_ok (getElem?_setSlot hs _) (copyUtype_ok hu), setSlot_setSlot]
      rw [update_ok (getElem?_setSlot hs _) (f := fun s => .ok _) rfl, setSlot_setSlot]
      rfl

theorem update_inv {f : TypesSlot → Except LoadFault TypesSlot} (h : m.update index f = .ok m') :
    index < uxTypesNumMax ∧ ∃ s s', f s = .ok s' := by
  unfold TableMemory.update at h
  cases hs : m.slots[index]? with
  | none =>
      rw [hs] at h
      cases h
  | some s =>
      rw [hs] at h
      dsimp only at h
      refine ⟨m.length_eq ▸ (List.getElem?_eq_some_iff.mp hs).1, s, ?_⟩
      cases hf : f s with
      | error e =>
          rw [hf] at h
          cases h
      | ok s' => exact ⟨s', rfl⟩

theorem length_le_of_copy {a : NameArray} {d : Bytes} {g : NameArray → TypesSlot} {s' : TypesSlot}
    (h : (a.copy d).map g = .ok s') : d.length ≤ uxTypeNameLength := by
  unfold NameArray.copy at h
  split_ifs at h with hd
  · exact hd
  · cases h

theorem length_lt_of_readFlag {d : Bytes} {v : ℤ} (h : readFlag d = .ok v) :
    d.length < flagSize := by
  unfold readFlag at h
  split_ifs at h
  omega

/-- A call that returns has made no copy outside the arrays, and none outside the table. -/
theorem addTypeMappingNode_inv {r : ℤ × TableMemory} (h : addTypeMappingNode line index m = .ok r) :
    (parseLine line).Stays ∧ (index < uxTypesNumMax ∨ parseLine line = .noColon ∧
      r = (TransformErr.configFileErr.code, m)) := by
  rw [addTypeMappingNode_eq] at h
  cases hline : parseLine line with
  | noColon =>
      rw [hline] at h
      exact ⟨trivial, .inr ⟨rfl, (Except.ok.inj h).symm⟩⟩
  | oneColon o =>
      rw [hline] at h
      obtain ⟨m₁, h₁, -⟩ := bind_eq_ok h
      obtain ⟨hlt, s, s', ho⟩ := update_inv h₁
      exact ⟨length_le_of_copy ho, .inl hlt⟩
  | fields o u f =>
      rw [hline] at h
      obtain ⟨m₁, h₁, h⟩ := bind_eq_ok h
      obtain ⟨m₂, h₂, h⟩ := bind_eq_ok h
      obtain ⟨v, hv, -⟩ := bind_eq_ok h
      obtain ⟨hlt, s, s', ho⟩ := update_inv h₁
      obtain ⟨-, s₁, s₁', hu⟩ := update_inv h₂
      exact ⟨⟨length_le_of_copy ho, length_le_of_copy hu, length_lt_of_readFlag hv⟩, .inl hlt⟩

/-! ### The loop -/

def TableMemory.enter (m : TableMemory) (index : ℕ) (line : Bytes) : TableMemory :=
  m.setSlot index ((m.slots[index]?.getD .zeroed).entered index (parseLine line))

def TableMemory.enterAll (m : TableMemory) : ℕ → List Bytes → TableMemory
  | _, [] => m
  | index, line :: lines => (m.enter index line).enterAll (index + 1) lines

theorem addTypeMappingNode_enter (hi : index < uxTypesNumMax) (h : (parseLine line).Stays) :
    addTypeMappingNode line index m = .ok ((parseLine line).ret, m.enter index line) := by
  have hlt : index < m.slots.length := m.length_eq ▸ hi
  rw [addTypeMappingNode_ok (List.getElem?_eq_getElem hlt) h, TableMemory.enter,
    List.getElem?_eq_getElem hlt, Option.getD_some]

/-- A complete line is followed by the next one. -/
theorem loadLoop_complete {lines : List Bytes} (hi : index < uxTypesNumMax)
    (hs : (parseLine line).Stays) (hc : (parseLine line).IsComplete) :
    loadLoop (line :: lines) index m =
      ⟨⟨index, line⟩ :: (loadLoop lines (index + 1) (m.enter index line)).calls,
        (loadLoop lines (index + 1) (m.enter index line)).result⟩ := by
  have hret := ConfigLine.ret_eq_zero.mpr hc
  rw [loadLoop, addTypeMappingNode_enter hi hs]
  dsimp only
  rw [if_neg (not_not.mpr hret), if_neg (by omega)]

/-- Another line ends the loop. -/
theorem loadLoop_incomplete {lines : List Bytes} (hi : index < uxTypesNumMax)
    (hs : (parseLine line).Stays) (hc : ¬ (parseLine line).IsComplete) :
    loadLoop (line :: lines) index m =
      ⟨[⟨index, line⟩], .ok ((parseLine line).ret, m.enter index line)⟩ := by
  have hret : (parseLine line).ret ≠ 0 := fun h => hc (ConfigLine.ret_eq_zero.mp h)
  rw [loadLoop, addTypeMappingNode_enter hi hs]
  dsimp only
  rw [if_pos hret]

/-- Whatever comes of it, the first line is handed over. -/
theorem head_mem_calls (line : Bytes) (lines : List Bytes) (index : ℕ) (m : TableMemory) :
    ⟨index, line⟩ ∈ (loadLoop (line :: lines) index m).calls := by
  rw [loadLoop]
  cases addTypeMappingNode line index m with
  | error e => exact List.mem_singleton_self _
  | ok r =>
      dsimp only
      split_ifs
      · exact List.mem_singleton_self _
      · exact List.mem_singleton_self _
      · exact List.mem_cons_self

/-- The lines up to the first one that is not complete. -/
def reached : List Bytes → List Bytes
  | [] => []
  | line :: lines => if (parseLine line).IsComplete then line :: reached lines else [line]

/-- Another line is the last that is handed over, whether its copy stays inside or not. -/
theorem calls_incomplete {lines : List Bytes} (hc : ¬ (parseLine line).IsComplete) :
    (loadLoop (line :: lines) index m).calls = [⟨index, line⟩] := by
  have hret : (parseLine line).ret ≠ 0 := fun h => hc (ConfigLine.ret_eq_zero.mp h)
  rw [loadLoop]
  cases hr : addTypeMappingNode line index m with
  | error e => rfl
  | ok r =>
      have hr' : r.1 ≠ 0 := by
        rcases addTypeMappingNode_inv hr with ⟨hs, hi | ⟨-, rfl⟩⟩
        · rw [addTypeMappingNode_enter hi hs] at hr
          obtain rfl := Except.ok.inj hr
          exact hret
        · exact TransformErr.configFileErr.code_ne_zero
      dsimp only
      rw [if_pos hr']

/-- Every call has a slot in the table and fields that fit. -/
def Load.InBounds (l : Load) : Prop :=
  ∀ c ∈ l.calls, c.index < uxTypesNumMax ∧ (parseLine c.divides).Fits

/-- Every call has a slot in the table and fields that fit, or rejects its line. -/
def Load.InBoundsOrRejected (l : Load) : Prop :=
  ∀ c ∈ l.calls, c.index < uxTypesNumMax ∧
    ((parseLine c.divides).Fits ∨ (parseLine c.divides).ret ≠ 0)

/-- The calls with slots in the table and a property of the lines that keeps the copies of complete
ones inside the arrays. -/
theorem loadLoop_calls {F : ConfigLine → Prop} (hF : ∀ c, F c → c.IsComplete → c.Stays)
    (lines : List Bytes) (hi : index ≤ uxTypesNumMax) (m : TableMemory) :
    (∀ c ∈ (loadLoop lines index m).calls, c.index < uxTypesNumMax ∧ F (parseLine c.divides)) ↔
      index + (reached lines).length ≤ uxTypesNumMax ∧
        ∀ line ∈ reached lines, F (parseLine line) := by
  induction lines generalizing index m with
  | nil => exact iff_of_true (fun c hc => absurd hc List.not_mem_nil) ⟨hi, nofun⟩
  | cons line lines ih =>
      by_cases hfirst : index < uxTypesNumMax ∧ F (parseLine line)
      swap
      · refine iff_of_false (fun h => hfirst (h _ (head_mem_calls line lines index m))) ?_
        rintro ⟨hlen, hfits⟩
        have hmem : line ∈ reached (line :: lines) := by
          rw [reached]
          split_ifs
          · exact List.mem_cons_self
          · exact List.mem_singleton_self line
        have hpos := List.length_pos_of_mem hmem
        exact hfirst ⟨by omega, hfits line hmem⟩
      obtain ⟨hlt, hfits⟩ := hfirst
      by_cases hc : (parseLine line).IsComplete
      · have hsum : index + ((reached lines).length + 1) = index + 1 + (reached lines).length := by
          omega
        rw [loadLoop_complete hlt (hF _ hfits hc) hc, reached, if_pos hc, List.forall_mem_cons,
          List.forall_mem_cons, List.length_cons, and_iff_right ⟨hlt, hfits⟩, and_iff_right hfits,
          hsum]
        exact ih hlt (m.enter index line)
      · rw [calls_incomplete hc, reached, if_neg hc]
        exact iff_of_true (List.forall_mem_singleton.mpr ⟨hlt, hfits⟩)
          ⟨hlt, List.forall_mem_singleton.mpr hfits⟩

/-- `LoadTypesMappingRelation` stays in bounds on a file exactly if the lines up to the first one
with less than two colons are at most 256 and their fields fit; if a line that is rejected may have
a name of any length, only the fields of the lines before it have to fit. -/
theorem load_inBounds_iff (text : Bytes) (m : TableMemory) :
    ((loadTypesMappingRelation (.file text) m).InBounds ↔
      (reached (configLines text)).length ≤ uxTypesNumMax ∧
        ∀ line ∈ reached (configLines text), (parseLine line).Fits) ∧
    ((loadTypesMappingRelation (.file text) m).InBoundsOrRejected ↔
      (reached (configLines text)).length ≤ uxTypesNumMax ∧
        ∀ line ∈ reached (configLines text), (parseLine line).IsComplete →
          (parseLine line).Fits) := by
  constructor
  · have h := loadLoop_calls (fun _ hc _ => ConfigLine.Fits.stays hc) (configLines text)
      (Nat.zero_le _) m
    rwa [Nat.zero_add] at h
  · have hF (c : ConfigLine) (h : c.Fits ∨ c.ret ≠ 0) (hc : c.IsComplete) : c.Stays :=
      (h.resolve_right fun hr => hr (ConfigLine.ret_eq_zero.mpr hc)).stays
    have h := loadLoop_calls hF (configLines text) (Nat.zero_le _) m
    rw [Nat.zero_add] at h
    refine h.trans (and_congr_right fun _ => forall₂_congr fun line _ => ?_)
    rw [Ne, ConfigLine.ret_eq_zero, or_comm, ← imp_iff_not_or]

theorem parseLine_fields {o u f : Bytes} (ho : colon ∉ o) (hu : colon ∉ u) :
    parseLine (o ++ colon :: (u ++ colon :: f)) = .fields o u f := by
  have hdrop : ∀ a b : Bytes, (a ++ colon :: b).drop (a.length + 1) = b := fun a b => by
    rw [← List.drop_drop, List.drop_left]
    rfl
  unfold parseLine
  rw [strchr_append ho]
  dsimp only
  rw [hdrop, strchr_append hu]
  dsimp only
  rw [List.take_left, List.take_left, hdrop]

/-- The text `a:b:1`. -/
def shortLine : Bytes := [97] ++ colon :: ([98] ++ colon :: [49])

theorem parse_shortLine :
    parseLine (shortLine ++ [newline]) = .fields [97] [98] [49, newline] := rfl

theorem configLines_shortLine (n : ℕ) :
    configLines (List.replicate n (shortLine ++ [newline])).flatten =
      List.replicate n (shortLine ++ [newline]) := by
  induction n with
  | zero => rfl
  | succ n ih =>
      have hline : newline ∉ shortLine := by decide
      have hcat : (List.replicate (n + 1) (shortLine ++ [newline])).flatten =
          shortLine ++ newline :: (List.replicate n (shortLine ++ [newline])).flatten := by
        simp [List.replicate_succ]
      rw [hcat, configLines, LineReader.reads_append_line hline (by decide), List.map_cons,
        ← configLines, ih]
      rfl

theorem call_of_shortLine (n index : ℕ) (m : TableMemory) (h : index + n ≤ uxTypesNumMax) :
    ⟨index + n, shortLine ++ [newline]⟩ ∈
      (loadLoop (List.replicate (n + 1) (shortLine ++ [newline])) index m).calls := by
  induction n generalizing index m with
  | zero => exact head_mem_calls _ [] index m
  | succ n ih =>
      have hfits : (parseLine (shortLine ++ [newline])).Fits := by
        rw [parse_shortLine]
        decide
      rw [List.replicate_succ, loadLoop_complete (by omega) hfits.stays trivial]
      have htail := ih (index + 1) (m.enter index (shortLine ++ [newline])) (by omega)
      rw [Nat.add_assoc, Nat.add_comm 1 n] at htail
      exact List.mem_cons_of_mem _ htail

/-- The text `aa..a:b:1` with a name of 128 characters. -/
def longName : Bytes := List.replicate 128 97 ++ colon :: ([98] ++ colon :: [49])

/-- The 257th line `a:b:1` is handed over with the index 256, and a name of 128 characters leaves
no room for a zero. -/
theorem load_outOfBounds :
    (∃ c ∈ (loadTypesMappingRelation
        (.file (List.replicate 257 (shortLine ++ [newline])).flatten) .zeroed).calls,
      c.index = uxTypesNumMax) ∧
    ∃ c ∈ (loadTypesMappingRelation (.file longName) .zeroed).calls,
      ¬ (parseLine c.divides).Fits := by
  constructor
  · refine ⟨⟨256, shortLine ++ [newline]⟩, ?_, rfl⟩
    rw [loadTypesMappingRelation, configLines_shortLine]
    exact call_of_shortLine 256 0 .zeroed le_rfl
  · have hlines : configLines longName = [longName] := by decide +kernel
    refine ⟨⟨0, longName⟩, ?_, by decide +kernel⟩
    rw [loadTypesMappingRelation, hlines]
    exact head_mem_calls longName [] 0 .zeroed

end Hatch.Types
