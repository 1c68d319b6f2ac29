import Hatch.ByteLayout
import Hatch.CString

/-!
# The type rewriter

`TypesTransform/main.cpp` copies a create-table statement to a buffer of twice its size and
replaces the types of the columns on the way. The output buffer is its bytes, zeroed at first,
and every write is checked against its end; other strings are bytes without the terminating
zero. The type texts that were replaced are kept as a history.
-/

namespace Hatch.Types

open ByteLayout (Bytes cstr patch)
open CString

inductive Fault where
  | nullPointer
  | intOverflow
  | tmpbufOverflow
  | tmpbufUnterminated
  | uxSqlOverflow
  deriving DecidableEq, Repr

inductive TransformErr where
  | unknownErr
  | configFileErr
  | unidentifiedErr
  | syntaxErr
  | otherErr
  deriving DecidableEq, Repr

def TransformErr.code : TransformErr → ℤ
  | .unknownErr => 0x10
  | .configFileErr => 0x11
  | .unidentifiedErr => 0x12
  | .syntaxErr => 0x13
  | .otherErr => 0x14

theorem TransformErr.code_ne_zero (e : TransformErr) : e.code ≠ 0 := by
  cases e <;> decide

/-- `UX_TYPE_NAME_LENGTH`, which is the size of `tmpbuf` too. -/
def uxTypeNameLength : ℕ := 128

def uxTypesNumMax : ℕ := 256

def intMax : ℤ := 2147483647

def tab : UInt8 := 9

def newline : UInt8 := 10

def carriageReturn : UInt8 := 13

def blank : UInt8 := 32

def lparen : UInt8 := 40

def rparen : UInt8 := 41

def comma : UInt8 := 44

/-- A text in an array of `UX_TYPE_NAME_LENGTH` characters. -/
structure TypeName where
  bytes : Bytes
  zero_notMem : 0 ∉ bytes
  length_lt : bytes.length < uxTypeNameLength

structure TypesMap where
  index : ℤ
  flag : ℤ
  otypeName : TypeName
  utypeName : TypeName

structure Table where
  entries : List TypesMap
  length_eq : entries.length = uxTypesNumMax

/-- `GetMappingUXTypeName`; an entry that is not in use has an empty name. -/
def getMappingUXTypeName (t : Table) (oTypeName : Bytes) : Except TransformErr (Bytes × ℤ) :=
  match t.entries.find? fun e => e.otypeName.bytes = oTypeName with
  | none => .error .unidentifiedErr
  | some e => .ok (e.utypeName.bytes, e.flag)

/-! ### Writing to the output buffer -/

def store (mem : Bytes) (off : ℕ) (d : Bytes) : Except Fault Bytes :=
  if off + d.length ≤ mem.length then .ok (patch mem off d) else .error .uxSqlOverflow

def strncpy (mem : Bytes) (off : ℕ) (src : Bytes) (n : ℕ) : Except Fault Bytes :=
  store mem off (src.take n ++ List.replicate (n - src.length) 0)

def strcpy (mem : Bytes) (off : ℕ) (src : Bytes) : Except Fault Bytes := store mem off (src ++ [0])

/-- `strcat` writes where it finds a zero. -/
def strcat (mem : Bytes) (off : ℕ) (src : Bytes) : Except Fault Bytes :=
  match strchr 0 (mem.drop off) with
  | none => .error .uxSqlOverflow
  | some i => strcpy mem (off + i) src

/-! ### Columns -/

structure State where
  uxSql : Bytes
  uxSchOffset : ℕ
  tmpbuf : Bytes
  blanks : ℕ
  seen : Bytes
  replaced : List Bytes

/-- A function returns with an error, or behaves in an undefined way. -/
inductive Stop where
  | ret (e : TransformErr) (s : State)
  | fault (f : Fault)

def typeStart (column : Bytes) : Option ℕ := (strchr blank column).map (· + 1)

def typeEnd (rest : Bytes) : ℕ :=
  match strchr lparen rest with
  | some i => i
  | none =>
      match strchr comma rest with
      | some i => i
      | none => rest.length

def replaceType (mem : Bytes) (uxSch : ℕ) (column : Bytes) (pos : ℕ) (uxType rest : Bytes) :
    Except Fault (Bytes × ℕ) := do
  let mem ← strncpy mem uxSch column pos
  let mem ← strcat mem (uxSch + pos) uxType
  let mem ← strcpy mem (uxSch + (pos + uxType.length)) rest
  return (mem, pos + uxType.length + rest.length)

/-- `TransformColumn` on `tmpbuf`, writing at `uxSch + uxSchOffset`. Nothing is written if the
type is not found. -/
def transformColumn (t : Table) (uxSch : ℕ) (s : State) : Except Stop State :=
  if uxTypeNameLength ≤ s.tmpbuf.length then .error (.fault .tmpbufUnterminated)
  else
    match typeStart s.tmpbuf with
    | none => .error (.ret .syntaxErr s)
    | some pos =>
        let rest := s.tmpbuf.drop pos
        let oType := rest.take (typeEnd rest)
        match getMappingUXTypeName t oType with
        | .error e => .error (.ret e s)
        | .ok (uxType, _) =>
            match replaceType s.uxSql (uxSch + s.uxSchOffset) s.tmpbuf pos uxType
                (rest.drop (typeEnd rest)) with
            | .error f => .error (.fault f)
            | .ok (mem, n) => .ok { s with
                uxSql := mem
                uxSchOffset := s.uxSchOffset + n
                replaced := s.replaced ++ [oType] }

def toBlank (c : UInt8) : UInt8 :=
  if c = tab ∨ c = newline ∨ c = carriageReturn then blank else c

/-- A comma: the column is written, with the comma, and `tmpbuf` is cleared. The count of
blanks goes on. -/
def commaStep (t : Table) (uxSch : ℕ) (s : State) : Except Stop State :=
  match transformColumn t uxSch s with
  | .error e => .error e
  | .ok s =>
      match store s.uxSql (uxSch + s.uxSchOffset) [comma] with
      | .error f => .error (.fault f)
      | .ok mem => .ok { s with
          uxSql := mem
          uxSchOffset := s.uxSchOffset + 1
          tmpbuf := []
          seen := s.seen ++ [comma] }

/-- Another character goes to `tmpbuf`, unless it is a blank at the front or behind a blank. -/
def charStep (s : State) (c : UInt8) : Except Stop State :=
  let c := toBlank c
  let blanks := if c = blank then s.blanks + 1 else 0
  let s := { s with blanks := blanks, seen := s.seen ++ [c] }
  if 1 < blanks then .ok s
  else if s.tmpbuf = [] ∧ 0 < blanks then .ok s
  else if s.tmpbuf.length < uxTypeNameLength then .ok { s with tmpbuf := s.tmpbuf ++ [c] }
  else .error (.fault .tmpbufOverflow)

def typesStep (t : Table) (uxSch : ℕ) (s : State) (c : UInt8) : Except Stop State :=
  if c = comma then commaStep t uxSch s else charStep s c

/-- The last column, unless nothing is left. -/
def lastColumn (t : Table) (uxSch : ℕ) (s : State) : Except Stop State :=
  if s.tmpbuf = [] then .ok s else transformColumn t uxSch s

/-- `TransformTypes`, which changes the blanks of `orclSch` in place. -/
def transformTypes (t : Table) (orclSch : Bytes) (mem : Bytes) (uxSch : ℕ) : Except Stop State := do
  let s ← orclSch.foldlM (typesStep t uxSch) ⟨mem, 0, [], 0, [], []⟩
  lastColumn t uxSch s

/-- What `TransformSql` returns and leaves in `*uxSql` and `*uxSqlSize`, if it sets them. -/
structure Result where
  ret : ℤ
  uxSql : Option Bytes
  uxSqlSize : Option ℤ
  replaced : List Bytes

/-- The rest of `TransformSql` behind `TransformTypes`: the text from the last `)` on is
written behind what is there. -/
def finish (sql : Bytes) (fixed searchEnd : ℕ) (ret : ℤ) (uxSqlSize : ℕ) (s : State) :
    Except Fault Result := do
  let search := sql.take fixed ++ s.seen ++ sql.drop (fixed + s.seen.length)
  let mem ← strcpy s.uxSql uxSqlSize (search.drop searchEnd)
  return ⟨ret, some mem, some uxSqlSize, s.replaced⟩

/-- The size grows only if `TransformTypes` succeeds. -/
def afterTypes (sql : Bytes) (fixed searchEnd : ℕ) : Except Stop State → Except Fault Result
  | .error (.fault f) => .error f
  | .error (.ret e s) => finish sql fixed searchEnd e.code fixed s
  | .ok s => finish sql fixed searchEnd 0 (fixed + s.uxSchOffset) s

/-- `TransformSql` on a copy of the statement with its brackets found. -/
def transformCopy (t : Table) (sql : Bytes) (mem : Bytes) (fixed searchEnd : ℕ) :
    Except Fault Result := do
  let search := sql.set searchEnd 0
  let mem ← strncpy mem 0 (cstr search 0) fixed
  afterTypes sql fixed searchEnd (transformTypes t (cstr search fixed) mem fixed)

/-- What `TransformSql` and `TransformSchSql` have in common: the statement is checked, the
memory is taken and the brackets are searched. `palloc` and `strdup` say whether there is memory. -/
def withBrackets (rewrite : Bytes → Bytes → ℕ → ℕ → Except Fault Result) (orclSql : Option Bytes)
    (orclSqlSize : ℤ) (palloc strdup : Bool) : Except Fault Result :=
  match orclSql with
  | none => .ok ⟨-1, none, none, []⟩
  | some sql =>
      if orclSqlSize < 4 then .ok ⟨-1, none, none, []⟩
      else if intMax < orclSqlSize * 2 then .error .intOverflow
      else if !palloc then .ok ⟨-11, none, none, []⟩
      else
        let mem := List.replicate (orclSqlSize * 2).toNat 0
        if !strdup then .ok ⟨-11, some mem, some (orclSqlSize * 2), []⟩
        else
          match strchr lparen sql, strrchr rparen sql with
          | some i, some searchEnd => rewrite sql mem (i + 1) searchEnd
          | _, _ => .error .nullPointer

def transformSql (t : Table) : Option Bytes → ℤ → Bool → Bool → Except Fault Result :=
  withBrackets (transformCopy t)

/-- The size is that of the buffer, and it grows by the length of the column list. -/
def afterSchTypes (size : ℤ) : Except Stop State → Except Fault Result
  | .error (.fault f) => .error f
  | .error (.ret e s) => .ok ⟨e.code, some s.uxSql, some size, s.replaced⟩
  | .ok s =>
      if intMax < size + s.uxSchOffset then .error .intOverflow
      else .ok ⟨0, some s.uxSql, some (size + s.uxSchOffset), s.replaced⟩

/-- `TransformSchSql` on a copy of the statement with its brackets found: the column list is
written to the front of the buffer, and nothing else is. -/
def transformSchCopy (t : Table) (sql : Bytes) (mem : Bytes) (fixed searchEnd : ℕ) :
    Except Fault Result :=
  afterSchTypes mem.length (transformTypes t (cstr (sql.set searchEnd 0) fixed) mem 0)

def transformSchSql (t : Table) : Option Bytes → ℤ → Bool → Bool → Except Fault Result :=
  withBrackets (transformSchCopy t)

end Hatch.Types
