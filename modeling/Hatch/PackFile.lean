import Hatch.BitString
import Hatch.Java

/-!
# The header of a pack file

`packFileHeader`, the two methods of `packFile` that write and read it, and what they use
of `FileHandle`. A reference that may be null is an `Option`, a stream is the bytes written
to it or still to be read from it, and the log is only set or not.
-/

namespace Hatch.Pack

open Java BitString

/-- `packFileHeader` with the values of a new header. -/
structure PackFileHeader where
  packHeaderSize : BitVec 32 := 0
  packVer : BitVec 32 := 0x1001
  packFlag : BitVec 32 := 0
  packNum : BitVec 32 := 0
  packctime : BitVec 32 := 0
  packutime : BitVec 32 := 0
  packFileSize : BitVec 32 := 0
  packreserver1 : BitVec 32 := 0
  packreserver2 : BitVec 32 := 0

namespace PackFileHeader

def setPackHeaderSize (h : PackFileHeader) (v : BitVec 32) : PackFileHeader :=
  { h with packHeaderSize := v }

def setPackVer (h : PackFileHeader) (v : BitVec 32) : PackFileHeader := { h with packVer := v }

def setPackFlag (h : PackFileHeader) (v : BitVec 32) : PackFileHeader := { h with packFlag := v }

def setPackNum (h : PackFileHeader) (v : BitVec 32) : PackFileHeader := { h with packNum := v }

/-- The creation time is set once. -/
def setPackctime (h : PackFileHeader) (v : BitVec 32) : PackFileHeader :=
  if 0 = h.packctime then { h with packctime := v } else h

def setPackutime (h : PackFileHeader) (v : BitVec 32) : PackFileHeader := { h with packutime := v }

def setPackFileSize (h : PackFileHeader) (v : BitVec 32) : PackFileHeader :=
  { h with packFileSize := v }

def setPackreserver1 (h : PackFileHeader) (v : BitVec 32) : PackFileHeader :=
  { h with packreserver1 := v }

end PackFileHeader

/-- What `equals` can be given. -/
inductive Obj where
  | null
  | header (h : PackFileHeader)
  | other

/-- `packFileHeader.equals`. Comparing references first makes no difference to the result,
since a header agrees with itself in every field. -/
def PackFileHeader.equals (h : PackFileHeader) : Obj → Bool
  | .null => false
  | .other => false
  | .header other =>
      if h.packFileSize ≠ other.packFileSize then false
      else if h.packFlag ≠ other.packFlag then false
      else if h.packHeaderSize ≠ other.packHeaderSize then false
      else if h.packNum ≠ other.packNum then false
      else if h.packVer ≠ other.packVer then false
      else if h.packctime ≠ other.packctime then false
      else if h.packreserver1 ≠ other.packreserver1 then false
      else if h.packreserver2 ≠ other.packreserver2 then false
      else if h.packutime ≠ other.packutime then false
      else true

theorem PackFileHeader.equals_header (h other : PackFileHeader) :
    h.equals (.header other) = true ↔ h = other := by
  cases h
  cases other
  simp only [equals, PackFileHeader.mk.injEq]
  grind

structure FileHandle where
  dataOut : Option (List Byte)
  dataIn : Option (List Byte)

namespace FileHandle

def writeFile (f : FileHandle) (context : List Byte) (off len : ℕ) : Except Throwable FileHandle :=
  match f.dataOut with
  | none => .error .nullPointer
  | some out =>
      if off + len ≤ context.length then
        .ok { f with dataOut := some (out ++ (context.drop off).take len) }
      else .error .indexOutOfBounds

/-- `ReadFile` returns -1 at the end of the file. What is read overwrites the front of the
part of `context` it is given. -/
def readFile (f : FileHandle) (context : List Byte) (off rlen : ℕ) :
    Except Throwable (Int × List Byte × FileHandle) :=
  match f.dataIn with
  | none => .error .nullPointer
  | some input =>
      if off + rlen ≤ context.length then
        let got := input.take rlen
        .ok (if input = [] ∧ 0 < rlen then -1 else got.length,
          context.take off ++ got ++ context.drop (off + got.length),
          { f with dataIn := some (input.drop rlen) })
      else .error .indexOutOfBounds

end FileHandle

def bytesToInt (b : List Byte) : BitVec 32 :=
  unsigned (b.getD 3 0) ||| unsigned (b.getD 2 0) <<< 8 ||| unsigned (b.getD 1 0) <<< 16 |||
    unsigned (b.getD 0 0) <<< 24

def intToBytes (a : BitVec 32) : List Byte :=
  [(a.sshiftRight 24 &&& 0xFF).setWidth 8, (a.sshiftRight 16 &&& 0xFF).setWidth 8,
    (a.sshiftRight 8 &&& 0xFF).setWidth 8, (a &&& 0xFF).setWidth 8]

structure PackFile where
  pfh : Option PackFileHeader
  pFile : Option FileHandle
  inFile : Option FileHandle
  aplog : Bool

def PackFileHeader.fields (h : PackFileHeader) : List (BitVec 32) :=
  [h.packHeaderSize, h.packVer, h.packFlag, h.packNum, h.packctime, h.packutime,
    h.packFileSize, h.packreserver1, h.packreserver2]

def writePackHeader (p : PackFile) : Except Throwable (Int × PackFile) :=
  match p.pfh, p.pFile with
  | none, _ => if p.aplog then .ok (-1, p) else .error .nullPointer
  | some _, none => .error .nullPointer
  | some h, some f => do
      let f ← h.fields.foldlM (fun f a => f.writeFile (intToBytes a) 0 4) f
      return (0, { p with pFile := some f })

/-- The loop of `ReadPackHeader`; `bt` is one array for all reads. -/
def readInts : ℕ → FileHandle → List Byte → Except Throwable (List (BitVec 32) × FileHandle)
  | 0, f, _ => .ok ([], f)
  | n + 1, f, bt => do
      let (_, bt, f) ← f.readFile bt 0 4
      let (v, f) ← readInts n f bt
      return (bytesToInt bt :: v, f)

/-- The setters as `ReadPackHeader` calls them on a new header: the ninth value goes to
`packreserver1` as well. -/
def headerOfInts (v : List (BitVec 32)) : PackFileHeader :=
  let pfh : PackFileHeader := {}
  let pfh := pfh.setPackHeaderSize (v.getD 0 0)
  let pfh := pfh.setPackVer (v.getD 1 0)
  let pfh := pfh.setPackFlag (v.getD 2 0)
  let pfh := pfh.setPackNum (v.getD 3 0)
  let pfh := pfh.setPackctime (v.getD 4 0)
  let pfh := pfh.setPackutime (v.getD 5 0)
  let pfh := pfh.setPackFileSize (v.getD 6 0)
  let pfh := pfh.setPackreserver1 (v.getD 7 0)
  pfh.setPackreserver1 (v.getD 8 0)

def readPackHeader (p : PackFile) : Except Throwable (List (BitVec 32) × PackFile) :=
  match p.inFile with
  | none => .error .nullPointer
  | some f => do
      let (v, f) ← readInts 9 f (List.replicate 4 0)
      return (v, { p with pfh := some (headerOfInts v), inFile := some f })

theorem bytesToInt_intToBytes (a : BitVec 32) : bytesToInt (intToBytes a) = a := by
  have h0 : (a &&& 0xFF).setWidth 8 = a.extractLsb' 0 8 := shift_and_byte a 0
  have hb : intToBytes a = [a.extractLsb' 24 8, a.extractLsb' 16 8, a.extractLsb' 8 8,
      a.extractLsb' 0 8] := by
    rw [intToBytes, sshift_and_byte a (by decide), sshift_and_byte a (by decide),
      sshift_and_byte a (by decide), h0]
  rw [hb]
  simp only [bytesToInt, List.getD_cons_zero, List.getD_cons_succ, unsigned_eq]
  rw [← append_bytes, extract_bytes]

theorem writeFile_int (f : FileHandle) {out : List Byte} (ho : f.dataOut = some out)
    (a : BitVec 32) : f.writeFile (intToBytes a) 0 4 =
      .ok { f with dataOut := some (out ++ intToBytes a) } := by
  rw [FileHandle.writeFile, ho]
  rfl

theorem write_ints (as : List (BitVec 32)) (f : FileHandle) {out : List Byte}
    (ho : f.dataOut = some out) :
    as.foldlM (fun f a => f.writeFile (intToBytes a) 0 4) f =
      .ok { f with dataOut := some (out ++ as.flatMap intToBytes) } := by
  induction as generalizing f out with
  | nil => rw [List.flatMap_nil, List.append_nil, ← ho]; rfl
  | cons a as ih =>
      rw [List.foldlM_cons, writeFile_int f ho, List.flatMap_cons, ← List.append_assoc]
      exact ih _ rfl

theorem readFile_int (f : FileHandle) (a : BitVec 32) {rest bt : List Byte}
    (hi : f.dataIn = some (intToBytes a ++ rest)) (hb : bt.length = 4) :
    f.readFile bt 0 4 = .ok (4, intToBytes a, { f with dataIn := some rest }) := by
  have hlen : (intToBytes a).length = 4 := rfl
  have hdrop : bt.drop (0 + 4) = [] := List.drop_of_length_le (by omega)
  rw [FileHandle.readFile, hi]
  simp only [hb, hlen, List.take_left' hlen, List.drop_left' hlen, hdrop]
  rfl

/-- One array serves all reads, since each of them overwrites it as a whole. -/
theorem read_ints (as : List (BitVec 32)) (f : FileHandle) {rest b : List Byte}
    (hi : f.dataIn = some (as.flatMap intToBytes ++ rest)) (hb : b.length = 4) :
    readInts as.length f b = .ok (as, { f with dataIn := some rest }) := by
  induction as generalizing f b with
  | nil => rw [List.flatMap_nil, List.nil_append] at hi; rw [← hi]; rfl
  | cons a as ih =>
      rw [List.flatMap_cons, List.append_assoc] at hi
      have hrest := ih { f with dataIn := some (as.flatMap intToBytes ++ rest) } rfl
        (b := intToBytes a) rfl
      rw [List.length_cons, readInts, readFile_int f a hi hb]
      simp only [bind, Except.bind, hrest, bytesToInt_intToBytes]
      rfl

theorem writePackHeader_eq (h : PackFileHeader) (p : PackFile) (f : FileHandle) {out : List Byte}
    (hp : p.pfh = some h) (hf : p.pFile = some f) (ho : f.dataOut = some out) :
    writePackHeader p = .ok (0, { p with
      pFile := some { f with dataOut := some (out ++ h.fields.flatMap intToBytes) } }) := by
  rw [writePackHeader, hp, hf]
  simp only [write_ints h.fields f ho]
  rfl

theorem readPackHeader_eq (v : List (BitVec 32)) (hv : v.length = 9) (p : PackFile) (f : FileHandle)
    {rest : List Byte} (hf : p.inFile = some f)
    (hi : f.dataIn = some (v.flatMap intToBytes ++ rest)) :
    readPackHeader p = .ok (v, { p with
      pfh := some (headerOfInts v), inFile := some { f with dataIn := some rest } }) := by
  have hr := read_ints v f hi (b := List.replicate 4 0) rfl
  rw [hv] at hr
  rw [readPackHeader, hf]
  simp only [hr]
  rfl

/-- What is read back agrees with the header up to the two reserved fields. -/
theorem headerOfInts_fields (h : PackFileHeader) : headerOfInts h.fields =
    { h with packreserver1 := h.packreserver2, packreserver2 := 0 } := by
  simp only [headerOfInts, PackFileHeader.fields, List.getD_cons_zero, List.getD_cons_succ,
    PackFileHeader.setPackHeaderSize, PackFileHeader.setPackVer, PackFileHeader.setPackFlag,
    PackFileHeader.setPackNum, PackFileHeader.setPackctime, PackFileHeader.setPackutime,
    PackFileHeader.setPackFileSize, PackFileHeader.setPackreserver1, if_true]

theorem equals_headerOfInts (h : PackFileHeader) :
    (headerOfInts h.fields).equals (.header h) = true ↔
      h.packreserver1 = 0 ∧ h.packreserver2 = 0 := by
  rw [PackFileHeader.equals_header, headerOfInts_fields]
  cases h
  simp only [PackFileHeader.mk.injEq, true_and]
  constructor
  · rintro ⟨h1, h2⟩
    exact ⟨h1.symm.trans h2.symm, h2.symm⟩
  · rintro ⟨h1, h2⟩
    exact ⟨h2.trans h1.symm, h2.symm⟩

/-- Reading a file that starts with the 36 bytes written for a header gives an equal header
just if both reserved fields are zero. -/
theorem readPackHeader_writePackHeader_equals_iff (h : PackFileHeader) (w r : PackFile)
    (rest : List Byte) :
    ∃ bytes v p, bytes.length = 36 ∧
      writePackHeader { w with pfh := some h, pFile := some ⟨some [], none⟩ } =
        .ok (0, { w with pfh := some h, pFile := some ⟨some bytes, none⟩ }) ∧
      readPackHeader { r with inFile := some ⟨none, some (bytes ++ rest)⟩ } =
        .ok (v, { r with pfh := some p, inFile := some ⟨none, some rest⟩ }) ∧
      (p.equals (.header h) = true ↔ h.packreserver1 = 0 ∧ h.packreserver2 = 0) := by
  have hw := writePackHeader_eq h { w with pfh := some h, pFile := some ⟨some [], none⟩ }
    ⟨some [], none⟩ rfl rfl rfl
  rw [List.nil_append] at hw
  have hr := readPackHeader_eq h.fields rfl
    { r with inFile := some ⟨none, some (h.fields.flatMap intToBytes ++ rest)⟩ }
    ⟨none, some (h.fields.flatMap intToBytes ++ rest)⟩ rfl rfl
  have hlen : (h.fields.flatMap intToBytes).length = 36 := by
    simp [PackFileHeader.fields, intToBytes]
  exact ⟨h.fields.flatMap intToBytes, h.fields, headerOfInts h.fields, hlen, hw, hr,
    equals_headerOfInts h⟩

/-- A header with 7 in the last field comes back with 7 in the field before. -/
theorem readPackHeader_loses_packreserver2 :
    ∃ bytes v p, writePackHeader ⟨some { packreserver2 := 7 }, some ⟨some [], none⟩, none, false⟩ =
        .ok (0, ⟨some { packreserver2 := 7 }, some ⟨some bytes, none⟩, none, false⟩) ∧
      readPackHeader ⟨none, none, some ⟨none, some bytes⟩, false⟩ =
        .ok (v, ⟨some p, none, some ⟨none, some []⟩, false⟩) ∧
      p.packreserver1 = 7 ∧ p.packreserver2 = 0 ∧
      p.equals (.header { packreserver2 := 7 }) = false :=
  ⟨_, _, _, rfl, rfl, rfl, rfl, rfl⟩

end Hatch.Pack
