import Hatch.PackTruncated

/-!
# The order of calls on a pack file

`packFile` has a header, two handles and a log that may be null, set by different constructors and
methods, and closing a handle clears its streams. A call throws where it uses one of them that is
not there. What the calls made so far have set is a function of the constructor and of these calls,
so the sequences in which no call throws can be read off from the order of the calls.
-/

namespace Hatch.Pack

open Java

/-! ### The class -/

structure FileHeader where
  fileHeaderver : BitVec 32 := 0x0101
  fileHeaderSize : BitVec 32 := 0
  filesize : BitVec 64 := 0
  fileFlag : BitVec 32 := 1
  fileNum : BitVec 32 := 0
  fileName : Str := []
  fileCode : BitVec 32 := 1
  reserve1 : BitVec 32 := 0

/-- The length of `s.getBytes("utf-8")`; half of a surrogate pair alone becomes a question mark. -/
def utf8Length : Str → ℕ
  | [] => 0
  | [c] => if c < 0x80 then 1 else if c < 0x800 then 2 else if c &&& 0xF800 = 0xD800 then 1 else 3
  | c :: d :: s =>
      if c &&& 0xFC00 = 0xD800 ∧ d &&& 0xFC00 = 0xDC00 then 4 + utf8Length s
      else (if c < 0x80 then 1 else if c < 0x800 then 2
        else if c &&& 0xF800 = 0xD800 then 1 else 3) + utf8Length (d :: s)

def FileHeader.adustHeader (h : FileHeader) : FileHeader :=
  { h with
    fileHeaderSize := BitVec.ofNat 32 (4 + 4 + 8 + 4 + 4 + utf8Length h.fileName + 4 + 4)
    reserve1 := 0 }

/-- `packFile` with the fields that opening a file uses. -/
structure Packer extends PackFile where
  fh : Option FileHeader := none
  packFileLimit : BitVec 64 := 1024 * 1024 * 1024

/-- The three constructors; `none` is the null reference, and a log is given by whether a message
can be written to it. -/
inductive Constructor where
  | plain
  | ofHandle (pack : Option FileHandle)
  | ofLog (packlog : Bool)

namespace Constructor

def pack : Constructor → Option FileHandle
  | ofHandle pack => pack
  | _ => none

def aplog : Constructor → Bool
  | ofLog packlog => packlog
  | _ => false

def new (c : Constructor) : Packer :=
  { pfh := none, pFile := c.pack, inFile := none, aplog := c.aplog }

end Constructor

namespace FileHandle

/-- `OpenWriteFile` on a file that can be opened; `master` says whether the log of `Master` is
set. -/
def openWriteFile (master : Bool) (f : FileHandle) : Except ReadError FileHandle :=
  if master then .ok { f with dataOut := some [] } else .error (.other .nullPointer)

def openReadFile (master : Bool) (f : FileHandle) (content : List Byte) :
    Except ReadError FileHandle :=
  if master then .ok { f with dataIn := some content } else .error (.other .nullPointer)

def hasStream (f : FileHandle) : Bool := f.dataOut.isSome || f.dataIn.isSome

/-- `CloseFile`, where closing a stream may throw. -/
def closeFile (throws : Bool) (f : FileHandle) : Except ReadError FileHandle :=
  if f.hasStream && throws then .error .ioException else .ok ⟨none, none⟩

/-- The writes of `WritePackHeader` from the `i`-th on; an `IOException` leaves them. -/
def writeFields (throws : ℕ → Bool) : ℕ → List (BitVec 32) → FileHandle →
    Except Throwable FileHandle
  | _, [], f => .ok f
  | i, a :: as, f =>
      match f.dataOut with
      | none => .error .nullPointer
      | some _ =>
          if throws i then .ok f
          else do
            let f ← f.writeFile (intToBytes a) 0 4
            writeFields throws (i + 1) as f

end FileHandle

def raise {α : Type} : Except Throwable α → Except ReadError α
  | .ok a => .ok a
  | .error t => .error (.other t)

namespace Packer

def openpackFile (master : Bool) (p : Packer) : Except ReadError (Int × Packer) :=
  match p.pFile with
  | some _ => if p.aplog then .ok (-1, p) else .error (.other .nullPointer)
  | none => do
      let f ← FileHandle.openWriteFile master ⟨none, none⟩
      return (0, { p with pFile := some f, pfh := some {} })

def openReadFile (master : Bool) (rd : Str) (content : List Byte) (p : Packer) :
    Except ReadError Packer := do
  let f ← FileHandle.openReadFile master ⟨none, none⟩ content
  let fh : FileHeader := { fileName := rd, filesize := BitVec.ofNat 64 content.length }
  match p.pfh with
  | none => .error (.other .nullPointer)
  | some pfh =>
      let fh :=
        if p.packFileLimit.slt (fh.filesize + pfh.packFileSize.signExtend 64) then
          { fh with fileFlag := 2, fileNum := 1 }
        else fh
      return { p with inFile := some f, fh := some fh.adustHeader }

def closePackFile (throws : Bool) (p : Packer) : Except ReadError Packer :=
  match p.pFile with
  | none => .error (.other .nullPointer)
  | some f => do
      let f ← f.closeFile throws
      return { p with pFile := some f }

def writePackHeader (throws : ℕ → Bool) (p : Packer) : Except ReadError (Int × Packer) :=
  match p.pfh, p.pFile with
  | none, _ => if p.aplog then .ok (-1, p) else .error (.other .nullPointer)
  | some _, none => .error (.other .nullPointer)
  | some h, some f => do
      let f ← raise (f.writeFields throws 0 h.fields)
      return (0, { p with pFile := some f })

def readPackHeader (reads : ℕ → ReadOutcome) (p : Packer) :
    Except ReadError (List (BitVec 32) × Packer) := do
  let (v, q) ← raise (readPackHeaderBy reads p.toPackFile)
  return (v, { p with toPackFile := q })

end Packer

/-- A call with what its reads, writes and closes do. -/
inductive Call where
  | openpackFile
  | openReadFile (rd : Str) (content : List Byte)
  | readPackHeader (reads : ℕ → ReadOutcome)
  | writePackHeader (throws : ℕ → Bool)
  | closePackFile (throws : Bool)

inductive Reply where
  | void
  | code (n : Int)
  | values (v : List (BitVec 32))

def Packer.call (master : Bool) (p : Packer) : Call → Except ReadError (Reply × Packer)
  | .openpackFile => do
      let (n, p) ← p.openpackFile master
      return (.code n, p)
  | .openReadFile rd content => do
      let p ← p.openReadFile master rd content
      return (.void, p)
  | .readPackHeader reads => do
      let (v, p) ← p.readPackHeader reads
      return (.values v, p)
  | .writePackHeader throws => do
      let (n, p) ← p.writePackHeader throws
      return (.code n, p)
  | .closePackFile throws => do
      let p ← p.closePackFile throws
      return (.void, p)

/-- The replies to a sequence of calls, up to the first one that throws. -/
def Packer.calls (master : Bool) : Packer → List Call → Except ReadError (List Reply × Packer)
  | p, [] => .ok ([], p)
  | p, c :: cs => do
      let (r, p) ← p.call master c
      let (rs, p) ← p.calls master cs
      return (r :: rs, p)

theorem writeFields_eq (as : List (BitVec 32)) (i : ℕ) (f : FileHandle) :
    f.writeFields (fun _ => false) i as =
      as.foldlM (fun f a => f.writeFile (intToBytes a) 0 4) f := by
  induction as generalizing i f with
  | nil => rfl
  | cons a as ih =>
      rw [FileHandle.writeFields, List.foldlM_cons]
      cases ho : f.dataOut with
      | none =>
          rw [FileHandle.writeFile, ho]
          rfl
      | some out =>
          rw [writeFile_int f ho]
          exact ih (i + 1) _

/-- Without an `IOException` a header is written as in `PackFile`. -/
theorem Packer.writePackHeader_eq (p : Packer) :
    p.writePackHeader (fun _ => false) =
      raise ((Pack.writePackHeader p.toPackFile).map
        fun r => (r.1, { p with toPackFile := r.2 })) := by
  unfold Packer.writePackHeader Pack.writePackHeader
  cases hpfh : p.pfh with
  | none =>
      dsimp only
      cases p.aplog <;> rfl
  | some h =>
      cases hf : p.pFile with
      | none => rfl
      | some f =>
          simp only [writeFields_eq, bind, Except.bind]
          cases h.fields.foldlM (fun f a => f.writeFile (intToBytes a) 0 4) f <;> rfl

/-! ### What the calls have set -/

namespace Call

def isOpenpackFile : Call → Bool
  | openpackFile => true
  | _ => false

def isOpenReadFile : Call → Bool
  | openReadFile _ _ => true
  | _ => false

def isClosePackFile : Call → Bool
  | closePackFile _ => true
  | _ => false

end Call

section Order

variable (c : Constructor) (before : List Call)

/-- `OpenpackFile` has opened a file, which it does only without a handle. -/
def opened : Bool := c.pack.isNone && before.any Call.isOpenpackFile

def hasHandle : Bool := c.pack.isSome || opened c before

def closed : Bool := before.any Call.isClosePackFile

def hasOpenStream : Bool :=
  !closed before && (opened c before || c.pack.any FileHandle.hasStream)

/-- The calls that find what they need after the calls `before`. -/
def Allowed (master : Bool) : Call → Prop
  | .openpackFile => if hasHandle c before then c.aplog = true else master = true
  | .openReadFile _ _ => master = true ∧ opened c before = true
  | .readPackHeader _ => before.any Call.isOpenReadFile = true
  | .writePackHeader _ => if opened c before then closed before = false else c.aplog = true
  | .closePackFile throws =>
      hasHandle c before = true ∧ (hasOpenStream c before && throws) = false

structure Tracks (p : Packer) : Prop where
  aplog : p.aplog = c.aplog
  pfh : p.pfh.isSome = opened c before
  pFile : p.pFile.isSome = hasHandle c before
  dataOut : opened c before = true → ∀ f ∈ p.pFile, f.dataOut.isSome = !closed before
  stream : ∀ f ∈ p.pFile, f.hasStream = hasOpenStream c before
  inFile : p.inFile.isSome = before.any Call.isOpenReadFile
  dataIn : ∀ f ∈ p.inFile, f.dataIn.isSome = true
  opened_of_read : before.any Call.isOpenReadFile = true → opened c before = true
  hasHandle_of_closed : closed before = true → hasHandle c before = true

end Order

variable {c : Constructor} {before : List Call} {p : Packer} {master : Bool}

theorem tracks_new (c : Constructor) : Tracks c [] c.new where
  aplog := rfl
  pfh := by simp [Constructor.new, opened]
  pFile := by simp [Constructor.new, hasHandle, opened]
  dataOut h := by simp [opened] at h
  stream f hf := by
    have hpack : c.pack = some f := hf
    simp [hasOpenStream, closed, opened, hpack]
  inFile := rfl
  dataIn f hf := by cases hf
  opened_of_read h := by cases h
  hasHandle_of_closed h := by cases h

/-- A call goes through and leaves what it should, or throws where it is not allowed. -/
def Settles (master : Bool) (c : Constructor) (before : List Call) (p : Packer) (call : Call) :
    Prop :=
  (Allowed c before master call ∧
    ∃ r q, p.call master call = .ok (r, q) ∧ Tracks c (before ++ [call]) q) ∨
  (¬ Allowed c before master call ∧ ∃ e, p.call master call = .error e)

section Flags

variable (c before)

@[simp] theorem opened_append (call : Call) :
    opened c (before ++ [call]) =
      (opened c before || (c.pack.isNone && call.isOpenpackFile)) := by
  simp [opened, Bool.and_or_distrib_left]

@[simp] theorem closed_append (call : Call) :
    closed (before ++ [call]) = (closed before || call.isClosePackFile) := by
  simp [closed]

end Flags

/-- A handle is there from the start, or none is and a file has been opened. -/
theorem pack_of_not_hasHandle (h : hasHandle c before = false) :
    c.pack = none ∧ opened c before = false := by
  simpa [hasHandle] using h

theorem opened_append_of_hasHandle (h : hasHandle c before = true) (call : Call) :
    opened c (before ++ [call]) = opened c before := by
  rw [opened_append]
  cases hpack : c.pack with
  | none =>
      have ho : opened c before = true := by simpa [hasHandle, hpack] using h
      rw [ho, Bool.true_or]
  | some f => simp

/-- Other calls than `OpenpackFile` and `closePackFile` leave the handle as it was. -/
theorem flags_append (c : Constructor) (before : List Call) {call : Call}
    (hopen : call.isOpenpackFile = false) (hclose : call.isClosePackFile = false) :
    opened c (before ++ [call]) = opened c before ∧ closed (before ++ [call]) = closed before ∧
      hasHandle c (before ++ [call]) = hasHandle c before ∧
      hasOpenStream c (before ++ [call]) = hasOpenStream c before := by
  have hopened : opened c (before ++ [call]) = opened c before := by simp [hopen]
  have hclosed : closed (before ++ [call]) = closed before := by simp [hclose]
  exact ⟨hopened, hclosed, by rw [hasHandle, hasHandle, hopened],
    by rw [hasOpenStream, hasOpenStream, hopened, hclosed]⟩

/-- What an object holds is told by the flags alone. -/
theorem Tracks.of_flags {later : List Call} (h : Tracks c before p)
    (hopened : opened c later = opened c before) (hclosed : closed later = closed before)
    (hread : later.any Call.isOpenReadFile = before.any Call.isOpenReadFile) :
    Tracks c later p := by
  have hhas : hasHandle c later = hasHandle c before := by rw [hasHandle, hasHandle, hopened]
  have hstream : hasOpenStream c later = hasOpenStream c before := by
    rw [hasOpenStream, hasOpenStream, hopened, hclosed]
  exact {
    aplog := h.aplog
    pfh := by rw [hopened]; exact h.pfh
    pFile := by rw [hhas]; exact h.pFile
    dataOut := by rw [hopened, hclosed]; exact h.dataOut
    stream := by rw [hstream]; exact h.stream
    inFile := by rw [hread]; exact h.inFile
    dataIn := h.dataIn
    opened_of_read := by rw [hread, hopened]; exact h.opened_of_read
    hasHandle_of_closed := by rw [hclosed, hhas]; exact h.hasHandle_of_closed }

/-- A call that neither opens nor closes leaves all flags as they were. -/
theorem Tracks.append {call : Call} (h : Tracks c before p) (hopen : call.isOpenpackFile = false)
    (hclose : call.isClosePackFile = false) (hread : call.isOpenReadFile = false) :
    Tracks c (before ++ [call]) p :=
  h.of_flags (by simp [hopen]) (by simp [hclose]) (by simp [hread])

theorem Tracks.openpackFile (h : Tracks c before p) : Settles master c before p .openpackFile := by
  have hhandle := h.pFile
  unfold Settles
  simp only [Allowed, Packer.call, Packer.openpackFile]
  cases hp : p.pFile with
  | some f =>
      rw [hp] at hhandle
      have hopened := opened_append_of_hasHandle hhandle.symm .openpackFile
      have hclosed : closed (before ++ [.openpackFile]) = closed before := by
        simp [Call.isClosePackFile]
      rw [← hhandle, h.aplog]
      cases hlog : c.aplog with
      | false => exact .inr ⟨by simp, _, rfl⟩
      | true =>
          refine .inl ⟨by simp, _, p, rfl, ?_⟩
          exact h.of_flags hopened hclosed (by simp [Call.isOpenReadFile])
  | none =>
      rw [hp] at hhandle
      obtain ⟨hpack, hopened⟩ := pack_of_not_hasHandle hhandle.symm
      have hclosed : closed before = false := by
        by_contra hne
        have hhas := h.hasHandle_of_closed (by simpa using hne)
        rw [hhas] at hhandle
        cases hhandle
      rw [← hhandle]
      cases master with
      | false => exact .inr ⟨by simp, _, rfl⟩
      | true =>
          refine .inl ⟨by simp, _, _, rfl, ?_⟩
          exact {
            aplog := h.aplog
            pfh := by simp [hpack, Call.isOpenpackFile]
            pFile := by simp [hasHandle, hpack, Call.isOpenpackFile]
            dataOut := by simp [hclosed, Call.isClosePackFile]
            stream := by
              simp [hasOpenStream, hclosed, hpack, Call.isOpenpackFile, Call.isClosePackFile,
                FileHandle.hasStream]
            inFile := by simpa [Call.isOpenReadFile] using h.inFile
            dataIn := h.dataIn
            opened_of_read := by simp [hpack, Call.isOpenpackFile]
            hasHandle_of_closed := by simp [hasHandle, hpack, Call.isOpenpackFile] }

theorem Tracks.openReadFile (h : Tracks c before p) (rd : Str) (content : List Byte) :
    Settles master c before p (.openReadFile rd content) := by
  have hpfh := h.pfh
  obtain ⟨hopened, hclosed, hhas, hstream⟩ :=
    flags_append c before (show (Call.openReadFile rd content).isOpenpackFile = false from rfl) rfl
  unfold Settles
  simp only [Allowed, Packer.call, Packer.openReadFile, FileHandle.openReadFile]
  cases master with
  | false => exact .inr ⟨by simp, _, rfl⟩
  | true =>
      cases hp : p.pfh with
      | none =>
          rw [hp] at hpfh
          refine .inr ⟨?_, _, rfl⟩
          rw [← hpfh]
          simp
      | some header =>
          rw [hp] at hpfh
          refine .inl ⟨⟨rfl, hpfh.symm⟩, _, _, rfl, ?_⟩
          exact {
            aplog := h.aplog
            pfh := by rw [hopened]; exact hpfh
            pFile := by rw [hhas]; exact h.pFile
            dataOut := by rw [hopened, hclosed]; exact h.dataOut
            stream := by rw [hstream]; exact h.stream
            inFile := by simp [Call.isOpenReadFile]
            dataIn := by simp
            opened_of_read := fun _ => by rw [hopened]; exact hpfh.symm
            hasHandle_of_closed := by rw [hclosed, hhas]; exact h.hasHandle_of_closed }

theorem readFields_ok (reads : ℕ → ReadOutcome) (n i : ℕ) (f : FileHandle) (bt : List Byte)
    (hf : f.dataIn.isSome = true) (hb : bt.length = 4) :
    ∃ v f' thrown, readFields reads n i f bt = .ok (v, f', thrown) ∧ f'.dataIn.isSome = true := by
  induction n generalizing i f bt with
  | zero => exact ⟨[], f, false, rfl, hf⟩
  | succ n ih =>
      obtain ⟨input, hinput⟩ := Option.isSome_iff_exists.mp hf
      rw [readFields, FileHandle.readSome, hinput]
      simp only [hb, Nat.zero_add, Nat.le_refl, if_true]
      cases reads i with
      | ioException => exact ⟨[], f, true, rfl, hf⟩
      | ok k =>
          obtain ⟨v, f', thrown, hrun, hf'⟩ := ih (i + 1)
            { f with dataIn := some (input.drop (min 4 (k + 1))) }
            (bt.take 0 ++ input.take (min 4 (k + 1)) ++
              bt.drop (input.take (min 4 (k + 1))).length) rfl (by simp; omega)
          exact ⟨_, f', thrown, by simp only [hrun]; rfl, hf'⟩

theorem Tracks.readPackHeader (h : Tracks c before p) (reads : ℕ → ReadOutcome) :
    Settles master c before p (.readPackHeader reads) := by
  have happend : Tracks c (before ++ [.readPackHeader reads]) p := h.append rfl rfl rfl
  unfold Settles
  simp only [Allowed, Packer.call, Packer.readPackHeader, readPackHeaderBy]
  rw [← h.inFile]
  cases hp : p.inFile with
  | none => exact .inr ⟨by simp, _, rfl⟩
  | some f =>
      obtain ⟨v, f', thrown, hrun, hf'⟩ := readFields_ok reads 9 0 f (List.replicate 4 0)
        (h.dataIn f hp) rfl
      simp only [hrun]
      refine .inl ⟨rfl, _, _, rfl, ?_⟩
      have hread := happend.inFile
      rw [hp] at hread
      exact { happend with
        pfh := (happend.opened_of_read hread.symm).symm
        inFile := hread
        dataIn := by simpa using hf' }

theorem writeFields_ok (throws : ℕ → Bool) (as : List (BitVec 32)) (i : ℕ) {f : FileHandle}
    (hf : f.dataOut.isSome = true) :
    ∃ f', f.writeFields throws i as = .ok f' ∧ f'.dataOut.isSome = true := by
  induction as generalizing i f with
  | nil => exact ⟨f, rfl, hf⟩
  | cons a as ih =>
      obtain ⟨out, hout⟩ := Option.isSome_iff_exists.mp hf
      rw [FileHandle.writeFields, hout]
      dsimp only
      split
      · exact ⟨f, rfl, hf⟩
      · rw [writeFile_int f hout]
        exact ih (i + 1) rfl

theorem writeFields_null (throws : ℕ → Bool) (h : PackFileHeader) {f : FileHandle}
    (hf : f.dataOut = none) : f.writeFields throws 0 h.fields = .error .nullPointer := by
  rw [PackFileHeader.fields, FileHandle.writeFields, hf]

theorem Tracks.writePackHeader (h : Tracks c before p) (throws : ℕ → Bool) :
    Settles master c before p (.writePackHeader throws) := by
  have hpfh := h.pfh
  have happend : Tracks c (before ++ [.writePackHeader throws]) p := h.append rfl rfl rfl
  unfold Settles
  simp only [Allowed, Packer.call, Packer.writePackHeader]
  cases hp : p.pfh with
  | none =>
      rw [hp] at hpfh
      rw [← hpfh, h.aplog]
      cases hlog : c.aplog with
      | false => exact .inr ⟨by simp, _, rfl⟩
      | true =>
          exact .inl ⟨by simp, _, p, rfl, happend⟩
  | some header =>
      rw [hp] at hpfh
      have hhandle : p.pFile.isSome = true := by
        rw [h.pFile, hasHandle, ← hpfh, Option.isSome_some, Bool.or_true]
      obtain ⟨f, hf⟩ := Option.isSome_iff_exists.mp hhandle
      have hout := h.dataOut hpfh.symm f hf
      rw [← hpfh, hf]
      cases hcl : closed before with
      | true =>
          rw [hcl] at hout
          simp only [writeFields_null throws header (by simpa using hout)]
          exact .inr ⟨by simp, _, rfl⟩
      | false =>
          rw [hcl] at hout
          obtain ⟨f', hrun, hf'⟩ := writeFields_ok throws header.fields 0 hout
          simp only [hrun]
          refine .inl ⟨by simp, _, _, rfl, ?_⟩
          have hst : f'.hasStream = hasOpenStream c before := by
            rw [FileHandle.hasStream, hf', hasOpenStream, hcl, ← hpfh]
            rfl
          exact { happend with
            pfh := by rw [← happend.pfh, hp]
            pFile := by rw [← happend.pFile, hf]; rfl
            dataOut := by simpa [hcl, Call.isClosePackFile] using fun _ => hf'
            stream := by
              intro g hg
              cases hg
              rw [← happend.stream f hf, hst, h.stream f hf] }

theorem Tracks.closePackFile (h : Tracks c before p) (throws : Bool) :
    Settles master c before p (.closePackFile throws) := by
  have hhandle := h.pFile
  unfold Settles
  simp only [Allowed, Packer.call, Packer.closePackFile]
  rw [← hhandle]
  cases hp : p.pFile with
  | none => exact .inr ⟨by simp, _, rfl⟩
  | some f =>
      rw [hp] at hhandle
      have hopened := opened_append_of_hasHandle hhandle.symm (.closePackFile throws)
      have hclosed : closed (before ++ [.closePackFile throws]) = true := by
        simp [Call.isClosePackFile]
      have hhas : hasHandle c (before ++ [.closePackFile throws]) = true := by
        rw [hasHandle, hopened]
        exact hhandle.symm
      simp only [FileHandle.closeFile, h.stream f hp]
      cases hopen : hasOpenStream c before && throws with
      | true => exact .inr ⟨by simp, _, rfl⟩
      | false =>
          refine .inl ⟨⟨rfl, rfl⟩, _, _, rfl, ?_⟩
          exact {
            aplog := h.aplog
            pfh := by rw [hopened]; exact h.pfh
            pFile := hhas.symm
            dataOut := by simp [hclosed]
            stream := by simp [hasOpenStream, hclosed, FileHandle.hasStream]
            inFile := by simpa [Call.isOpenReadFile] using h.inFile
            dataIn := h.dataIn
            opened_of_read := by simpa [hopened, Call.isOpenReadFile] using h.opened_of_read
            hasHandle_of_closed := fun _ => hhas }

theorem Tracks.settles (h : Tracks c before p) (master : Bool) (call : Call) :
    Settles master c before p call := by
  cases call with
  | openpackFile => exact h.openpackFile
  | openReadFile rd content => exact h.openReadFile rd content
  | readPackHeader reads => exact h.readPackHeader reads
  | writePackHeader throws => exact h.writePackHeader throws
  | closePackFile throws => exact h.closePackFile throws

/-! ### Sequences of calls -/

theorem Tracks.calls_ok_iff (h : Tracks c before p) (master : Bool) (calls : List Call) :
    (∃ r, p.calls master calls = .ok r) ↔
      ∀ i (hi : i < calls.length), Allowed c (before ++ calls.take i) master (calls[i]) := by
  induction calls generalizing before p with
  | nil => exact iff_of_true ⟨_, rfl⟩ fun i hi => absurd hi (Nat.not_lt_zero i)
  | cons call calls ih =>
      rw [Packer.calls]
      rcases h.settles master call with ⟨hallowed, r, q, hcall, hq⟩ | ⟨hnot, e, hcall⟩
      · have hrest := ih hq
        simp only [hcall, bind, Except.bind]
        constructor
        · rintro ⟨r', hr'⟩ i hi
          have hok : ∃ r, q.calls master calls = .ok r := by
            cases hrun : q.calls master calls with
            | error e =>
                rw [hrun] at hr'
                cases hr'
            | ok r => exact ⟨r, rfl⟩
          cases i with
          | zero => simpa using hallowed
          | succ i => simpa using hrest.mp hok i (Nat.lt_of_succ_lt_succ hi)
        · intro hall
          obtain ⟨r', hr'⟩ := hrest.mpr fun i hi => by
            simpa using hall (i + 1) (Nat.succ_lt_succ hi)
          exact ⟨_, by rw [hr']; rfl⟩
      · constructor
        · rintro ⟨r', hr'⟩
          rw [hcall] at hr'
          cases hr'
        · intro hall
          exact absurd (by simpa using hall 0 (Nat.succ_pos _)) hnot

/-- All calls of a sequence on a new object return just if every one of them is allowed after the
calls before it. -/
theorem packFile_calls_iff (master : Bool) (c : Constructor) (calls : List Call) :
    (∃ r, c.new.calls master calls = .ok r) ↔
      ∀ i (hi : i < calls.length), Allowed c (calls.take i) master (calls[i]) := by
  have h := (tracks_new c).calls_ok_iff master calls
  simpa only [List.nil_append] using h

/-- What `Master.main` does with its second object, and four other sequences. -/
theorem packFile_throws :
    Constructor.plain.new.calls true [.openReadFile [] [], .readPackHeader fun _ => .ok 4] =
        .error (.other .nullPointer) ∧
      (Constructor.ofHandle (some ⟨none, none⟩)).new.calls true [.openpackFile] =
        .error (.other .nullPointer) ∧
      (Constructor.ofLog true).new.calls true [.closePackFile false] =
        .error (.other .nullPointer) ∧
      (Constructor.ofLog true).new.calls true [.openpackFile, .readPackHeader fun _ => .ok 4] =
        .error (.other .nullPointer) ∧
      (Constructor.ofLog true).new.calls true
          [.openpackFile, .closePackFile false, .writePackHeader fun _ => false] =
        .error (.other .nullPointer) :=
  ⟨rfl, rfl, rfl, rfl, rfl⟩

end Hatch.Pack
