import Hatch.ByteLayout
import Hatch.LineReader
import Mathlib.Data.List.Infix
import Mathlib.Logic.Function.Basic

/-!
# The amalgamation splitter

`split_sqlite3.cpp` reads a source text with `fgets` and appends every chunk to the output
file that is open, keeping the names of the enclosing files on a stack. Strings are bytes
without the terminating zero, the contents of absent files are empty, and the calls of
`fputs` are kept as a history. Memory can be allocated, and the source is not an output file.
-/

namespace Hatch.Split

open ByteLayout (Bytes)
open CString

inductive Fault where
  | tmpBufOverflow
  | tmpBufUnterminated
  | nullPointer
  deriving DecidableEq, Repr

def lineBufSize : ℕ := 8192

def stackLevelSize : ℕ := 32

def tmpBufSize : ℕ := 512

def newline : UInt8 := 10

def blank : UInt8 := 32

def dot : UInt8 := 46

def star : UInt8 := 42

def slash : UInt8 := 47

/-- The characters of "/**************". -/
def stars : Bytes := slash :: List.replicate 14 star

/-- The text "/************** Begin file". -/
def beginMark : Bytes := stars ++ [32, 66, 101, 103, 105, 110, 32, 102, 105, 108, 101]

/-- The text "/************** End of". -/
def endMark : Bytes := stars ++ [32, 69, 110, 100, 32, 111, 102]

/-- `g_des_file_name`, the text "sqlite3.c". -/
def desFileName : Bytes := [115, 113, 108, 105, 116, 101, 51, 46, 99]

/-- What `fgets` delivers one after the other; the last byte of the buffer is for the zero. -/
def reads (text : Bytes) : List Bytes := LineReader.reads newline (lineBufSize - 1) text

structure State where
  files : Bytes → Bytes
  fpDes : Option Bytes
  stack : List Bytes
  tmpBuf : Bytes
  fileEnd : Bool
  writes : List (Bytes × Bytes)

/-- The loop is left for the label `ERR_END` or by undefined behaviour. -/
inductive Stop where
  | errEnd (s : State)
  | fault (e : Fault)

/-- `PushStack`; no caller looks at its result. -/
def pushStack (s : State) (name : Bytes) : State :=
  if stackLevelSize ≤ s.stack.length then s else { s with stack := name :: s.stack }

/-- `PopStack`; `none` if the stack is empty. The name is copied to `g_tmp_buf`. -/
def popStack (s : State) : Except Fault (Option State) :=
  match s.stack with
  | [] => .ok none
  | name :: stack =>
      if name.length < tmpBufSize then .ok (some { s with stack := stack, tmpBuf := name })
      else .error .tmpBufUnterminated

/-- `OpenDesFile`, where `openable` says for which names `fopen` succeeds. The mode `a+`
leaves what is in the file. -/
def openDesFile (openable : Bytes → Bool) (s : State) (name : Bytes) : Bool × State :=
  if openable name then (true, { s with fpDes := some name })
  else (false, { s with fpDes := none })

/-- The name that `GetFileName` leaves in `g_tmp_buf`. It copies as many characters as stand
in front of the last dot, whether or not they fit. -/
def getFileName (src : Bytes) : Except Fault (Option Bytes) :=
  match strrchr dot src with
  | none => .ok none
  | some len =>
      if src.length - len < 2 then .ok none
      else
        let offset := if tmpBufSize ≤ len then len - tmpBufSize else 0
        if tmpBufSize < len then .error .tmpBufOverflow
        else if tmpBufSize = len then .error .tmpBufUnterminated
        else
          let tmp := (src.drop (offset + 1)).take len
          match strrchr blank tmp with
          | none => .ok none
          | some b => .ok (some (tmp.drop (b + 1) ++ [src.getD (len + 1) 0]))

def fputs (s : State) (line : Bytes) : Except Stop State :=
  match s.fpDes with
  | none => .error (.fault .nullPointer)
  | some name => .ok { s with
      files := Function.update s.files name (s.files name ++ line)
      writes := s.writes ++ [(name, line)] }

/-- The first part of a round: after an end marker the enclosing file is opened again. -/
def resume (openable : Bytes → Bool) (s : State) : Except Stop State :=
  if s.fileEnd then
    match popStack { s with fileEnd := false } with
    | .error e => .error (.fault e)
    | .ok none => .error (.errEnd { s with fileEnd := false })
    | .ok (some s) =>
        match openDesFile openable s s.tmpBuf with
        | (false, s) => .error (.errEnd s)
        | (true, s) => .ok (pushStack s s.tmpBuf)
  else .ok s

/-- The end marker. The names are compared only if the stack is empty, and then with a null
pointer. -/
def endFile (s : State) (line : Bytes) : Except Stop State :=
  if endMark <:+: line then
    match getFileName line with
    | .error e => .error (.fault e)
    | .ok none => .ok s
    | .ok (some name) =>
        match popStack { s with tmpBuf := name } with
        | .error e => .error (.fault e)
        | .ok none => .error (.fault .nullPointer)
        | .ok (some s) => .ok { s with fileEnd := true }
  else .ok s

/-- The markers of a line: a begin marker without a name is looked at as an end marker. -/
def markers (openable : Bytes → Bool) (s : State) (line : Bytes) : Except Stop State :=
  if beginMark <:+: line then
    match getFileName line with
    | .error e => .error (.fault e)
    | .ok none => endFile s line
    | .ok (some name) =>
        let s := pushStack { s with tmpBuf := name } name
        match openDesFile openable s s.tmpBuf with
        | (false, s) => .error (.errEnd s)
        | (true, s) => .ok s
  else endFile s line

/-- One round of the loop; what follows a zero byte is not seen. -/
def round (openable : Bytes → Bool) (s : State) (chunk : Bytes) : Except Stop State := do
  let line := ByteLayout.cstr chunk 0
  let s ← resume openable s
  let s ← markers openable s line
  fputs s line

def start (files : Bytes → Bytes) : State where
  files := files
  fpDes := none
  stack := []
  tmpBuf := []
  fileEnd := false
  writes := []

/-- The label `ERR_END`, which the end of the loop reaches too. -/
def atErrEnd : Except Stop State → Except Fault State
  | .ok s | .error (.errEnd s) => .ok s
  | .error (.fault e) => .error e

def main (openable : Bytes → Bool) (files : Bytes → Bytes) (text : Bytes) : Except Fault State :=
  match openDesFile openable (start files) desFileName with
  | (false, s) => .ok s
  | (true, s) => atErrEnd ((reads text).foldlM (round openable) (pushStack s desFileName))

end Hatch.Split
