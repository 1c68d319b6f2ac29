import Hatch.Sqlite3Split

/-!
# Nested source texts and their routing

A source is a sequence of plain lines and of marker lines that open and close named files,
properly nested and at most 31 deep. `route` is what the splitter is for: it sends a line to
the innermost file open at it, marker lines to the file they delimit, and lines outside every
file to `sqlite3.c`.
-/

namespace Hatch.Split

open ByteLayout (Bytes)
open CString

/-- A name without blanks and with an extension of one character. -/
structure FileName where
  stem : Bytes
  ext : UInt8
  stem_char : ∀ c ∈ stem, c ≠ blank ∧ c ≠ newline ∧ c ≠ 0
  ext_char : ext ≠ blank ∧ ext ≠ newline ∧ ext ≠ 0 ∧ ext ≠ dot

def FileName.bytes (n : FileName) : Bytes := n.stem ++ [dot, n.ext]

/-- A line in which no marker text occurs. -/
structure PlainLine where
  bytes : Bytes
  newline_notMem : newline ∉ bytes
  zero_notMem : 0 ∉ bytes
  not_begin : ¬ beginMark <:+: bytes
  not_end : ¬ endMark <:+: bytes

inductive Line where
  | plain (l : PlainLine)
  | beginFile (n : FileName) (k : ℕ)
  | endOf (n : FileName) (k : ℕ)

/-- What follows the name on a marker line. -/
def closing (k : ℕ) : Bytes := blank :: (List.replicate k star ++ [slash])

def Line.bytes : Line → Bytes
  | .plain l => l.bytes
  | .beginFile n k => beginMark ++ blank :: (n.bytes ++ closing k)
  | .endOf n k => endMark ++ blank :: (n.bytes ++ closing k)

/-- The lines with their line breaks, of which only the last may be missing. -/
def withBreaks (finalBreak : Bool) : List Line → List (Line × Bytes)
  | [] => []
  | [l] => [(l, l.bytes ++ if finalBreak then [newline] else [])]
  | l :: ls => (l, l.bytes ++ [newline]) :: withBreaks finalBreak ls

def innermost : List FileName → Bytes
  | [] => desFileName
  | n :: _ => n.bytes

def Line.file (opened : List FileName) : Line → Bytes
  | .plain _ => innermost opened
  | .beginFile n _ | .endOf n _ => n.bytes

def Line.after (opened : List FileName) : Line → List FileName
  | .plain _ => opened
  | .beginFile n _ => n :: opened
  | .endOf _ _ => opened.tail

/-- A file is opened at depth 31 at most, and only the innermost file is closed. -/
def Line.Allowed (opened : List FileName) : Line → Prop
  | .plain _ => True
  | .beginFile _ _ => opened.length < 31
  | .endOf n _ => opened.head? = some n

/-- The name of a file has at most 486 bytes, and an end line of more than 8191 bytes stands
in a file of the same name. -/
def Line.Fits (opened : List FileName) (b : Bytes) : Line → Prop
  | .plain _ => True
  | .beginFile n _ => n.bytes.length ≤ 486
  | .endOf n _ => b.length ≤ 8191 ∨ n.bytes = innermost opened.tail

def Nested : List FileName → List Line → Prop
  | opened, [] => opened = []
  | opened, l :: ls => l.Allowed opened ∧ Nested (l.after opened) ls

def FitsBuffers : List FileName → List (Line × Bytes) → Prop
  | _, [] => True
  | opened, (l, b) :: ls => l.Fits opened b ∧ FitsBuffers (l.after opened) ls

def route : List FileName → List (Line × Bytes) → List (Bytes × Bytes)
  | _, [] => []
  | opened, (l, b) :: ls => (l.file opened, b) :: route (l.after opened) ls

structure Source where
  lines : List Line
  finalBreak : Bool
  nested : Nested [] lines

def Source.broken (src : Source) : List (Line × Bytes) := withBreaks src.finalBreak src.lines

def Source.text (src : Source) : Bytes := src.broken.flatMap Prod.snd

def Source.routing (src : Source) : List (Bytes × Bytes) := route [] src.broken

def Source.Fits (src : Source) : Prop := FitsBuffers [] src.broken

def Line.opens : Line → Option Bytes
  | .beginFile n _ => some n.bytes
  | .plain _ | .endOf _ _ => none

def Source.outputs (src : Source) : List Bytes :=
  desFileName :: src.lines.filterMap Line.opens

def perByte (ws : List (Bytes × Bytes)) : List (Bytes × UInt8) :=
  ws.flatMap fun w => w.2.map fun c => (w.1, c)

def contentOf (name : Bytes) (ws : List (Bytes × Bytes)) : Bytes :=
  (ws.filter fun w => w.1 = name).flatMap Prod.snd

@[simp] theorem perByte_append (v w : List (Bytes × Bytes)) :
    perByte (v ++ w) = perByte v ++ perByte w :=
  List.flatMap_append

/-- Writing the pieces of a text to one file is writing the text. -/
theorem perByte_map_mk (name : Bytes) (cs : List Bytes) :
    perByte (cs.map fun c => (name, c)) = cs.flatten.map fun c => (name, c) := by
  induction cs with
  | nil => rfl
  | cons c cs ih => simpa [perByte] using ih

theorem contentOf_concat (name g line : Bytes) (ws : List (Bytes × Bytes)) :
    contentOf name (ws ++ [(g, line)]) = contentOf name ws ++ if g = name then line else [] := by
  unfold contentOf
  rw [List.filter_append, List.flatMap_append]
  by_cases hg : g = name <;> simp [hg]

/-- A content is the bytes that go to the file. -/
theorem contentOf_eq_filterMap (name : Bytes) (ws : List (Bytes × Bytes)) :
    contentOf name ws =
      (perByte ws).filterMap fun w => if w.1 = name then some w.2 else none := by
  induction ws with
  | nil => rfl
  | cons w ws ih =>
      obtain ⟨g, line⟩ := w
      have hcons : perByte ((g, line) :: ws) = (line.map fun c => (g, c)) ++ perByte ws := rfl
      rw [hcons, List.filterMap_append, ← ih, List.filterMap_map]
      by_cases hg : g = name
      · simp [contentOf, hg]
      · simp [contentOf, hg]

theorem contentOf_congr {name : Bytes} {v w : List (Bytes × Bytes)} (h : perByte v = perByte w) :
    contentOf name v = contentOf name w := by
  rw [contentOf_eq_filterMap, contentOf_eq_filterMap, h]

end Hatch.Split
