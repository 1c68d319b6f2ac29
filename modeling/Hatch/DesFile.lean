import Hatch.Des

/-!
# The file functions of `hat_des.cpp`

`DES_Encrypt` reads its input in blocks of eight bytes until `feof` and pads the last,
partial block with zeros and the number of added bytes. `DES_Decrypt` counts the bytes it
has read in an `int`, looks for such an ending in the last block and may find its counter
uninitialised there. A file is its contents, and a `fopen` call a parameter that says
whether it succeeds.
-/

namespace Hatch.Des

open FixedArray

/-- What keeps a call from returning: an S-box number outside its table, a `fwrite` beyond
its buffer, or a loop that is still running. -/
inductive Stop where
  | sboxIndex
  | overread
  | running
  deriving DecidableEq, Repr

def plainFileOpenError : Int := -1

def cipherFileOpenError : Int := -3

def okCode : Int := 1

structure InFile where
  rest : List ElemType
  eof : Bool

def fill (buf : Vector ElemType 8) (l : List ElemType) : Vector ElemType 8 :=
  Vector.ofFn fun i => l[i]?.getD (buf.get i)

/-- `fread(buf, 1, 8, f)`: the number of bytes read, the buffer and the file. -/
def fread (buf : Vector ElemType 8) (f : InFile) : ℕ × Vector ElemType 8 × InFile :=
  (min 8 f.rest.length, fill buf f.rest, ⟨f.rest.drop 8, f.eof || decide (f.rest.length < 8)⟩)

/-- The locals that `DES_Encrypt` and `DES_Decrypt` leave uninitialised. -/
structure Locals where
  count : BitVec 32
  plainBlock : Vector ElemType 8
  cipherBlock : Vector ElemType 8
  subKeys : Vector (Vector ElemType 48) 16

def blockResult {α : Type} : Option α → Except Stop α
  | some a => .ok a
  | none => .error .sboxIndex

theorem length_fread (buf : Vector ElemType 8) (f : InFile) :
    (fread buf f).2.2.rest.length = f.rest.length - 8 := by
  simp [fread]

theorem eof_fread {buf : Vector ElemType 8} {f : InFile} (h : (fread buf f).1 ≠ 8) :
    (fread buf f).2.2.eof = true := by
  simp only [fread] at h ⊢
  simp
  omega

/-- The loop `while (!feof(plain))`, with `count`, `plainBlock` and the bytes written. -/
def encryptLoop (subKeys : Vector (Vector ElemType 48) 16) (f : InFile) (count : ℕ)
    (plainBlock : Vector ElemType 8) (out : List ElemType) :
    Except Stop (ℕ × Vector ElemType 8 × List ElemType) :=
  if f.eof then .ok (count, plainBlock, out)
  else
    let r := fread plainBlock f
    if r.1 = 8 then do
      let cipherBlock ← blockResult (desEncryptBlock r.2.1 subKeys)
      encryptLoop subKeys r.2.2 r.1 r.2.1 (out ++ cipherBlock.toList)
    else encryptLoop subKeys r.2.2 r.1 r.2.1 out
termination_by 2 * f.rest.length + if f.eof then 0 else 1
decreasing_by
  -- A full block shortens the file, and a short read sets its end-of-file mark.
  · have h8 : min 8 f.rest.length = 8 := ‹_›
    rw [length_fread]
    split <;> omega
  · have heof := eof_fread ‹_›
    rw [length_fread, if_pos heof, if_neg ‹_›]
    omega

def pad (plainBlock : Vector ElemType 8) (count : ℕ) : Vector ElemType 8 :=
  (copy plainBlock count (Vector.replicate (7 - count) 0)).set 7 (BitVec.ofNat 8 (8 - count))

/-- `DES_Encrypt`, with the contents of the plain file if it can be opened and whether the
cipher file can be created; the result is the return value and the cipher file written. -/
def desEncrypt (locals : Locals) (plain : Option (List ElemType)) (keyStr : Vector ElemType 8)
    (cipher : Bool) : Except Stop (Int × Option (List ElemType)) :=
  match plain, cipher with
  | none, _ => .ok (plainFileOpenError, none)
  | some _, false => .ok (cipherFileOpenError, none)
  | some content, true => do
      let subKeys := desMakeSubKeys (char8ToBit64 keyStr) locals.subKeys
      let r ← encryptLoop subKeys ⟨content, false⟩ locals.count.toNat locals.plainBlock []
      if r.1 ≠ 0 then
        let cipherBlock ← blockResult (desEncryptBlock (pad r.2.1 r.1) subKeys)
        return (okCode, some (r.2.2 ++ cipherBlock.toList))
      else return (okCode, some r.2.2)

/-- The loop `while (1)`, which ends when `times`, an `int`, is not below `fileLen`; it is
stopped after `fuel` iterations. -/
def decryptLoop (subKeys : Vector (Vector ElemType 48) 16) (fileLen : Int) :
    ℕ → InFile → Vector ElemType 8 → BitVec 32 → List ElemType →
    Except Stop (Vector ElemType 8 × List ElemType)
  | 0, _, _, _, _ => .error .running
  | fuel + 1, f, cipherBlock, times, out => do
      let r := fread cipherBlock f
      let plainBlock ← blockResult (desDecryptBlock r.2.1 subKeys)
      let times := times + 8
      if times.toInt < fileLen then
        decryptLoop subKeys fileLen fuel r.2.2 r.2.1 times (out ++ plainBlock.toList)
      else return (plainBlock, out)

def scan (plainBlock : Vector ElemType 8) (count : ℕ) : ℕ :=
  if h : count < 7 then
    if plainBlock.get ⟨count, by omega⟩ ≠ 0 then count else scan plainBlock (count + 1)
  else count
termination_by 7 - count

/-- The value of `count` when the padding has been looked for: the loop sets it only if the
last byte, a signed `char`, is below 8. -/
def paddingCount (count : BitVec 32) (plainBlock : Vector ElemType 8) : Int :=
  if (plainBlock.get 7).toInt < 8 then scan plainBlock (8 - (plainBlock.get 7).toInt).toNat
  else count.toInt

/-- The bytes of the last block that are written; a negative length is a huge `size_t`. -/
def lastBytes (count : BitVec 32) (plainBlock : Vector ElemType 8) :
    Except Stop (List ElemType) :=
  if paddingCount count plainBlock = 7 then
    if 0 ≤ 8 - (plainBlock.get 7).toInt ∧ 8 - (plainBlock.get 7).toInt ≤ 8 then
      .ok (plainBlock.toList.take (8 - (plainBlock.get 7).toInt).toNat)
    else .error .overread
  else .ok plainBlock.toList

/-- `DES_Decrypt`, with the contents of the cipher file if it can be opened and whether the
plain file can be created. -/
def desDecrypt (fuel : ℕ) (locals : Locals) (cipher : Option (List ElemType))
    (keyStr : Vector ElemType 8) (plain : Bool) : Except Stop (Int × Option (List ElemType)) :=
  match cipher, plain with
  | none, _ => .ok (cipherFileOpenError, none)
  | some _, false => .ok (plainFileOpenError, none)
  | some content, true => do
      let subKeys := desMakeSubKeys (char8ToBit64 keyStr) locals.subKeys
      let r ← decryptLoop subKeys content.length fuel ⟨content, false⟩ locals.cipherBlock 0 []
      let bytes ← lastBytes locals.count r.1
      return (okCode, some (r.2 ++ bytes))

end Hatch.Des
