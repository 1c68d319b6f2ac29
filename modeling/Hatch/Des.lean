import Hatch.BitString
import Hatch.CountedLoop
import Hatch.FixedArray

/-!
# The block functions of `hat_des.cpp`

Blocks, keys and bits are arrays of `ElemType`, that is of signed `char`, one cell per bit
between the two byte conversions. Every function works on such arrays in the order of the
source; `DES_SBOX` overwrites its input in place and stops when a line or row number lies
outside its table.
-/

namespace Hatch.Des

open BitString CountedLoop FixedArray

abbrev ElemType := BitVec 8

def promote (c : ElemType) : BitVec 32 := c.signExtend 32

section Arrays

variable {α : Type} {n m : ℕ}

def slice (v : Vector α n) (off len : ℕ) (h : off + len ≤ n) : Vector α len :=
  Vector.ofFn fun i => v.get ⟨off + i, by omega⟩

def copy (dst : Vector α n) (off : ℕ) (src : Vector α m) : Vector α n :=
  Vector.ofFn fun i =>
    if h : off ≤ i ∧ i < off + m then src.get ⟨i - off, by omega⟩ else dst.get i

@[simp] theorem get_slice (v : Vector α n) (off len : ℕ) (h : off + len ≤ n) (i : Fin len) :
    (slice v off len h).get i = v.get ⟨off + i, by omega⟩ := by
  simp [slice]

theorem get_copy_of_mem (dst : Vector α n) (off : ℕ) (src : Vector α m) (i : Fin n)
    (h : off ≤ i ∧ i < off + m) : (copy dst off src).get i = src.get ⟨i - off, by omega⟩ := by
  simp [copy, h]

theorem get_copy_of_notMem (dst : Vector α n) (off : ℕ) (src : Vector α m) (i : Fin n)
    (h : ¬ (off ≤ i ∧ i < off + m)) : (copy dst off src).get i = dst.get i := by
  rw [copy, get_ofFn, dif_neg h]

end Arrays

def ipTable : Vector (Fin 64) 64 :=
  #v[57, 49, 41, 33, 25, 17, 9, 1, 59, 51, 43, 35, 27, 19, 11, 3,
    61, 53, 45, 37, 29, 21, 13, 5, 63, 55, 47, 39, 31, 23, 15, 7,
    56, 48, 40, 32, 24, 16, 8, 0, 58, 50, 42, 34, 26, 18, 10, 2,
    60, 52, 44, 36, 28, 20, 12, 4, 62, 54, 46, 38, 30, 22, 14, 6]

def ip1Table : Vector (Fin 64) 64 :=
  #v[39, 7, 47, 15, 55, 23, 63, 31, 38, 6, 46, 14, 54, 22, 62, 30,
    37, 5, 45, 13, 53, 21, 61, 29, 36, 4, 44, 12, 52, 20, 60, 28,
    35, 3, 43, 11, 51, 19, 59, 27, 34, 2, 42, 10, 50, 18, 58, 26,
    33, 1, 41, 9, 49, 17, 57, 25, 32, 0, 40, 8, 48, 16, 56, 24]

/-- `E_Table`, which reads the 32 cells of the right half only. -/
def eTable : Vector (Fin 32) 48 :=
  #v[31, 0, 1, 2, 3, 4, 3, 4, 5, 6, 7, 8,
    7, 8, 9, 10, 11, 12, 11, 12, 13, 14, 15, 16,
    15, 16, 17, 18, 19, 20, 19, 20, 21, 22, 23, 24,
    23, 24, 25, 26, 27, 28, 27, 28, 29, 30, 31, 0]

def pTable : Vector (Fin 32) 32 :=
  #v[15, 6, 19, 20, 28, 11, 27, 16, 0, 14, 22, 25, 4, 17, 30, 9,
    1, 7, 23, 13, 31, 26, 2, 8, 18, 12, 29, 5, 21, 10, 3, 24]

def pc1 : Vector (Fin 64) 56 :=
  #v[56, 48, 40, 32, 24, 16, 8, 0, 57, 49, 41, 33, 25, 17,
    9, 1, 58, 50, 42, 34, 26, 18, 10, 2, 59, 51, 43, 35,
    62, 54, 46, 38, 30, 22, 14, 6, 61, 53, 45, 37, 29, 21,
    13, 5, 60, 52, 44, 36, 28, 20, 12, 4, 27, 19, 11, 3]

def pc2 : Vector (Fin 56) 48 :=
  #v[13, 16, 10, 23, 0, 4, 2, 27, 14, 5, 20, 9, 22, 18, 11, 3,
    25, 7, 15, 6, 26, 19, 12, 1, 40, 51, 30, 36, 46, 54, 29, 39,
    50, 44, 32, 46, 43, 48, 38, 55, 33, 52, 45, 41, 49, 35, 28, 31]

def moveTimes : Vector (Fin 29) 16 :=
  #v[1, 1, 2, 2, 2, 2, 2, 2, 1, 2, 2, 2, 2, 2, 2, 1]

def sTable : Vector (Vector (Vector (BitVec 32) 16) 4) 8 :=
  #v[#v[#v[14, 4, 13, 1, 2, 15, 11, 8, 3, 10, 6, 12, 5, 9, 0, 7],
      #v[0, 15, 7, 4, 14, 2, 13, 1, 10, 6, 12, 11, 9, 5, 3, 8],
      #v[4, 1, 14, 8, 13, 6, 2, 11, 15, 12, 9, 7, 3, 10, 5, 0],
      #v[15, 12, 8, 2, 4, 9, 1, 7, 5, 11, 3, 14, 10, 0, 6, 13]],
    #v[#v[15, 1, 8, 14, 6, 11, 3, 4, 9, 7, 2, 13, 12, 0, 5, 10],
      #v[3, 13, 4, 7, 15, 2, 8, 14, 12, 0, 1, 10, 6, 9, 11, 5],
      #v[0, 14, 7, 11, 10, 4, 13, 1, 5, 8, 12, 6, 9, 3, 2, 15],
      #v[13, 8, 10, 1, 3, 15, 4, 2, 11, 6, 7, 12, 0, 5, 14, 9]],
    #v[#v[10, 0, 9, 14, 6, 3, 15, 5, 1, 13, 12, 7, 11, 4, 2, 8],
      #v[13, 7, 0, 9, 3, 4, 6, 10, 2, 8, 5, 14, 12, 11, 15, 1],
      #v[13, 6, 4, 9, 8, 15, 3, 0, 11, 1, 2, 12, 5, 10, 14, 7],
      #v[1, 10, 13, 0, 6, 9, 8, 7, 4, 15, 14, 3, 11, 5, 2, 12]],
    #v[#v[7, 13, 14, 3, 0, 6, 9, 10, 1, 2, 8, 5, 11, 12, 4, 15],
      #v[13, 8, 11, 5, 6, 15, 0, 3, 4, 7, 2, 12, 1, 10, 14, 9],
      #v[10, 6, 9, 0, 12, 11, 7, 13, 15, 1, 3, 14, 5, 2, 8, 4],
      #v[3, 15, 0, 6, 10, 1, 13, 8, 9, 4, 5, 11, 12, 7, 2, 14]],
    #v[#v[2, 12, 4, 1, 7, 10, 11, 6, 8, 5, 3, 15, 13, 0, 14, 9],
      #v[14, 11, 2, 12, 4, 7, 13, 1, 5, 0, 15, 10, 3, 9, 8, 6],
      #v[4, 2, 1, 11, 10, 13, 7, 8, 15, 9, 12, 5, 6, 3, 0, 14],
      #v[11, 8, 12, 7, 1, 14, 2, 13, 6, 15, 0, 9, 10, 4, 5, 3]],
    #v[#v[12, 1, 10, 15, 9, 2, 6, 8, 0, 13, 3, 4, 14, 7, 5, 11],
      #v[10, 15, 4, 2, 7, 12, 9, 5, 6, 1, 13, 14, 0, 11, 3, 8],
      #v[9, 14, 15, 5, 2, 8, 12, 3, 7, 0, 4, 10, 1, 13, 11, 6],
      #v[4, 3, 2, 12, 9, 5, 15, 10, 11, 14, 1, 7, 6, 0, 8, 13]],
    #v[#v[4, 11, 2, 14, 15, 0, 8, 13, 3, 12, 9, 7, 5, 10, 6, 1],
      #v[13, 0, 11, 7, 4, 9, 1, 10, 14, 3, 5, 12, 2, 15, 8, 6],
      #v[1, 4, 11, 13, 12, 3, 7, 14, 10, 15, 6, 8, 0, 5, 9, 2],
      #v[6, 11, 13, 8, 1, 4, 10, 7, 9, 5, 0, 15, 14, 2, 3, 12]],
    #v[#v[13, 2, 8, 4, 6, 15, 11, 1, 10, 9, 3, 14, 5, 0, 12, 7],
      #v[1, 15, 13, 8, 10, 3, 7, 4, 12, 5, 6, 11, 0, 14, 9, 2],
      #v[7, 11, 4, 1, 9, 12, 14, 2, 0, 6, 10, 13, 15, 3, 5, 8],
      #v[2, 1, 14, 7, 4, 10, 8, 13, 15, 12, 9, 0, 3, 5, 6, 11]]]

def byteToBit (ch : ElemType) : Vector ElemType 8 :=
  Vector.ofFn fun cnt => ((promote ch).sshiftRight cnt &&& 1).setWidth 8

def bitToByte (bit : Vector ElemType 8) (ch : ElemType) : ElemType :=
  loop 8 (fun cnt ch => (promote ch ||| promote (bit.get cnt) <<< cnt.val).setWidth 8) ch

def char8ToBit64 (ch : Vector ElemType 8) : Vector ElemType 64 :=
  Vector.ofFn fun i => (byteToBit (ch.get ⟨i / 8, div_eight_lt i⟩)).get ⟨i % 8, by omega⟩

def bit64ToChar8 (bit : Vector ElemType 64) : Vector ElemType 8 :=
  Vector.ofFn fun cnt => bitToByte (slice bit (8 * cnt) 8 (by omega)) 0

def desPc1Transform (key : Vector ElemType 64) : Vector ElemType 56 :=
  Vector.ofFn fun cnt => key.get (pc1.get cnt)

def desPc2Transform (key : Vector ElemType 56) : Vector ElemType 48 :=
  Vector.ofFn fun cnt => key.get (pc2.get cnt)

/-- The copies inside `data` overlap; they are read as copies of the old cells. -/
def desRol (data : Vector ElemType 56) (time : Fin 29) : Vector ElemType 56 :=
  let temp := slice data 0 time (by omega) ++ slice data 28 time (by omega)
  let data := copy data 0 (slice data time (28 - time) (by omega))
  let data := copy data (28 - time) (slice temp 0 time (by omega))
  let data := copy data 28 (slice data (28 + time) (28 - time) (by omega))
  copy data (56 - time) (slice temp time time (by omega))

def desMakeSubKeys (key : Vector ElemType 64) (subKeys : Vector (Vector ElemType 48) 16) :
    Vector (Vector ElemType 48) 16 :=
  (loop 16 (fun cnt s =>
    let temp := desRol s.1 (moveTimes.get cnt)
    (temp, s.2.set cnt (desPc2Transform temp))) (desPc1Transform key, subKeys)).2

def desIpTransform (data : Vector ElemType 64) : Vector ElemType 64 :=
  Vector.ofFn fun cnt => data.get (ipTable.get cnt)

def desIp1Transform (data : Vector ElemType 64) : Vector ElemType 64 :=
  Vector.ofFn fun cnt => data.get (ip1Table.get cnt)

def desETransform (data : Vector ElemType 32) : Vector ElemType 48 :=
  Vector.ofFn fun cnt => data.get (eTable.get cnt)

def desPTransform (data : Vector ElemType 32) : Vector ElemType 32 :=
  Vector.ofFn fun cnt => data.get (pTable.get cnt)

def desXor {n count : ℕ} (r : Vector ElemType n) (l : Vector ElemType count) :
    Vector ElemType n :=
  Vector.ofFn fun cnt => if h : cnt < count then r.get cnt ^^^ l.get ⟨cnt, h⟩ else r.get cnt

def sboxOutput (cnt : Fin 8) (line row : BitVec 32) : Option (BitVec 32) :=
  if h : line.toNat < 4 ∧ row.toNat < 16 then
    some (((sTable.get cnt).get ⟨line.toNat, h.1⟩).get ⟨row.toNat, h.2⟩)
  else none

def outputBits (output : BitVec 32) : Vector ElemType 4 :=
  #v[((output &&& 0x08) >>> 3).setWidth 8, ((output &&& 0x04) >>> 2).setWidth 8,
    ((output &&& 0x02) >>> 1).setWidth 8, (output &&& 0x01).setWidth 8]

/-- Line and row are read from the six cells `data[cur1]` to `data[cur1 + 5]`. -/
def sboxAddress (cell : Fin 6 → ElemType) : BitVec 32 × BitVec 32 :=
  ((promote (cell 0) <<< 1) + promote (cell 5),
    (promote (cell 1) <<< 3) + (promote (cell 2) <<< 2) + (promote (cell 3) <<< 1) +
      promote (cell 4))

def sboxStep (cnt : Fin 8) (data : Vector ElemType 48) : Option (Vector ElemType 48) := do
  let address := sboxAddress fun i => data.get ⟨6 * cnt + i, by omega⟩
  let output ← sboxOutput cnt address.1 address.2
  return copy data (4 * cnt) (outputBits output)

def desSbox : Vector ElemType 48 → Option (Vector ElemType 48) := loopM 8 sboxStep

def desSwap (data : Vector ElemType 64) : Vector ElemType 64 :=
  let temp := slice data 0 32 (by omega)
  let data := copy data 0 (slice data 32 32 (by omega))
  copy data 32 temp

/-- The statements the two block loops share: the left half is combined with the right half
taken through `E`, the subkey, the S-boxes and `P`. -/
def desMix (bits : Vector ElemType 64) (subKey : Vector ElemType 48) :
    Option (Vector ElemType 64) := do
  let copyRight := desETransform (slice bits 32 32 (by omega))
  let copyRight := desXor copyRight subKey
  let copyRight ← desSbox copyRight
  let copyRight := desPTransform (slice copyRight 0 32 (by omega))
  return desXor bits copyRight

def desEncryptBlock (plainBlock : Vector ElemType 8) (subKeys : Vector (Vector ElemType 48) 16) :
    Option (Vector ElemType 8) := do
  let plainBits := desIpTransform (char8ToBit64 plainBlock)
  let plainBits ← loopM 16 (fun cnt bits => do
    let bits ← desMix bits (subKeys.get cnt)
    return if cnt.val ≠ 15 then desSwap bits else bits) plainBits
  return bit64ToChar8 (desIp1Transform plainBits)

/-- The loop of `DES_DecryptBlock` counts from 15 down to 0. -/
def desDecryptBlock (cipherBlock : Vector ElemType 8) (subKeys : Vector (Vector ElemType 48) 16) :
    Option (Vector ElemType 8) := do
  let cipherBits := desIpTransform (char8ToBit64 cipherBlock)
  let cipherBits ← loopM 16 (fun i bits => do
    let cnt := i.rev
    let bits ← desMix bits (subKeys.get cnt)
    return if cnt.val ≠ 0 then desSwap bits else bits) cipherBits
  return bit64ToChar8 (desIp1Transform cipherBits)

end Hatch.Des
