import Hatch.Java

/-!
# The hexadecimal methods of `Convert.java`

Three encoders write two digits per byte: `byteToHex` pads a short number, `getHexString` cuts
the first of three digits off, `encodeHexString` looks the digits up. `hexStringToBytes` reads
pairs of characters through `indexOf`, where a character that is no digit counts as -1,
`hexToByte` through `Integer.parseInt`, which also takes a sign, and `decodeHex` through
`Character.digit`.
-/

namespace Hatch.Convert

open Java

def hexPair (b : Byte) : Str :=
  let stmp := toHexString (unsigned b)
  if stmp.length = 1 then 0x30 :: stmp else stmp

/-- `byteToHex`, where `none` is the null reference. -/
def byteToHex (p : Platform) : Option (List Byte) → Except Throwable Str
  | none => .error .illegalArgument
  | some b => do
      let hs ← alloc (b.flatMap hexPair)
      return p.toUpperCase hs

def hexDigits : Str :=
  literal ['0', '1', '2', '3', '4', '5', '6', '7', '8', '9', 'A', 'B', 'C', 'D', 'E', 'F']

/-- `charToByte`, the index in "0123456789ABCDEF". -/
def charToByte (c : Char16) : Byte :=
  match hexDigits.idxOf? c with
  | some i => BitVec.ofNat 8 i
  | none => -1

/-- `(byte) (charToByte(high) << 4 | charToByte(low))`. -/
def pairToByte (high low : Char16) : Byte :=
  ((charToByte high).signExtend 32 <<< 4 ||| (charToByte low).signExtend 32).setWidth 8

/-- The bytes of the pairs of characters; a last single character is not read. -/
def pairsToBytes : Str → List Byte
  | high :: low :: rest => pairToByte high low :: pairsToBytes rest
  | _ => []

def hexStringToBytes (p : Platform) : Option Str → Option (List Byte)
  | none => none
  | some [] => none
  | some hexString => some (pairsToBytes (p.toUpperCase hexString))

def getHexString (p : Platform) (bytes : List Byte) (upperCase : Bool) : Except Throwable Str := do
  let digits ← bytes.mapM fun b => substring (toString16 (unsigned b + 0x100)) 1
  let ret ← alloc digits.flatten
  return if upperCase then p.toUpperCase ret else ret

def digitsLower : Str :=
  literal ['0', '1', '2', '3', '4', '5', '6', '7', '8', '9', 'a', 'b', 'c', 'd', 'e', 'f']

def digitsUpper : Str :=
  literal ['0', '1', '2', '3', '4', '5', '6', '7', '8', '9', 'A', 'B', 'C', 'D', 'E', 'F']

def digitAt (toDigits : Str) (i : BitVec 32) : Except Throwable Char16 :=
  match toDigits[i.toNat]? with
  | some c => .ok c
  | none => .error .indexOutOfBounds

def encodePairs (toDigits : Str) : List Byte → Except Throwable Str
  | [] => .ok []
  | b :: data => do
      let high ← digitAt toDigits ((0xF0 &&& b.signExtend 32) >>> 4)
      let low ← digitAt toDigits (0x0F &&& b.signExtend 32)
      let out ← encodePairs toDigits data
      return high :: low :: out

/-- The size `l << 1` of the array of characters is an `int`. -/
def encodeHex (data : List Byte) (toDigits : Str) : Except Throwable Str :=
  if (BitVec.ofNat 32 data.length <<< 1).toInt < 0 then .error .negativeArraySize
  else encodePairs toDigits data

def encodeHexString (data : List Byte) (toLowerCase : Bool) : Except Throwable Str :=
  encodeHex data (if toLowerCase then digitsLower else digitsUpper)

def parsePairs (p : Platform) : Str → Except Throwable (List Byte)
  | c0 :: c1 :: rest => do
      let value ← parseInt p [c0, c1]
      let b ← parsePairs p rest
      return (BitVec.ofInt 32 value &&& 0xFF).setWidth 8 :: b
  | _ => .ok []

def hexToByte (p : Platform) (hex : Str) : Except Throwable (List Byte) :=
  if hex.length % 2 ≠ 0 then .error .illegalArgument else parsePairs p hex

def toDigit (p : Platform) (ch : Char16) (index : ℕ) : Except Throwable (BitVec 32) :=
  match p.digit ch with
  | some digit => .ok (BitVec.ofNat 32 digit)
  | none => .error (.runtime (literal "Illegal hexadecimal character ".toList ++ ch ::
      literal " at index ".toList ++ decimal index))

def decodePairs (p : Platform) (j : ℕ) : Str → Except Throwable (List Byte)
  | high :: low :: rest => do
      let f ← toDigit p high j
      let g ← toDigit p low (j + 1)
      let out ← decodePairs p (j + 2) rest
      return ((f <<< 4 ||| g) &&& 0xFF).setWidth 8 :: out
  | _ => .ok []

def decodeHex (p : Platform) (data : Str) : Except Throwable (List Byte) :=
  if data.length % 2 ≠ 0 then .error (.runtime (literal "Odd number of characters.".toList))
  else decodePairs p 0 data

end Hatch.Convert
