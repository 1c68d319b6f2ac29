import Hatch.CountedLoop
import Hatch.FixedArray
import Hatch.Java

/-!
# The block functions of `Sm4.java`

A `byte` is extended with its sign where the source uses it as an `int`. The key expansion
and the cipher keep four words in an array that each round updates in place, four rounds per
iteration. Keys and blocks are arrays of 16 bytes, and arrays whose length varies are lists.
-/

namespace Hatch.Sm4

open CountedLoop FixedArray Java

set_option maxRecDepth 2000 in
def sbox : Vector Byte 256 :=
  #v[0xd6, 0x90, 0xe9, 0xfe, 0xcc, 0xe1, 0x3d, 0xb7, 0x16, 0xb6, 0x14, 0xc2, 0x28, 0xfb,
    0x2c, 0x05, 0x2b, 0x67, 0x9a, 0x76, 0x2a, 0xbe, 0x04, 0xc3, 0xaa, 0x44, 0x13, 0x26,
    0x49, 0x86, 0x06, 0x99, 0x9c, 0x42, 0x50, 0xf4, 0x91, 0xef, 0x98, 0x7a, 0x33, 0x54,
    0x0b, 0x43, 0xed, 0xcf, 0xac, 0x62, 0xe4, 0xb3, 0x1c, 0xa9, 0xc9, 0x08, 0xe8, 0x95,
    0x80, 0xdf, 0x94, 0xfa, 0x75, 0x8f, 0x3f, 0xa6, 0x47, 0x07, 0xa7, 0xfc, 0xf3, 0x73,
    0x17, 0xba, 0x83, 0x59, 0x3c, 0x19, 0xe6, 0x85, 0x4f, 0xa8, 0x68, 0x6b, 0x81, 0xb2,
    0x71, 0x64, 0xda, 0x8b, 0xf8, 0xeb, 0x0f, 0x4b, 0x70, 0x56, 0x9d, 0x35, 0x1e, 0x24,
    0x0e, 0x5e, 0x63, 0x58, 0xd1, 0xa2, 0x25, 0x22, 0x7c, 0x3b, 0x01, 0x21, 0x78, 0x87,
    0xd4, 0x00, 0x46, 0x57, 0x9f, 0xd3, 0x27, 0x52, 0x4c, 0x36, 0x02, 0xe7, 0xa0, 0xc4,
    0xc8, 0x9e, 0xea, 0xbf, 0x8a, 0xd2, 0x40, 0xc7, 0x38, 0xb5, 0xa3, 0xf7, 0xf2, 0xce,
    0xf9, 0x61, 0x15, 0xa1, 0xe0, 0xae, 0x5d, 0xa4, 0x9b, 0x34, 0x1a, 0x55, 0xad, 0x93,
    0x32, 0x30, 0xf5, 0x8c, 0xb1, 0xe3, 0x1d, 0xf6, 0xe2, 0x2e, 0x82, 0x66, 0xca, 0x60,
    0xc0, 0x29, 0x23, 0xab, 0x0d, 0x53, 0x4e, 0x6f, 0xd5, 0xdb, 0x37, 0x45, 0xde, 0xfd,
    0x8e, 0x2f, 0x03, 0xff, 0x6a, 0x72, 0x6d, 0x6c, 0x5b, 0x51, 0x8d, 0x1b, 0xaf, 0x92,
    0xbb, 0xdd, 0xbc, 0x7f, 0x11, 0xd9, 0x5c, 0x41, 0x1f, 0x10, 0x5a, 0xd8, 0x0a, 0xc1,
    0x31, 0x88, 0xa5, 0xcd, 0x7b, 0xbd, 0x2d, 0x74, 0xd0, 0x12, 0xb8, 0xe5, 0xb4, 0xb0,
    0x89, 0x69, 0x97, 0x4a, 0x0c, 0x96, 0x77, 0x7e, 0x65, 0xb9, 0xf1, 0x09, 0xc5, 0x6e,
    0xc6, 0x84, 0x18, 0xf0, 0x7d, 0xec, 0x3a, 0xdc, 0x4d, 0x20, 0x79, 0xee, 0x5f, 0x3e,
    0xd7, 0xcb, 0x39, 0x48]

def ck : Vector (BitVec 32) 32 :=
  #v[0x00070e15, 0x1c232a31, 0x383f464d, 0x545b6269, 0x70777e85, 0x8c939aa1,
    0xa8afb6bd, 0xc4cbd2d9, 0xe0e7eef5, 0xfc030a11, 0x181f262d, 0x343b4249,
    0x50575e65, 0x6c737a81, 0x888f969d, 0xa4abb2b9, 0xc0c7ced5, 0xdce3eaf1,
    0xf8ff060d, 0x141b2229, 0x30373e45, 0x4c535a61, 0x686f767d, 0x848b9299,
    0xa0a7aeb5, 0xbcc3cad1, 0xd8dfe6ed, 0xf4fb0209, 0x10171e25, 0x2c333a41,
    0x484f565d, 0x646b7279]

def encryptFlag : BitVec 32 := 1

def decryptFlag : BitVec 32 := 0

def rotl (x : BitVec 32) (y : ℕ) : BitVec 32 := x <<< y ||| x >>> (32 - y)

def index (a : BitVec 32) : Fin 256 :=
  ⟨(a &&& 0xFF).toNat, by
    rw [BitVec.toNat_and]
    exact Nat.lt_of_le_of_lt Nat.and_le_right (by decide)⟩

def byteSub (a : BitVec 32) : BitVec 32 :=
  unsigned (sbox.get (index (a >>> 24))) <<< 24 |||
    unsigned (sbox.get (index (a >>> 16))) <<< 16 |||
    unsigned (sbox.get (index (a >>> 8))) <<< 8 ||| unsigned (sbox.get (index a))

def l1 (b : BitVec 32) : BitVec 32 := b ^^^ rotl b 2 ^^^ rotl b 10 ^^^ rotl b 18 ^^^ rotl b 24

def l2 (b : BitVec 32) : BitVec 32 := b ^^^ rotl b 13 ^^^ rotl b 23

/-- The four words of 16 bytes, as `SMS4Crypt` and `SMS4KeyExt` read them. -/
def loadWords (input : Vector Byte 16) : Vector (BitVec 32) 4 :=
  Vector.ofFn fun i =>
    unsigned (input.get ⟨4 * i, by omega⟩) <<< 24 |||
      unsigned (input.get ⟨4 * i + 1, by omega⟩) <<< 16 |||
      unsigned (input.get ⟨4 * i + 2, by omega⟩) <<< 8 |||
      unsigned (input.get ⟨4 * i + 3, by omega⟩)

/-- One of the four updates of an iteration, `x[j] ^= l(ByteSub(x[j+1] ^ x[j+2] ^ x[j+3] ^ c))`
with indices modulo 4. -/
def updateWord (l : BitVec 32 → BitVec 32) (c : BitVec 32) (j : Fin 4) (x : Vector (BitVec 32) 4) :
    Vector (BitVec 32) 4 :=
  x.set j (x.get j ^^^ l (byteSub (x.get (j + 1) ^^^ x.get (j + 2) ^^^ x.get (j + 3) ^^^ c)))

def cryptRounds (rk : Vector (BitVec 32) 32) (i : Fin 8) (x : Vector (BitVec 32) 4) :
    Vector (BitVec 32) 4 :=
  let x := updateWord l1 (rk.get ⟨4 * i, by omega⟩) 0 x
  let x := updateWord l1 (rk.get ⟨4 * i + 1, by omega⟩) 1 x
  let x := updateWord l1 (rk.get ⟨4 * i + 2, by omega⟩) 2 x
  updateWord l1 (rk.get ⟨4 * i + 3, by omega⟩) 3 x

/-- `SMS4Crypt`, whose output is the four words in reverse order. -/
def sms4Crypt (input : Vector Byte 16) (rk : Vector (BitVec 32) 32) : Vector Byte 16 :=
  let x := loop 8 (cryptRounds rk) (loadWords input)
  Vector.ofFn fun j =>
    (x.get ⟨3 - j / 4, by omega⟩ >>> (24 - 8 * (j.val % 4)) &&& 0xFF).setWidth 8

def expandWord (n : Fin 32) (j : Fin 4) (s : Vector (BitVec 32) 4 × Vector (BitVec 32) 32) :
    Vector (BitVec 32) 4 × Vector (BitVec 32) 32 :=
  let x := updateWord l2 (ck.get n) j s.1
  (x, s.2.set n (x.get j))

def expandRounds (i : Fin 8) (s : Vector (BitVec 32) 4 × Vector (BitVec 32) 32) :
    Vector (BitVec 32) 4 × Vector (BitVec 32) 32 :=
  let s := expandWord ⟨4 * i, by omega⟩ 0 s
  let s := expandWord ⟨4 * i + 1, by omega⟩ 1 s
  let s := expandWord ⟨4 * i + 2, by omega⟩ 2 s
  expandWord ⟨4 * i + 3, by omega⟩ 3 s

def exchange (r : Fin 16) (rk : Vector (BitVec 32) 32) : Vector (BitVec 32) 32 :=
  let mid := rk.get ⟨r, by omega⟩
  let rk := rk.set r (rk.get ⟨31 - r, by omega⟩)
  rk.set (31 - r) mid

def sms4KeyExt (key : Vector Byte 16) (rk : Vector (BitVec 32) 32) (cryptFlag : BitVec 32) :
    Vector (BitVec 32) 32 :=
  let x := Vector.zipWith (· ^^^ ·) (loadWords key)
    #v[0xa3b1bac6, 0x56aa3350, 0x677d9197, 0xb27022dc]
  let rk := (loop 8 expandRounds (x, rk)).2
  if cryptFlag = decryptFlag then loop 16 exchange rk else rk

def copyOfRange (original : List Byte) (start n : ℕ) : Except Throwable (Vector Byte n) :=
  if start ≤ original.length then .ok (Vector.ofFn fun i => original[start + i]?.getD 0)
  else .error .indexOutOfBounds

def arraycopy (src : List Byte) (srcPos : ℕ) (dest : List Byte) (destPos length : ℕ) :
    Except Throwable (List Byte) :=
  if srcPos + length ≤ src.length ∧ destPos + length ≤ dest.length then
    .ok (dest.take destPos ++ (src.drop srcPos).take length ++ dest.drop (destPos + length))
  else .error .indexOutOfBounds

def sms4Loop (input : List Byte) (rk : Vector (BitVec 32) 32) (inLen point : ℕ) (out : List Byte) :
    Except Throwable (List Byte) :=
  if 16 ≤ inLen then do
    let cell ← copyOfRange input point 16
    let out ← arraycopy (sms4Crypt cell rk).toList 0 out point 16
    sms4Loop input rk (inLen - 16) (point + 16) out
  else .ok out
termination_by inLen

/-- `sms4`, with the contents of `out` after it; the returned `int` is always 0. -/
def sms4 (input : List Byte) (inLen : ℕ) (key : Vector Byte 16) (out : List Byte)
    (cryptFlag : BitVec 32) : Except Throwable (List Byte) :=
  sms4Loop input (sms4KeyExt key (Vector.replicate 32 0) cryptFlag) inLen 0 out

def encode16 (plaintext : List Byte) (key : Vector Byte 16) : Except Throwable (List Byte) :=
  sms4 plaintext 16 key (List.replicate 16 0) encryptFlag

def decode16 (ciphertext : List Byte) (key : Vector Byte 16) : Except Throwable (List Byte) :=
  sms4 ciphertext 16 key (List.replicate 16 0) decryptFlag

/-- The loop `while (k + 16 <= length)` that `encodeSMS4` and `decodeSMS4` share. The sum is
an `int` and may wrap; the copy that follows then throws. -/
def blockwise (crypt16 : List Byte → Except Throwable (List Byte)) (input : List Byte) (k : ℕ)
    (out : List Byte) : Except Throwable (List Byte) :=
  if (BitVec.ofNat 32 (k + 16)).toInt ≤ input.length then
    if k + 16 ≤ input.length then do
      let cell ← arraycopy input k (List.replicate 16 0) 0 16
      let result ← crypt16 cell
      let out ← arraycopy result 0 out k result.length
      blockwise crypt16 input (k + 16) out
    else .error .indexOutOfBounds
  else .ok out
termination_by input.length - k

def encodeSMS4 (plaintext : List Byte) (key : Vector Byte 16) : Except Throwable (List Byte) :=
  blockwise (encode16 · key) plaintext 0 (List.replicate plaintext.length 0)

def decodeSMS4 (ciphertext : List Byte) (key : Vector Byte 16) : Except Throwable (List Byte) :=
  blockwise (decode16 · key) ciphertext 0 (List.replicate ciphertext.length 0)

end Hatch.Sm4
