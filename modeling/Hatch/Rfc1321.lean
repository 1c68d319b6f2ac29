import Hatch.BitString
import Hatch.BlockStream
import Hatch.CountedLoop
import Hatch.FixedArray
import Hatch.SineTable

/-!
# The MD5 message digest

RFC 1321 for messages of whole bytes: padding to a multiple of 64 bytes with the bit length
modulo `2 ^ 64` in the last eight, the four rounds of sixteen operations on the buffer
`(A, B, C, D)`, and the digest with the low-order byte of `A` first. The constants are the
whole parts of `4294967296 * |sin i|` on the real numbers.
-/

namespace Rfc1321

open BitString BlockStream CountedLoop FixedArray

abbrev Byte := BitVec 8

abbrev Word := BitVec 32

structure Buffer where
  a : Word
  b : Word
  c : Word
  d : Word
  deriving DecidableEq

def initial : Buffer := ⟨0x67452301, 0xefcdab89, 0x98badcfe, 0x10325476⟩

def auxiliary (round : Fin 4) (x y z : Word) : Word :=
  match round with
  | 0 => (x &&& y) ||| (~~~x &&& z)
  | 1 => (x &&& z) ||| (y &&& ~~~z)
  | 2 => x ^^^ y ^^^ z
  | 3 => y ^^^ (x ||| ~~~z)

noncomputable def t (i : ℕ) : Word := BitVec.ofNat 32 ⌊4294967296 * |Real.sin i|⌋₊

def roundOf (i : Fin 64) : Fin 4 := ⟨i / 16, by omega⟩

def wordIndex (i : Fin 64) : Fin 16 :=
  match roundOf i with
  | 0 => Fin.ofNat 16 i
  | 1 => Fin.ofNat 16 (5 * i + 1)
  | 2 => Fin.ofNat 16 (3 * i + 5)
  | 3 => Fin.ofNat 16 (7 * i)

def rotations : Vector (Vector ℕ 4) 4 :=
  #v[#v[7, 12, 17, 22], #v[5, 9, 14, 20], #v[4, 11, 16, 23], #v[6, 10, 15, 21]]

def rotation (i : Fin 64) : ℕ := (rotations.get (roundOf i)).get (Fin.ofNat 4 i)

/-- Operation `i`, `a = b + ((a + f(b, c, d) + X[k] + T[i + 1]) <<< s)`, after which the
four words are named in the order `d`, `a`, `b`, `c`. -/
noncomputable def operation (x : Fin 16 → Word) (i : Fin 64) (s : Buffer) : Buffer :=
  ⟨s.d, s.b + (s.a + auxiliary (roundOf i) s.b s.c s.d + x (wordIndex i) +
    t (i + 1)).rotateLeft (rotation i), s.b, s.c⟩

def word (block : Vector Byte 64) (k : Fin 16) : Word :=
  let byte (j : Fin 4) : Byte := block.get ⟨4 * k + j, by omega⟩
  byte 3 ++ byte 2 ++ byte 1 ++ byte 0

noncomputable def process (s : Buffer) (block : Vector Byte 64) : Buffer :=
  let s' := loop 64 (operation (word block)) s
  ⟨s.a + s'.a, s.b + s'.b, s.c + s'.c, s.d + s'.d⟩

def lengthBytes (n : ℕ) : Vector Byte 8 :=
  Vector.ofFn fun j => (BitVec.ofNat 64 (8 * n)).extractLsb' (8 * j) 8

/-- A bit 1, then bits 0 until eight bytes are missing for a multiple of 64, then the length. -/
def padded (m : List Byte) : List Byte :=
  m ++ 0x80 :: List.replicate ((119 - m.length % 64) % 64) 0 ++ (lengthBytes m.length).toList

def output (s : Buffer) : Vector Byte 16 :=
  Vector.ofFn fun j : Fin 16 =>
    (#v[s.a, s.b, s.c, s.d].get ⟨j / 4, div_four_lt j⟩).extractLsb' (8 * (j % 4)) 8

noncomputable def md5 (m : List Byte) : Vector Byte 16 :=
  output ((blocks 64 (padded m)).foldl process initial)

end Rfc1321
