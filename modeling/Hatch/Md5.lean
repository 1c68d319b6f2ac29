import Hatch.CountedLoop
import Hatch.FixedArray

/-!
# The functions of `md5.cpp`

`unsigned int` is a bit vector of 32 bits, so that every sum wraps as in the source. A
context holds the bit count in two words, the chaining state and a buffer of 64 bytes of
which `MD5Init` leaves the contents as they are. `MD5Update` stops where it would read
beyond its input or write beyond the buffer.
-/

namespace Hatch.Md5

open CountedLoop FixedArray

/-- What keeps a call from returning: a read beyond the input, a write beyond the buffer, or
a loop that is still running. -/
inductive Stop where
  | overread
  | overflow
  | running
  deriving DecidableEq, Repr

structure Ctx where
  count : Vector (BitVec 32) 2
  state : Vector (BitVec 32) 4
  buffer : Vector (BitVec 8) 64
  deriving DecidableEq, Repr

def padding : List (BitVec 8) := 0x80 :: List.replicate 63 0

def md5Init (context : Ctx) : Ctx :=
  { context with
    count := #v[0, 0]
    state := #v[0x67452301, 0xEFCDAB89, 0x98BADCFE, 0x10325476] }

/-- `MD5Encode` of an array of `n` words, for which its `len` is `4 * n`. -/
def md5Encode {n : ℕ} (input : Vector (BitVec 32) n) : Vector (BitVec 8) (4 * n) :=
  Vector.ofFn fun j =>
    ((input.get ⟨j / 4, by omega⟩ >>> (8 * (j.val % 4))) &&& 0xFF).setWidth 8

/-- `MD5Decode` of 64 bytes; the words of `x` behind the sixteenth are never used. -/
def md5Decode (input : Vector (BitVec 8) 64) : Vector (BitVec 32) 16 :=
  Vector.ofFn fun i =>
    (input.get ⟨4 * i, by omega⟩).setWidth 32 |||
      (input.get ⟨4 * i + 1, by omega⟩).setWidth 32 <<< 8 |||
      (input.get ⟨4 * i + 2, by omega⟩).setWidth 32 <<< 16 |||
      (input.get ⟨4 * i + 3, by omega⟩).setWidth 32 <<< 24

def rotateLeft (x : BitVec 32) (n : ℕ) : BitVec 32 := (x <<< n) ||| (x >>> (32 - n))

def F (x y z : BitVec 32) : BitVec 32 := (x &&& y) ||| (~~~x &&& z)

def G (x y z : BitVec 32) : BitVec 32 := (x &&& z) ||| (y &&& ~~~z)

def H (x y z : BitVec 32) : BitVec 32 := x ^^^ y ^^^ z

def I (x y z : BitVec 32) : BitVec 32 := y ^^^ (x ||| ~~~z)

def mix (f : BitVec 32 → BitVec 32 → BitVec 32 → BitVec 32) (a b c d x : BitVec 32) (s : ℕ)
    (ac : BitVec 32) : BitVec 32 :=
  rotateLeft (a + (f b c d + x + ac)) s + b

def FF := mix F

def GG := mix G

def HH := mix H

def II := mix I

inductive Round where
  | FF
  | GG
  | HH
  | II
  deriving DecidableEq, Repr

def Round.body : Round → BitVec 32 → BitVec 32 → BitVec 32 → BitVec 32 → BitVec 32 → ℕ →
    BitVec 32 → BitVec 32
  | .FF => Md5.FF
  | .GG => Md5.GG
  | .HH => Md5.HH
  | .II => Md5.II

/-- A use of one of the four macros: the registers in the order of its arguments, the index
of its word, its shift and its constant. -/
structure Call where
  round : Round
  a : Fin 4
  b : Fin 4
  c : Fin 4
  d : Fin 4
  x : Fin 16
  s : ℕ
  ac : BitVec 32
  deriving DecidableEq, Repr

def Call.run (call : Call) (x : Vector (BitVec 32) 16) (regs : Vector (BitVec 32) 4) :
    Vector (BitVec 32) 4 :=
  regs.set call.a (call.round.body (regs.get call.a) (regs.get call.b) (regs.get call.c)
    (regs.get call.d) (x.get call.x) call.s call.ac)

namespace Register

abbrev a : Fin 4 := 0

abbrev b : Fin 4 := 1

abbrev c : Fin 4 := 2

abbrev d : Fin 4 := 3

end Register

open Register in
def calls : Vector Call 64 :=
  #v[
    ⟨.FF, a, b, c, d, 0, 7, 0xd76aa478⟩,
    ⟨.FF, d, a, b, c, 1, 12, 0xe8c7b756⟩,
    ⟨.FF, c, d, a, b, 2, 17, 0x242070db⟩,
    ⟨.FF, b, c, d, a, 3, 22, 0xc1bdceee⟩,
    ⟨.FF, a, b, c, d, 4, 7, 0xf57c0faf⟩,
    ⟨.FF, d, a, b, c, 5, 12, 0x4787c62a⟩,
    ⟨.FF, c, d, a, b, 6, 17, 0xa8304613⟩,
    ⟨.FF, b, c, d, a, 7, 22, 0xfd469501⟩,
    ⟨.FF, a, b, c, d, 8, 7, 0x698098d8⟩,
    ⟨.FF, d, a, b, c, 9, 12, 0x8b44f7af⟩,
    ⟨.FF, c, d, a, b, 10, 17, 0xffff5bb1⟩,
    ⟨.FF, b, c, d, a, 11, 22, 0x895cd7be⟩,
    ⟨.FF, a, b, c, d, 12, 7, 0x6b901122⟩,
    ⟨.FF, d, a, b, c, 13, 12, 0xfd987193⟩,
    ⟨.FF, c, d, a, b, 14, 17, 0xa679438e⟩,
    ⟨.FF, b, c, d, a, 15, 22, 0x49b40821⟩,
    ⟨.GG, a, b, c, d, 1, 5, 0xf61e2562⟩,
    ⟨.GG, d, a, b, c, 6, 9, 0xc040b340⟩,
    ⟨.GG, c, d, a, b, 11, 14, 0x265e5a51⟩,
    ⟨.GG, b, c, d, a, 0, 20, 0xe9b6c7aa⟩,
    ⟨.GG, a, b, c, d, 5, 5, 0xd62f105d⟩,
    ⟨.GG, d, a, b, c, 10, 9, 0x2441453⟩,
    ⟨.GG, c, d, a, b, 15, 14, 0xd8a1e681⟩,
    ⟨.GG, b, c, d, a, 4, 20, 0xe7d3fbc8⟩,
    ⟨.GG, a, b, c, d, 9, 5, 0x21e1cde6⟩,
    ⟨.GG, d, a, b, c, 14, 9, 0xc33707d6⟩,
    ⟨.GG, c, d, a, b, 3, 14, 0xf4d50d87⟩,
    ⟨.GG, b, c, d, a, 8, 20, 0x455a14ed⟩,
    ⟨.GG, a, b, c, d, 13, 5, 0xa9e3e905⟩,
    ⟨.GG, d, a, b, c, 2, 9, 0xfcefa3f8⟩,
    ⟨.GG, c, d, a, b, 7, 14, 0x676f02d9⟩,
    ⟨.GG, b, c, d, a, 12, 20, 0x8d2a4c8a⟩,
    ⟨.HH, a, b, c, d, 5, 4, 0xfffa3942⟩,
    ⟨.HH, d, a, b, c, 8, 11, 0x8771f681⟩,
    ⟨.HH, c, d, a, b, 11, 16, 0x6d9d6122⟩,
    ⟨.HH, b, c, d, a, 14, 23, 0xfde5380c⟩,
    ⟨.HH, a, b, c, d, 1, 4, 0xa4beea44⟩,
    ⟨.HH, d, a, b, c, 4, 11, 0x4bdecfa9⟩,
    ⟨.HH, c, d, a, b, 7, 16, 0xf6bb4b60⟩,
    ⟨.HH, b, c, d, a, 10, 23, 0xbebfbc70⟩,
    ⟨.HH, a, b, c, d, 13, 4, 0x289b7ec6⟩,
    ⟨.HH, d, a, b, c, 0, 11, 0xeaa127fa⟩,
    ⟨.HH, c, d, a, b, 3, 16, 0xd4ef3085⟩,
    ⟨.HH, b, c, d, a, 6, 23, 0x4881d05⟩,
    ⟨.HH, a, b, c, d, 9, 4, 0xd9d4d039⟩,
    ⟨.HH, d, a, b, c, 12, 11, 0xe6db99e5⟩,
    ⟨.HH, c, d, a, b, 15, 16, 0x1fa27cf8⟩,
    ⟨.HH, b, c, d, a, 2, 23, 0xc4ac5665⟩,
    ⟨.II, a, b, c, d, 0, 6, 0xf4292244⟩,
    ⟨.II, d, a, b, c, 7, 10, 0x432aff97⟩,
    ⟨.II, c, d, a, b, 14, 15, 0xab9423a7⟩,
    ⟨.II, b, c, d, a, 5, 21, 0xfc93a039⟩,
    ⟨.II, a, b, c, d, 12, 6, 0x655b59c3⟩,
    ⟨.II, d, a, b, c, 3, 10, 0x8f0ccc92⟩,
    ⟨.II, c, d, a, b, 10, 15, 0xffeff47d⟩,
    ⟨.II, b, c, d, a, 1, 21, 0x85845dd1⟩,
    ⟨.II, a, b, c, d, 8, 6, 0x6fa87e4f⟩,
    ⟨.II, d, a, b, c, 15, 10, 0xfe2ce6e0⟩,
    ⟨.II, c, d, a, b, 6, 15, 0xa3014314⟩,
    ⟨.II, b, c, d, a, 13, 21, 0x4e0811a1⟩,
    ⟨.II, a, b, c, d, 4, 6, 0xf7537e82⟩,
    ⟨.II, d, a, b, c, 11, 10, 0xbd3af235⟩,
    ⟨.II, c, d, a, b, 2, 15, 0x2ad7d2bb⟩,
    ⟨.II, b, c, d, a, 9, 21, 0xeb86d391⟩]

def md5Transform (state : Vector (BitVec 32) 4) (block : Vector (BitVec 8) 64) :
    Vector (BitVec 32) 4 :=
  Vector.zipWith (· + ·) state (loop 64 (fun i => (calls.get i).run (md5Decode block)) state)

/-- The block of 64 bytes at `&input[i]`. -/
def readBlock (input : List (BitVec 8)) (i : ℕ) : Except Stop (Vector (BitVec 8) 64) :=
  if h : i + 64 ≤ input.length then .ok ⟨((input.drop i).take 64).toArray, by simp; omega⟩
  else .error .overread

/-- `memcpy(&buffer[index], &input[i], n)`. -/
def copyIn (buffer : Vector (BitVec 8) 64) (index : ℕ) (input : List (BitVec 8)) (i n : ℕ) :
    Except Stop (Vector (BitVec 8) 64) :=
  if hr : i + n ≤ input.length then
    if hw : index + n ≤ 64 then
      .ok ⟨(buffer.toList.take index ++ (input.drop i).take n ++
        buffer.toList.drop (index + n)).toArray, by simp; omega⟩
    else .error .overflow
  else .error .overread

/-- The loop `for (i = partlen; i + 64 <= inputlen; i += 64)`, stopped after `fuel`
iterations. -/
def blockLoop (input : List (BitVec 8)) (inputlen : BitVec 32) :
    ℕ → BitVec 32 → Vector (BitVec 32) 4 → Except Stop (BitVec 32 × Vector (BitVec 32) 4)
  | 0, _, _ => .error .running
  | fuel + 1, i, state =>
      if i + 64 ≤ inputlen then do
        let block ← readBlock input i.toNat
        blockLoop input inputlen fuel (i + 64) (md5Transform state block)
      else .ok (i, state)

def bufferIndex (context : Ctx) : BitVec 32 := (context.count.get 0 >>> 3) &&& 0x3F

theorem bufferIndex_lt (context : Ctx) : (bufferIndex context).toNat < 64 := by
  rw [bufferIndex, BitVec.toNat_and]
  exact Nat.lt_of_le_of_lt Nat.and_le_right (by decide)

theorem toNat_sub_bufferIndex (context : Ctx) :
    (64 - bufferIndex context).toNat = 64 - (bufferIndex context).toNat := by
  have hindex := bufferIndex_lt context
  rw [BitVec.toNat_sub]
  simp
  omega

def addCount (count : Vector (BitVec 32) 2) (inputlen : BitVec 32) : Vector (BitVec 32) 2 :=
  let low := count.get 0 + inputlen <<< 3
  let high := if low < inputlen <<< 3 then count.get 1 + 1 else count.get 1
  #v[low, high + inputlen >>> 29]

/-- `MD5Update`, where `input` is the memory from the pointer on, which may be longer than
`inputlen`. -/
def md5Update (fuel : ℕ) (context : Ctx) (input : List (BitVec 8)) (inputlen : BitVec 32) :
    Except Stop Ctx := do
  let index := bufferIndex context
  let partlen := 64 - index
  let count := addCount context.count inputlen
  if partlen ≤ inputlen then
    let buffer ← copyIn context.buffer index.toNat input 0 partlen.toNat
    let (i, state) ← blockLoop input inputlen fuel partlen (md5Transform context.state buffer)
    let buffer ← copyIn buffer 0 input i.toNat (inputlen - i).toNat
    return ⟨count, state, buffer⟩
  else
    let buffer ← copyIn context.buffer index.toNat input 0 inputlen.toNat
    return ⟨count, context.state, buffer⟩

def md5Final (fuel : ℕ) (context : Ctx) : Except Stop (Ctx × Vector (BitVec 8) 16) := do
  let index := bufferIndex context
  let padlen := if index < 56 then 56 - index else 120 - index
  let bits := md5Encode context.count
  let context ← md5Update fuel context padding padlen
  let context ← md5Update fuel context bits.toList 8
  return (context, md5Encode context.state)

def md5Updates (fuel : ℕ) (context : Ctx) (chunks : List (List (BitVec 8))) : Except Stop Ctx :=
  chunks.foldlM (fun context chunk => md5Update fuel context chunk (BitVec.ofNat 32 chunk.length))
    context

def digest (fuel : ℕ) (context : Ctx) (chunks : List (List (BitVec 8))) :
    Except Stop (Vector (BitVec 8) 16) := do
  let context ← md5Updates fuel (md5Init context) chunks
  let r ← md5Final fuel context
  return r.2

end Hatch.Md5
