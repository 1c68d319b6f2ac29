import Mathlib.Algebra.GroupWithZero.Nat
import Mathlib.Data.List.DropRight
import Mathlib.Data.List.TakeWhile
import Mathlib.Data.Nat.Notation

/-!
# What the Java code uses of its platform

Bytes, characters and integers are bit vectors, arrays and strings are lists, and a method
returns a value or throws. The default charset, the case mapping of the default locale, the
digits that are not ASCII and the cipher of `javax.crypto` are parameters: a `Platform` and
a `DesCbc` carry what the code relies on as their fields.
-/

namespace Hatch.Java

abbrev Byte := BitVec 8

abbrev Char16 := BitVec 16

abbrev Str := List Char16

inductive Throwable where
  | indexOutOfBounds
  | illegalArgument
  | numberFormat
  | nullPointer
  | badPadding
  | negativeArraySize
  | runtime (message : Str)
  | outOfMemory
  deriving DecidableEq, Repr

/-- `catch (Exception e)` does not catch an `Error`. -/
def Throwable.isException : Throwable → Bool
  | .outOfMemory => false
  | _ => true

/-- An array or a string is made only if its length is an `int`. -/
def alloc {α : Type} (l : List α) : Except Throwable (List α) :=
  if l.length < 2 ^ 31 then .ok l else .error .outOfMemory

structure Bytes where
  toList : List Byte
  length_lt : toList.length < 2 ^ 31

def literal (s : List Char) : Str := s.map fun c => BitVec.ofNat 16 c.toNat

def IsAscii (s : Str) : Prop := ∀ c ∈ s, c < 0x80

instance (s : Str) : Decidable (IsAscii s) := List.decidableBAll (fun c => c < 0x80) s

def asciiUpper (c : Char16) : Char16 := if 0x61 ≤ c ∧ c ≤ 0x7A then c - 0x20 else c

def asciiLower (c : Char16) : Char16 := if 0x41 ≤ c ∧ c ≤ 0x5A then c + 0x20 else c

def asciiDigit (c : Char16) : Option ℕ :=
  if 0x30 ≤ c ∧ c ≤ 0x39 then some (c.toNat - 0x30)
  else if 0x41 ≤ c ∧ c ≤ 0x46 then some (c.toNat - 0x41 + 10)
  else if 0x61 ≤ c ∧ c ≤ 0x66 then some (c.toNat - 0x61 + 10)
  else none

/-- The default charset and locale. ASCII text takes one byte per character, and every part
of these bytes is read as the same part of the text. The upper case of ASCII text goes
character by character, where that of `i` depends on the locale. -/
structure Platform where
  getBytes : Str → List Byte
  newString : List Byte → Str
  toUpperCase : Str → Str
  digit : Char16 → Option ℕ
  upperI : Char16
  length_getBytes : ∀ s, IsAscii s → (getBytes s).length = s.length
  newString_part : ∀ s, IsAscii s → ∀ i n,
    newString (((getBytes s).drop i).take n) = (s.drop i).take n
  upperI_cases : upperI = 0x49 ∨ upperI = 0x130
  toUpperCase_ascii : ∀ s, IsAscii s →
    toUpperCase s = s.map fun c => if c = 0x69 then upperI else asciiUpper c
  digit_ascii : ∀ c, c < 0x80 → digit c = asciiDigit c

/-- `DES/CBC/PKCS5Padding` with a key and an initial vector. -/
structure DesCbc where
  encrypt : (key iv data : List Byte) → List Byte
  decrypt : (key iv data : List Byte) → Except Throwable (List Byte)
  length_encrypt : ∀ key iv data, (encrypt key iv data).length = 8 * (data.length / 8 + 1)
  decrypt_encrypt : ∀ key iv data, decrypt key iv (encrypt key iv data) = .ok data

def unsigned (b : Byte) : BitVec 32 := b.signExtend 32 &&& 0xFF

theorem unsigned_eq : ∀ b : Byte, unsigned b = b.setWidth 32 := by decide

def hexDigit (n : ℕ) : Char16 := BitVec.ofNat 16 (if n < 10 then 0x30 + n else 0x57 + n)

/-- `Integer.toHexString`: the eight digits without the zeros in front. -/
def toHexString (i : BitVec 32) : Str :=
  let digits := [28, 24, 20, 16, 12, 8, 4, 0].map fun k => hexDigit (i.toNat / 2 ^ k % 16)
  match digits.dropWhile (· = 0x30) with
  | [] => [0x30]
  | digits => digits

def toString16 (i : BitVec 32) : Str :=
  if i.toInt < 0 then 0x2D :: toHexString (-i) else toHexString i

def decimal (n : ℕ) : Str := literal (Nat.toDigits 10 n)

def substring (s : Str) (k : ℕ) : Except Throwable Str :=
  if k ≤ s.length then .ok (s.drop k) else .error .indexOutOfBounds

/-- The value of a sequence of digits, at most `limit`. -/
def magnitude (p : Platform) (digits : Str) (limit : ℕ) : Except Throwable Int :=
  match digits.mapM p.digit with
  | none => .error .numberFormat
  | some ds =>
      let value := ds.foldl (fun v d => 16 * v + d) 0
      if digits ≠ [] ∧ value ≤ limit then .ok value else .error .numberFormat

/-- `Integer.parseInt(s, 16)`. -/
def parseInt (p : Platform) : Str → Except Throwable Int
  | [] => .error .numberFormat
  | c :: cs =>
      if c < 0x30 then
        if c = 0x2D then (magnitude p cs (2 ^ 31)).map fun v => -v
        else if c = 0x2B then magnitude p cs (2 ^ 31 - 1)
        else .error .numberFormat
      else magnitude p (c :: cs) (2 ^ 31 - 1)

/-- `trim`, which drops characters up to the space at both ends. -/
def trim (s : Str) : Str :=
  ((s.dropWhile (· ≤ 0x20)).reverse.dropWhile (· ≤ 0x20)).reverse

def Untrimmed (s : Str) : Prop := (∀ c ∈ s.head?, 0x20 < c) ∧ ∀ c ∈ s.getLast?, 0x20 < c

theorem dropWhile_blank_iff (s : Str) : s.dropWhile (· ≤ 0x20) = s ↔ ∀ c ∈ s.head?, 0x20 < c := by
  rw [List.dropWhile_eq_self_iff]
  cases s with
  | nil => simp
  | cons c s => simp

theorem rdropWhile_blank_iff (s : Str) :
    s.rdropWhile (· ≤ 0x20) = s ↔ ∀ c ∈ s.getLast?, 0x20 < c := by
  rw [List.rdropWhile_eq_self_iff]
  cases s with
  | nil => simp
  | cons c s => simp [List.getLast?_eq_some_getLast]

theorem trim_eq_self_iff (s : Str) : trim s = s ↔ Untrimmed s := by
  rw [Untrimmed, ← dropWhile_blank_iff, ← rdropWhile_blank_iff]
  change (s.dropWhile (· ≤ 0x20)).rdropWhile (· ≤ 0x20) = s ↔ _
  constructor
  · intro h
    have hsuffix := List.dropWhile_suffix (· ≤ 0x20) (l := s)
    have hlen := (List.rdropWhile_prefix (· ≤ 0x20) (l := s.dropWhile (· ≤ 0x20))).length_le
    rw [h] at hlen
    have hfront : s.dropWhile (· ≤ 0x20) = s :=
      hsuffix.eq_of_length (Nat.le_antisymm hsuffix.length_le hlen)
    rw [hfront] at h
    exact ⟨hfront, h⟩
  · rintro ⟨hfront, hback⟩
    rw [hfront, hback]

end Hatch.Java
