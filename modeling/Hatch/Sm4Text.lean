import Hatch.Convert
import Hatch.Sm4

/-!
# The string methods of `Sm4.java`

A text goes through the DES cipher of the platform, upper-case hexadecimal digits and SM4;
`Encryption` and `Decrypt` add a second hexadecimal layer, return null for an exception and
trim the decrypted text. A reference that may be null is an `Option`.
-/

namespace Hatch.Sm4

open Java Hatch.Convert

def keyText : Str :=
  literal ['J', 'e', 'F', '8', 'U', '9', 'w', 'H', 'F', 'O', 'M', 'f', 's', '2', 'S', '3']

theorem isAscii_keyText : IsAscii keyText := by decide

def defaultKey (p : Platform) : Vector Byte 16 :=
  ⟨(p.getBytes keyText).toArray, by
    rw [List.size_toArray, p.length_getBytes keyText isAscii_keyText]
    rfl⟩

def passwordCryptKey : Str := literal ['C', 'S', 'S', 's', 's', 'D', 'e', 's']

def iv : List Byte := [1, 2, 3, 4, 5, 6, 7, 8]

def parseByte2HexStr (p : Platform) (buf : List Byte) : Except Throwable Str :=
  alloc (buf.flatMap fun b => p.toUpperCase (hexPair b))

def hexPairs (p : Platform) : List Byte → Except Throwable (List Byte)
  | b0 :: b1 :: rest => do
      let value ← parseInt p (p.newString [b0, b1])
      let bytes ← hexPairs p rest
      return BitVec.ofInt 8 value :: bytes
  | _ => .ok []

def hex2byte (p : Platform) (b : List Byte) : Except Throwable (List Byte) :=
  if b.length % 2 ≠ 0 then .error .illegalArgument else hexPairs p b

def encryptDES (p : Platform) (des : DesCbc) (encryptString : Str) : Except Throwable Str :=
  parseByte2HexStr p (des.encrypt (p.getBytes passwordCryptKey) iv (p.getBytes encryptString))

def decryptDES (p : Platform) (des : DesCbc) (decryptString : Str) : Except Throwable Str := do
  let byteMi ← hex2byte p (p.getBytes decryptString)
  let decryptedData ← des.decrypt (p.getBytes passwordCryptKey) iv byteMi
  return p.newString decryptedData

def encodeSMS4String (p : Platform) (des : DesCbc) (plaintext : Option Str) (key : Vector Byte 16) :
    Except Throwable (Option (List Byte)) :=
  match plaintext with
  | none => .ok none
  | some [] => .ok none
  | some plaintext => do
      let hex ← encryptDES p des plaintext
      let ciphertext ← encodeSMS4 (p.getBytes hex) key
      return some ciphertext

def decodeSMS4toString (p : Platform) (des : DesCbc) (ciphertext : Option (List Byte))
    (key : Vector Byte 16) : Except Throwable Str :=
  match ciphertext with
  | none => .error .nullPointer
  | some ciphertext => do
      let plaintext ← decodeSMS4 ciphertext key
      decryptDES p des (p.newString plaintext)

def orNull {α : Type} : Except Throwable α → Except Throwable (Option α)
  | .ok a => .ok (some a)
  | .error e => if e.isException then .ok none else .error e

def encryption (p : Platform) (des : DesCbc) (encodingStr : Option Str) :
    Except Throwable (Option Str) :=
  orNull do
    let enOut ← encodeSMS4String p des encodingStr (defaultKey p)
    byteToHex p enOut

def decrypt (p : Platform) (des : DesCbc) (redaction : Option Str) :
    Except Throwable (Option Str) :=
  orNull do
    let deOutStr ← decodeSMS4toString p des (hexStringToBytes p redaction) (defaultKey p)
    return trim deOutStr

end Hatch.Sm4
