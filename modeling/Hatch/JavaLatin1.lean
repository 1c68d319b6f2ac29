import Hatch.BlockChaining
import Hatch.BlockStream
import Hatch.Fips46
import Hatch.Java

/-!
# A platform with ISO 8859-1 and the standard cipher

The assumptions on the platform hold where the default charset is ISO 8859-1, with one byte
per character, and the cipher is DES of the standard in chaining mode with padding.
-/

namespace Hatch.Java

open BlockChaining BlockStream

/-- A character above U+00FF becomes a question mark. -/
def latin1Byte (c : Char16) : Byte := if c < 0x100 then c.setWidth 8 else 0x3F

theorem setWidth_latin1Byte {c : Char16} (h : c < 0x80) : (latin1Byte c).setWidth 16 = c := by
  have hc : c.toNat < 0x80 := h
  have hlt : c < 0x100 := Nat.lt_trans hc (by decide)
  apply BitVec.eq_of_toNat_eq
  rw [latin1Byte, if_pos hlt, BitVec.toNat_setWidth, BitVec.toNat_setWidth]
  omega

def latin1 : Platform where
  getBytes s := s.map latin1Byte
  newString b := b.map (BitVec.setWidth 16)
  toUpperCase s := s.map asciiUpper
  digit := asciiDigit
  upperI := 0x49
  length_getBytes s _ := List.length_map latin1Byte
  newString_part s hs i n := by
    rw [← List.map_drop, ← List.map_take, List.map_map]
    refine (List.map_congr_left fun c hc => ?_).trans (List.map_id _)
    exact setWidth_latin1Byte (hs c (List.mem_of_mem_drop (List.mem_of_mem_take hc)))
  upperI_cases := Or.inl rfl
  toUpperCase_ascii s _ := by
    refine List.map_congr_left fun c _ => ?_
    by_cases hc : c = 0x69
    · rw [if_pos hc, hc]
      rfl
    · rw [if_neg hc]
  digit_ascii _ _ := rfl

def desBlock (l : List Byte) : BitVec 64 :=
  Fips46.ofBytes (Vector.ofFn fun i => l[i.val]?.getD 0)

def desCbcEncrypt (key iv data : List Byte) : List Byte :=
  join ((chain (· ^^^ ·) (Fips46.encipher (desBlock key)) (desBlock iv)
    ((blocks 8 (pad 8 data)).map Fips46.ofBytes)).map Fips46.toBytes)

def desCbcDecrypt (key iv data : List Byte) : Except Throwable (List Byte) :=
  let plain := join ((unchain (· ^^^ ·) (Fips46.decipher (desBlock key)) (desBlock iv)
    ((blocks 8 data).map Fips46.ofBytes)).map Fips46.toBytes)
  match unpad 8 plain with
  | some data => .ok data
  | none => .error .badPadding

theorem map_toBytes_ofBytes (bs : List (Vector Byte 8)) :
    (bs.map Fips46.ofBytes).map Fips46.toBytes = bs := by
  rw [List.map_map]
  exact (List.map_congr_left fun b _ => Fips46.toBytes_ofBytes b).trans (List.map_id bs)

theorem map_ofBytes_toBytes (xs : List (BitVec 64)) :
    (xs.map Fips46.toBytes).map Fips46.ofBytes = xs := by
  rw [List.map_map]
  exact (List.map_congr_left fun x _ => Fips46.ofBytes_toBytes x).trans (List.map_id xs)

theorem exists_pad_eq_join (data : List Byte) :
    ∃ bs : List (Vector Byte 8), pad 8 data = join bs ∧ bs.length = data.length / 8 + 1 := by
  have hlen := length_pad (n := 8) (by decide) data
  obtain ⟨bs, hbs⟩ := exists_blocks_of_dvd (n := 8) (by decide) ⟨data.length / 8 + 1, hlen⟩
  refine ⟨bs, hbs, ?_⟩
  rw [hbs, length_join] at hlen
  omega

def desCbc : DesCbc where
  encrypt := desCbcEncrypt
  decrypt := desCbcDecrypt
  length_encrypt key iv data := by
    obtain ⟨bs, hbs, hcount⟩ := exists_pad_eq_join data
    rw [desCbcEncrypt, hbs, blocks_join (by decide)]
    simp [hcount]
  decrypt_encrypt key iv data := by
    obtain ⟨bs, hbs, -⟩ := exists_pad_eq_join data
    have hchain : unchain (· ^^^ ·) (Fips46.decipher (desBlock key)) (desBlock iv)
        (chain (· ^^^ ·) (Fips46.encipher (desBlock key)) (desBlock iv) (bs.map Fips46.ofBytes)) =
        bs.map Fips46.ofBytes :=
      unchain_chain (fun a b => by rw [BitVec.xor_assoc, BitVec.xor_self, BitVec.xor_zero])
        (Fips46.decipher_encipher (desBlock key)) _ _
    rw [desCbcEncrypt, hbs, blocks_join (by decide), desCbcDecrypt, blocks_join (by decide),
      map_ofBytes_toBytes, hchain, map_toBytes_ofBytes, ← hbs, unpad_pad (by decide) (by decide)]

end Hatch.Java
