import Hatch.BitString
import Hatch.Feistel

/-!
# The data encryption standard

FIPS 46-3 on 64-bit blocks: the tables of the standard with its own numbering (bit 1 is the
leftmost), the cipher function, the key schedule and the sixteen rounds. Deciphering is the
same computation with the round keys in reverse order, for any list of round keys.
-/

namespace Fips46

open BitString Feistel

def ip : Vector ℕ 64 :=
  #v[58, 50, 42, 34, 26, 18, 10, 2, 60, 52, 44, 36, 28, 20, 12, 4,
    62, 54, 46, 38, 30, 22, 14, 6, 64, 56, 48, 40, 32, 24, 16, 8,
    57, 49, 41, 33, 25, 17, 9, 1, 59, 51, 43, 35, 27, 19, 11, 3,
    61, 53, 45, 37, 29, 21, 13, 5, 63, 55, 47, 39, 31, 23, 15, 7]

def ipInv : Vector ℕ 64 :=
  #v[40, 8, 48, 16, 56, 24, 64, 32, 39, 7, 47, 15, 55, 23, 63, 31,
    38, 6, 46, 14, 54, 22, 62, 30, 37, 5, 45, 13, 53, 21, 61, 29,
    36, 4, 44, 12, 52, 20, 60, 28, 35, 3, 43, 11, 51, 19, 59, 27,
    34, 2, 42, 10, 50, 18, 58, 26, 33, 1, 41, 9, 49, 17, 57, 25]

def expansion : Vector ℕ 48 :=
  #v[32, 1, 2, 3, 4, 5, 4, 5, 6, 7, 8, 9,
    8, 9, 10, 11, 12, 13, 12, 13, 14, 15, 16, 17,
    16, 17, 18, 19, 20, 21, 20, 21, 22, 23, 24, 25,
    24, 25, 26, 27, 28, 29, 28, 29, 30, 31, 32, 1]

def permutation : Vector ℕ 32 :=
  #v[16, 7, 20, 21, 29, 12, 28, 17, 1, 15, 23, 26, 5, 18, 31, 10,
    2, 8, 24, 14, 32, 27, 3, 9, 19, 13, 30, 6, 22, 11, 4, 25]

def pc1 : Vector ℕ 56 :=
  #v[57, 49, 41, 33, 25, 17, 9, 1, 58, 50, 42, 34, 26, 18,
    10, 2, 59, 51, 43, 35, 27, 19, 11, 3, 60, 52, 44, 36,
    63, 55, 47, 39, 31, 23, 15, 7, 62, 54, 46, 38, 30, 22,
    14, 6, 61, 53, 45, 37, 29, 21, 13, 5, 28, 20, 12, 4]

def pc2 : Vector ℕ 48 :=
  #v[14, 17, 11, 24, 1, 5, 3, 28, 15, 6, 21, 10,
    23, 19, 12, 4, 26, 8, 16, 7, 27, 20, 13, 2,
    41, 52, 31, 37, 47, 55, 30, 40, 51, 45, 33, 48,
    44, 49, 39, 56, 34, 53, 46, 42, 50, 36, 29, 32]

def shiftTable : List ℕ := [1, 1, 2, 2, 2, 2, 2, 2, 1, 2, 2, 2, 2, 2, 2, 1]

def selection : Vector (Vector (Vector (BitVec 4) 16) 4) 8 :=
  #v[#v[#v[14, 4, 13, 1, 2, 15, 11, 8, 3, 10, 6, 12, 5, 9, 0, 7],
      #v[0, 15, 7, 4, 14, 2, 13, 1, 10, 6, 12, 11, 9, 5, 3, 8],
      #v[4, 1, 14, 8, 13, 6, 2, 11, 15, 12, 9, 7, 3, 10, 5, 0],
      #v[15, 12, 8, 2, 4, 9, 1, 7, 5, 11, 3, 14, 10, 0, 6, 13]],
    #v[#v[15, 1, 8, 14, 6, 11, 3, 4, 9, 7, 2, 13, 12, 0, 5, 10],
      #v[3, 13, 4, 7, 15, 2, 8, 14, 12, 0, 1, 10, 6, 9, 11, 5],
      #v[0, 14, 7, 11, 10, 4, 13, 1, 5, 8, 12, 6, 9, 3, 2, 15],
      #v[13, 8, 10, 1, 3, 15, 4, 2, 11, 6, 7, 12, 0, 5, 14, 9]],
    #v[#v[10, 0, 9, 14, 6, 3, 15, 5, 1, 13, 12, 7, 11, 4, 2, 8],
      #v[13, 7, 0, 9, 3, 4, 6, 10, 2, 8, 5, 14, 12, 11, 15, 1],
      #v[13, 6, 4, 9, 8, 15, 3, 0, 11, 1, 2, 12, 5, 10, 14, 7],
      #v[1, 10, 13, 0, 6, 9, 8, 7, 4, 15, 14, 3, 11, 5, 2, 12]],
    #v[#v[7, 13, 14, 3, 0, 6, 9, 10, 1, 2, 8, 5, 11, 12, 4, 15],
      #v[13, 8, 11, 5, 6, 15, 0, 3, 4, 7, 2, 12, 1, 10, 14, 9],
      #v[10, 6, 9, 0, 12, 11, 7, 13, 15, 1, 3, 14, 5, 2, 8, 4],
      #v[3, 15, 0, 6, 10, 1, 13, 8, 9, 4, 5, 11, 12, 7, 2, 14]],
    #v[#v[2, 12, 4, 1, 7, 10, 11, 6, 8, 5, 3, 15, 13, 0, 14, 9],
      #v[14, 11, 2, 12, 4, 7, 13, 1, 5, 0, 15, 10, 3, 9, 8, 6],
      #v[4, 2, 1, 11, 10, 13, 7, 8, 15, 9, 12, 5, 6, 3, 0, 14],
      #v[11, 8, 12, 7, 1, 14, 2, 13, 6, 15, 0, 9, 10, 4, 5, 3]],
    #v[#v[12, 1, 10, 15, 9, 2, 6, 8, 0, 13, 3, 4, 14, 7, 5, 11],
      #v[10, 15, 4, 2, 7, 12, 9, 5, 6, 1, 13, 14, 0, 11, 3, 8],
      #v[9, 14, 15, 5, 2, 8, 12, 3, 7, 0, 4, 10, 1, 13, 11, 6],
      #v[4, 3, 2, 12, 9, 5, 15, 10, 11, 14, 1, 7, 6, 0, 8, 13]],
    #v[#v[4, 11, 2, 14, 15, 0, 8, 13, 3, 12, 9, 7, 5, 10, 6, 1],
      #v[13, 0, 11, 7, 4, 9, 1, 10, 14, 3, 5, 12, 2, 15, 8, 6],
      #v[1, 4, 11, 13, 12, 3, 7, 14, 10, 15, 6, 8, 0, 5, 9, 2],
      #v[6, 11, 13, 8, 1, 4, 10, 7, 9, 5, 0, 15, 14, 2, 3, 12]],
    #v[#v[13, 2, 8, 4, 6, 15, 11, 1, 10, 9, 3, 14, 5, 0, 12, 7],
      #v[1, 15, 13, 8, 10, 3, 7, 4, 12, 5, 6, 11, 0, 14, 9, 2],
      #v[7, 11, 4, 1, 9, 12, 14, 2, 0, 6, 10, 13, 15, 3, 5, 8],
      #v[2, 1, 14, 7, 4, 10, 8, 13, 15, 12, 9, 0, 3, 5, 6, 11]]]

/-- The first and last bit of the group choose the row, the four between them the column. -/
def sbox (j : Fin 8) (b : BitVec 6) : BitVec 4 :=
  let row := BitVec.ofBool (b.getMsbD 0) ++ BitVec.ofBool (b.getMsbD 5)
  let column := b.extractLsb' 1 4
  ((selection.get j).get row.toFin).get column.toFin

def sboxes (b : BitVec 48) : BitVec 32 :=
  pack (Vector.ofFn fun j : Fin 8 => sbox j (b.extractLsb' (42 - 6 * j) 6))

def f (k : BitVec 48) (r : BitVec 32) : BitVec 32 :=
  select permutation (sboxes (select expansion r ^^^ k))

def shifted (key : BitVec 64) : ℕ → BitVec 28 × BitVec 28
  | 0 =>
      let x := select pc1 key
      (x.extractLsb' 28 28, x.extractLsb' 0 28)
  | n + 1 =>
      let s := shiftTable.getD n 0
      ((shifted key n).1.rotateLeft s, (shifted key n).2.rotateLeft s)

def roundKey (key : BitVec 64) (n : ℕ) : BitVec 48 :=
  select pc2 ((shifted key n).1 ++ (shifted key n).2)

def roundKeys (key : BitVec 64) : Vector (BitVec 48) 16 :=
  Vector.ofFn fun n => roundKey key (n + 1)

def preoutput : List (BitVec 48) → BitVec 32 × BitVec 32 → BitVec 32 × BitVec 32 :=
  crypt (exchange (fun a b => a ^^^ b) f) Prod.swap

def cipher (ks : List (BitVec 48)) (x : BitVec 64) : BitVec 64 :=
  let y := select ip x
  let p := preoutput ks (y.extractLsb' 32 32, y.extractLsb' 0 32)
  select ipInv (p.1 ++ p.2)

def encipher (key block : BitVec 64) : BitVec 64 := cipher (roundKeys key).toList block

def decipher (key block : BitVec 64) : BitVec 64 := cipher (roundKeys key).toList.reverse block

example : encipher 0x133457799BBCDFF1 0x0123456789ABCDEF = 0x85E813540F0AB405 := by
  decide +kernel

theorem preoutput_reverse (ks : List (BitVec 48)) (p : BitVec 32 × BitVec 32) :
    preoutput ks.reverse (preoutput ks p) = p :=
  (reverses_exchange (fun a b => by rw [BitVec.xor_assoc, BitVec.xor_self, BitVec.xor_zero])
    f).crypt_reverse ks p

theorem select_ip_ipInv (x : BitVec 64) : select ip (select ipInv x) = x :=
  select_select (by decide) x

theorem select_ipInv_ip (x : BitVec 64) : select ipInv (select ip x) = x :=
  select_select (by decide) x

theorem cipher_reverse (ks : List (BitVec 48)) (x : BitVec 64) :
    cipher ks.reverse (cipher ks x) = x := by
  have hx : (select ip x).extractLsb' 32 32 ++ (select ip x).extractLsb' 0 32 = select ip x :=
    BitVec.extractLsb'_append_extractLsb'
  rw [cipher, cipher]
  simp only [select_ip_ipInv, BitVec.extractLsb'_append_eq_left,
    BitVec.extractLsb'_append_eq_right, Prod.mk.eta, preoutput_reverse, hx, select_ipInv_ip]

theorem decipher_encipher (key x : BitVec 64) : decipher key (encipher key x) = x :=
  cipher_reverse _ _

/-- A block as eight bytes, the leftmost bits first. -/
def ofBytes (v : Vector (BitVec 8) 8) : BitVec 64 := pack v

def toBytes (x : BitVec 64) : Vector (BitVec 8) 8 :=
  Vector.ofFn fun i => x.extractLsb' (56 - 8 * i) 8

theorem getMsbD_ofBytes (v : Vector (BitVec 8) 8) (i : Fin 64) :
    (ofBytes v).getMsbD i = (v.get ⟨i / 8, div_eight_lt i⟩).getMsbD (i % 8) :=
  getMsbD_pack v i.isLt

theorem getMsbD_toBytes (x : BitVec 64) (i j : Fin 8) :
    ((toBytes x).get i).getMsbD j = x.getMsbD (8 * i + j) := by
  have h : 64 - (56 - 8 * i.val + 8 - j.val) = 8 * i + j := by omega
  have hx : (toBytes x).get i = x.extractLsb' (56 - 8 * i) 8 := Vector.getElem_ofFn i.isLt
  rw [hx, BitVec.getMsbD_extractLsb', h]
  simp
  omega

theorem ofBytes_toBytes (x : BitVec 64) : ofBytes (toBytes x) = x := by
  apply ext_msb
  intro i
  rw [getMsbD_ofBytes, getMsbD_toBytes x ⟨i / 8, by omega⟩ ⟨i % 8, by omega⟩]
  exact congrArg x.getMsbD (Nat.div_add_mod i.val 8)

theorem toBytes_ofBytes (v : Vector (BitVec 8) 8) : toBytes (ofBytes v) = v := by
  apply Vector.ext
  intro i hi
  change (toBytes (ofBytes v)).get ⟨i, hi⟩ = v.get ⟨i, hi⟩
  apply ext_msb
  intro j
  rw [getMsbD_toBytes]
  rw [getMsbD_ofBytes v ⟨8 * i + j, by omega⟩]
  have hd : (8 * i + j) / 8 = i := by omega
  have hm : (8 * i + j) % 8 = j := by omega
  simp only [hd, hm]

end Fips46
