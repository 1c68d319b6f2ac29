import Hatch.DesSchedule

/-!
# Complemented keys and blocks

Selections, shifts and exclusive ors commute with the complement, and in front of the S-boxes
the complements of the right half and of the round key cancel. A round therefore takes the
complemented halves under the complemented key to the complement of its result. The schedule of
the source has this property as well, although one entry of its `PC_2` is wrong.
-/

namespace Hatch.Des

open BitString Feistel FixedArray

section Bits

variable {n m : ℕ}

theorem select_not {table : Vector ℕ m} (h : ∀ i : Fin m, table.get i - 1 < n) (x : BitVec n) :
    select table (~~~x) = ~~~select table x := by
  apply ext_msb
  intro i
  have hi : table[i.val] - 1 < n := h i
  rw [getMsbD_select _ _ i.isLt, BitVec.getMsbD_not, BitVec.getMsbD_not,
    getMsbD_select _ _ i.isLt]
  simp [hi]

theorem extract_not {start len : ℕ} (h : start + len ≤ n) (x : BitVec n) :
    (~~~x).extractLsb' start len = ~~~x.extractLsb' start len := by
  apply BitVec.eq_of_getLsbD_eq
  intro i hi
  have hin : start + i < n := by omega
  rw [BitVec.getLsbD_extractLsb', BitVec.getLsbD_not, BitVec.getLsbD_not,
    BitVec.getLsbD_extractLsb']
  simp [hi, hin]

theorem rotateLeft_not (x : BitVec n) (r : ℕ) : (~~~x).rotateLeft r = ~~~x.rotateLeft r := by
  apply ext_msb
  intro i
  have hi : (r + i) % n < n := Nat.mod_lt _ i.pos
  rw [BitVec.getMsbD_rotateLeft, BitVec.getMsbD_not, BitVec.getMsbD_not,
    BitVec.getMsbD_rotateLeft]
  simp [hi]

theorem reverse_not (x : BitVec n) : (~~~x).reverse = ~~~x.reverse := by
  apply ext_msb
  intro i
  rw [BitVec.getMsbD_reverse, BitVec.getLsbD_not, BitVec.getMsbD_not, BitVec.getMsbD_reverse]

/-- Two complements cancel in an exclusive or. -/
theorem not_xor_not (x y : BitVec n) : ~~~x ^^^ ~~~y = x ^^^ y := by
  rw [← BitVec.not_xor_left, ← BitVec.not_xor_right, BitVec.not_not]

end Bits

/-! ### The cipher of the standard -/

theorem f_not (k : BitVec 48) (r : BitVec 32) : Fips46.f (~~~k) (~~~r) = Fips46.f k r := by
  rw [Fips46.f, select_not (by decide), not_xor_not]
  rfl

theorem exchange_not (k : BitVec 48) (s : BitVec 32 × BitVec 32) :
    exchange (fun a b => a ^^^ b) Fips46.f (~~~k) (~~~s.1, ~~~s.2) =
      (~~~(exchange (fun a b => a ^^^ b) Fips46.f k s).1,
        ~~~(exchange (fun a b => a ^^^ b) Fips46.f k s).2) := by
  simp only [exchange, f_not, BitVec.not_xor_left]

theorem preoutput_not (ks : List (BitVec 48)) (s : BitVec 32 × BitVec 32) :
    Fips46.preoutput (ks.map (~~~·)) (~~~s.1, ~~~s.2) =
      (~~~(Fips46.preoutput ks s).1, ~~~(Fips46.preoutput ks s).2) := by
  have hrounds := rounds_map (d := fun s : BitVec 32 × BitVec 32 => (~~~s.1, ~~~s.2))
    exchange_not ks s
  rw [Fips46.preoutput, crypt, hrounds]
  rfl

theorem cipher_not (ks : List (BitVec 48)) (x : BitVec 64) :
    Fips46.cipher (ks.map (~~~·)) (~~~x) = ~~~Fips46.cipher ks x := by
  have hip : select Fips46.ip (~~~x) = ~~~select Fips46.ip x := select_not (by decide) x
  have hrounds (l r : BitVec 32) := preoutput_not ks (l, r)
  simp only [Fips46.cipher, hip]
  rw [extract_not (by decide), extract_not (by decide), hrounds, ← BitVec.not_append,
    select_not (by decide)]

theorem shifted_not (key : BitVec 64) (n : ℕ) :
    Fips46.shifted (~~~key) n = (~~~(Fips46.shifted key n).1, ~~~(Fips46.shifted key n).2) := by
  induction n with
  | zero =>
      have hpc1 : select Fips46.pc1 (~~~key) = ~~~select Fips46.pc1 key :=
        select_not (by decide) key
      rw [Fips46.shifted, hpc1, extract_not (by decide), extract_not (by decide)]
      rfl
  | succ n ih => simp only [Fips46.shifted, ih, rotateLeft_not]

/-! ### The functions of the source -/

theorem madeKey_not (key : BitVec 64) (n : ℕ) : madeKey (~~~key) n = ~~~madeKey key n := by
  have hpc2 (i : Fin 48) : pc2Read.get i - 1 < 56 := by
    rw [get_pc2Read, Nat.add_sub_cancel]
    exact (pc2.get i).isLt
  rw [madeKey, shifted_not, ← BitVec.not_append, select_not hpc2]
  rfl

theorem madeKeys_not (key : BitVec 64) :
    (madeKeys (~~~key)).toList = (madeKeys key).toList.map (~~~·) := by
  rw [← Vector.toList_map]
  refine congrArg Vector.toList (ext_get fun i => ?_)
  rw [madeKeys, get_ofFn, madeKey_not]
  refine (Eq.trans (Vector.getElem_map _ i.isLt) ?_).symm
  exact congrArg (~~~·) (get_ofFn _ i)

def complement (block : Vector ElemType 8) : Vector ElemType 8 := block.map (~~~·)

theorem get_complement (block : Vector ElemType 8) (i : Fin 8) :
    (complement block).get i = ~~~block.get i := Vector.getElem_map _ i.isLt

theorem mirror_complement (block : Vector ElemType 8) :
    mirror (complement block) = complement (mirror block) := by
  apply ext_get
  intro i
  rw [get_mirror, get_complement, get_complement, get_mirror, reverse_not]

theorem ofBytes_complement (v : Vector ElemType 8) :
    Fips46.ofBytes (complement v) = ~~~Fips46.ofBytes v := by
  apply ext_msb
  intro i
  have hi : i.val % 8 < 8 := Nat.mod_lt _ (by decide)
  rw [Fips46.getMsbD_ofBytes, get_complement, BitVec.getMsbD_not, BitVec.getMsbD_not,
    Fips46.getMsbD_ofBytes]
  simp [hi]

theorem toBytes_not (x : BitVec 64) : Fips46.toBytes (~~~x) = complement (Fips46.toBytes x) := by
  apply ext_get
  intro i
  rw [get_complement, Fips46.toBytes, Fips46.toBytes, get_ofFn, get_ofFn,
    extract_not (by omega)]

theorem standardBlock_not (key : BitVec 64) (block : Vector ElemType 8) :
    standardBlock (madeKeys (~~~key)) (complement block) =
      complement (standardBlock (madeKeys key) block) := by
  rw [standardBlock, madeKeys_not, mirror_complement, ofBytes_complement, cipher_not, toBytes_not,
    mirror_complement]
  rfl

/-- Encrypting the complement of a block under the complement of the key returns, and gives the
complement of the encrypted block, whatever the arrays of subkeys held before. -/
theorem desEncryptBlock_complement (key block : Vector ElemType 8)
    (subKeys subKeys' : Vector (Vector ElemType 48) 16) :
    ∃ c, desEncryptBlock block (desMakeSubKeys (char8ToBit64 key) subKeys) = some c ∧
      desEncryptBlock (complement block)
        (desMakeSubKeys (char8ToBit64 (complement key)) subKeys') = some (complement c) := by
  refine ⟨standardBlock (madeKeys (Fips46.ofBytes (mirror key))) block, ?_, ?_⟩
  · rw [char8ToBit64_eq, desMakeSubKeys_cells, desEncryptBlock_cells]
  · rw [char8ToBit64_eq, desMakeSubKeys_cells, desEncryptBlock_cells, mirror_complement,
      ofBytes_complement, standardBlock_not]

end Hatch.Des
