import Hatch.DesBits

/-!
# The two block functions

Bytes are read with the least significant bit first, so a block of the source is a block of
the standard with the bits of every byte reversed. On any array of subkey bits
`DES_EncryptBlock` is the cipher of the standard with those round keys and
`DES_DecryptBlock` the cipher with the keys in reverse order; each undoes the other.
-/

namespace Hatch.Des

open BitString CountedLoop Feistel FixedArray

def mirror (block : Vector ElemType 8) : Vector ElemType 8 := block.map BitVec.reverse

theorem get_mirror (block : Vector ElemType 8) (i : Fin 8) :
    (mirror block).get i = (block.get i).reverse := Vector.getElem_map _ i.isLt

theorem mirror_mirror (block : Vector ElemType 8) : mirror (mirror block) = block := by
  apply ext_get
  intro i
  rw [get_mirror, get_mirror, BitVec.reverse_reverse_eq]

theorem get_byteToBit (ch : ElemType) (i : Fin 8) :
    (byteToBit ch).get i = bit (ch.getLsbD i) := by
  have hbit : ((promote ch).sshiftRight i).getLsbD 0 = ch.getLsbD i := by
    have hi : i.val < 32 := by omega
    rw [BitVec.getLsbD_sshiftRight, promote, BitVec.getLsbD_signExtend]
    simp [hi]
  rw [byteToBit, get_ofFn]
  change BitVec.setWidth 8 ((promote ch).sshiftRight i &&& 1#32) = _
  rw [BitVec.and_one_eq_setWidth_ofBool_getLsbD, hbit, bit]
  cases ch.getLsbD i <;> rfl

/-- One step of `BitToByte` adds bit `k` of `y` to the bits below it. -/
theorem or_bit_shiftLeft (y : BitVec 8) (k : Fin 8) :
    (promote ((y.setWidth k).setWidth 8) ||| promote (bit (y.getLsbD k)) <<< k.val).setWidth 8 =
      (y.setWidth (k + 1)).setWidth 8 := by
  apply BitVec.eq_of_getLsbD_eq
  intro j hj
  have h32 : j < 32 := by omega
  rw [BitVec.getLsbD_setWidth, BitVec.getLsbD_or, BitVec.getLsbD_shiftLeft, promote, promote,
    BitVec.getLsbD_signExtend, BitVec.getLsbD_signExtend]
  rcases Nat.lt_trichotomy j k with hlt | heq | hgt
  · have hk : j < k.val + 1 := by omega
    simp [bit, hj, h32, hlt, hk]
  · subst heq
    simp [bit, hj, h32]
  · have hk : ¬ j < k.val + 1 := by omega
    have hk' : ¬ j < k.val := by omega
    have hpos : j - k.val ≠ 0 := by omega
    have h8 : j - k.val < 8 := by omega
    simp [bit, hj, hk, hk', hpos, h8]

theorem bitToByte_bits (y : BitVec 8) :
    bitToByte (Vector.ofFn fun i => bit (y.getLsbD i)) 0 = y := by
  have h0 : (0 : ElemType) = (y.setWidth 0).setWidth 8 := by
    rw [BitVec.eq_nil (y.setWidth 0)]
    rfl
  have h8 : (y.setWidth 8).setWidth 8 = y := by
    rw [BitVec.setWidth_eq, BitVec.setWidth_eq]
  rw [bitToByte, h0]
  refine Eq.trans (loop_eq_trace (fun k => (y.setWidth k).setWidth 8) ?_) h8
  intro k
  rw [get_ofFn]
  exact or_bit_shiftLeft y k

theorem char8ToBit64_eq (block : Vector ElemType 8) :
    char8ToBit64 block = cells (Fips46.ofBytes (mirror block)) := by
  apply ext_get
  intro i
  rw [char8ToBit64, get_ofFn, get_byteToBit, get_cells, Fips46.getMsbD_ofBytes, get_mirror,
    BitVec.getMsbD_reverse]

theorem bit64ToChar8_cells (x : BitVec 64) :
    bit64ToChar8 (cells x) = mirror (Fips46.toBytes x) := by
  apply ext_get
  intro cnt
  have hbits : slice (cells x) (8 * cnt) 8 (by omega) =
      Vector.ofFn fun i => bit (((Fips46.toBytes x).get cnt).reverse.getLsbD i) := by
    apply ext_get
    intro i
    rw [get_slice, get_cells, get_ofFn, BitVec.getLsbD_reverse, Fips46.getMsbD_toBytes]
  rw [bit64ToChar8, get_ofFn, hbits, bitToByte_bits, get_mirror]

def halves (ks : Vector (BitVec 48) 16) (s : BitVec 32 × BitVec 32) (n : ℕ) :
    BitVec 32 × BitVec 32 :=
  rounds (exchange (fun a b => a ^^^ b) Fips46.f) (ks.toList.take n) s

theorem halves_succ (ks : Vector (BitVec 48) 16) (s : BitVec 32 × BitVec 32) (i : Fin 16) :
    halves ks s (i + 1) = ((halves ks s i).2,
      (halves ks s i).1 ^^^ Fips46.f (ks.get i) (halves ks s i).2) := by
  rw [halves, rounds_take_succ _ (by simp)]
  rfl

def blockTrace (ks : Vector (BitVec 48) 16) (s : BitVec 32 × BitVec 32) (n : ℕ) :
    Vector ElemType 64 :=
  if n = 16 then cells (n := 64) ((halves ks s n).2 ++ (halves ks s n).1)
  else cells (n := 64) ((halves ks s n).1 ++ (halves ks s n).2)

def blockStep (subKey : Fin 16 → Vector ElemType 48) (cnt : Fin 16) (bits : Vector ElemType 64) :
    Option (Vector ElemType 64) := do
  let bits ← desMix bits (subKey cnt)
  return if cnt.val ≠ 15 then desSwap bits else bits

theorem blockStep_trace (ks : Vector (BitVec 48) 16) (s : BitVec 32 × BitVec 32) (cnt : Fin 16) :
    blockStep (fun i => cells (ks.get i)) cnt (blockTrace ks s cnt) =
      some (blockTrace ks s (cnt + 1)) := by
  have hcnt : cnt.val ≠ 16 := by omega
  rw [blockStep, blockTrace, if_neg hcnt, desMix_cells, blockTrace, halves_succ]
  by_cases hlast : cnt.val = 15
  · simp [hlast]
  · have hn : cnt.val + 1 ≠ 16 := by omega
    simp [hlast, desSwap_cells_append]

theorem loopM_blockStep (ks : Vector (BitVec 48) 16) (l r : BitVec 32) :
    loopM 16 (blockStep fun i => cells (ks.get i)) (cells (n := 64) (l ++ r)) =
      some (cells (n := 64) ((Fips46.preoutput ks.toList (l, r)).1 ++
        (Fips46.preoutput ks.toList (l, r)).2)) := by
  have hstart : cells (n := 64) (l ++ r) = blockTrace ks (l, r) 0 := rfl
  have hall : ks.toList.take 16 = ks.toList := List.take_of_length_le (by simp)
  rw [hstart, loopM_eq_trace (blockTrace ks (l, r)) (blockStep_trace ks (l, r)), blockTrace,
    if_pos rfl, halves, hall]
  rfl

theorem get_map_cells (ks : Vector (BitVec 48) 16) (i : Fin 16) :
    (ks.map cells).get i = cells (ks.get i) := Vector.getElem_map _ i.isLt

/-- A block taken through the cipher of the standard with the given round keys. -/
def standardBlock (ks : Vector (BitVec 48) 16) (block : Vector ElemType 8) : Vector ElemType 8 :=
  mirror (Fips46.toBytes (Fips46.cipher ks.toList (Fips46.ofBytes (mirror block))))

theorem desIpTransform_char8ToBit64 (block : Vector ElemType 8) :
    desIpTransform (char8ToBit64 block) =
      cells (n := 64) ((select Fips46.ip (Fips46.ofBytes (mirror block))).extractLsb' 32 32 ++
        (select Fips46.ip (Fips46.ofBytes (mirror block))).extractLsb' 0 32) := by
  have hx (x : BitVec 64) : x.extractLsb' 32 32 ++ x.extractLsb' 0 32 = x :=
    BitVec.extractLsb'_append_extractLsb'
  rw [char8ToBit64_eq, desIpTransform_cells, hx]

theorem desEncryptBlock_cells (ks : Vector (BitVec 48) 16) (block : Vector ElemType 8) :
    desEncryptBlock block (ks.map cells) = some (standardBlock ks block) := by
  have hbody : (fun (cnt : Fin 16) (bits : Vector ElemType 64) => (do
      let bits ← desMix bits ((ks.map cells).get cnt)
      return if cnt.val ≠ 15 then desSwap bits else bits : Option (Vector ElemType 64))) =
      blockStep fun i => cells (ks.get i) := by
    funext cnt bits
    rw [blockStep, get_map_cells]
  rw [desEncryptBlock, hbody, desIpTransform_char8ToBit64, loopM_blockStep]
  simp only [Option.bind_eq_bind, Option.bind_some, desIp1Transform_cells, bit64ToChar8_cells]
  rfl

theorem desDecryptBlock_cells (ks : Vector (BitVec 48) 16) (block : Vector ElemType 8) :
    desDecryptBlock block (ks.map cells) = some (standardBlock ks.reverse block) := by
  have hbody : (fun (i : Fin 16) (bits : Vector ElemType 64) => (do
      let cnt := i.rev
      let bits ← desMix bits ((ks.map cells).get cnt)
      return if cnt.val ≠ 0 then desSwap bits else bits : Option (Vector ElemType 64))) =
      blockStep fun i => cells (ks.reverse.get i) := by
    funext i bits
    have hlast : i.rev.val ≠ 0 ↔ i.val ≠ 15 := by
      rw [Fin.val_rev]
      omega
    have hkey : ks.reverse.get i = ks.get i.rev := by
      refine (Vector.getElem_reverse i.isLt).trans (congrArg ks.get (Fin.ext ?_))
      simp
    rw [blockStep, hkey]
    simp only [hlast, get_map_cells]
  rw [desDecryptBlock, hbody, desIpTransform_char8ToBit64, loopM_blockStep]
  simp only [Option.bind_eq_bind, Option.bind_some, desIp1Transform_cells, bit64ToChar8_cells]
  rfl

theorem standardBlock_reverse (ks : Vector (BitVec 48) 16) (block : Vector ElemType 8) :
    standardBlock ks.reverse (standardBlock ks block) = block := by
  rw [standardBlock, standardBlock, mirror_mirror, Fips46.ofBytes_toBytes, Vector.toList_reverse,
    Fips46.cipher_reverse, Fips46.toBytes_ofBytes, mirror_mirror]

/-- Any array of subkey bits is the array of some round keys. -/
theorem exists_cells {subKeys : Vector (Vector ElemType 48) 16}
    (h : ∀ i j, (subKeys.get i).get j = 0 ∨ (subKeys.get i).get j = 1) :
    ∃ ks : Vector (BitVec 48) 16, subKeys = ks.map cells := by
  refine ⟨Vector.ofFn fun i => ofBits fun j => (subKeys.get i).get j = 1, ?_⟩
  apply ext_get
  intro i
  rw [get_map_cells, get_ofFn]
  apply ext_get
  intro j
  rw [get_cells, getMsbD_ofBits _ j.isLt]
  obtain h0 | h1 := h i j
  · rw [h0]
    rfl
  · rw [h1]
    rfl

theorem bit_eq (b : Bool) : bit b = 0 ∨ bit b = 1 := by
  cases b
  · exact Or.inl rfl
  · exact Or.inr rfl

theorem desBlock_inverse (subKeys : Vector (Vector ElemType 48) 16)
    (h : ∀ i j, (subKeys.get i).get j = 0 ∨ (subKeys.get i).get j = 1)
    (block : Vector ElemType 8) :
    (desEncryptBlock block subKeys >>= fun c => desDecryptBlock c subKeys) = some block ∧
      (desDecryptBlock block subKeys >>= fun p => desEncryptBlock p subKeys) = some block := by
  obtain ⟨ks, rfl⟩ := exists_cells h
  have hrev := standardBlock_reverse ks.reverse block
  rw [Vector.reverse_reverse] at hrev
  simp only [desEncryptBlock_cells, desDecryptBlock_cells, Option.bind_eq_bind, Option.bind_some,
    standardBlock_reverse, hrev, and_self]

theorem desBlock_inverse_stripes :
    let subKeys := (Vector.replicate 16 (0xF0F0F0F0F0F0 : BitVec 48)).map cells
    let block : Vector ElemType 8 := #v[0x68, 0x61, 0x74, 0x63, 0x68, 0xff, 0x80, 0x00]
    (desEncryptBlock block subKeys >>= fun c => desDecryptBlock c subKeys) = some block :=
  (desBlock_inverse _ (fun i j => by rw [get_map_cells, get_cells]; exact bit_eq _) _).1

end Hatch.Des
