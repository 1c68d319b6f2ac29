import Hatch.DesBlock

/-!
# The subkeys and the standard's round keys

`DES_MakeSubKeys` shifts its key array as the standard shifts `C` and `D`, but one entry of
`PC_2` repeats position 46 where the standard selects 47. A subkey is therefore the round
key of the standard exactly when those two bits agree, and both can be traced back to bits
of the key.
-/

namespace Hatch.Des

open BitString CountedLoop FixedArray

section Shift

variable (c d : BitVec 28)

theorem getMsbD_c {i : ℕ} (h : i < 28) : BitVec.getMsbD (w := 56) (c ++ d) i = c.getMsbD i := by
  have := BitVec.getMsbD_append (x := c) (y := d) (i := i)
  rwa [if_neg (by omega)] at this

theorem getMsbD_d {i : ℕ} (h : 28 ≤ i) :
    BitVec.getMsbD (w := 56) (c ++ d) i = d.getMsbD (i - 28) := by
  have := BitVec.getMsbD_append (x := c) (y := d) (i := i)
  rwa [if_pos h] at this

end Shift

section Rol

variable (data : Vector ElemType 56) (time : Fin 29)

theorem get_desRol_left (i : Fin 56) (h : i.val < 28) :
    (desRol data time).get i = data.get ⟨(time + i) % 28, by omega⟩ := by
  rw [desRol, get_copy_of_notMem _ _ _ _ (by omega), get_copy_of_notMem _ _ _ _ (by omega)]
  by_cases hi : i.val < 28 - time
  · rw [get_copy_of_notMem _ _ _ _ (by omega), get_copy_of_mem _ _ _ _ (by omega), get_slice]
    congr 1
    simp
    omega
  · rw [get_copy_of_mem _ _ _ _ (by omega), get_slice]
    refine (Vector.getElem_append_left (by simp; omega)).trans ?_
    refine (get_slice data 0 time _ ⟨0 + (i - (28 - time)), by omega⟩).trans ?_
    congr 1
    simp
    omega

theorem get_desRol_right (i : Fin 56) (h : 28 ≤ i.val) :
    (desRol data time).get i = data.get ⟨28 + (time + (i - 28)) % 28, by omega⟩ := by
  rw [desRol]
  by_cases hi : i.val < 56 - time
  · rw [get_copy_of_notMem _ _ _ _ (by omega), get_copy_of_mem _ _ _ _ (by omega), get_slice,
      get_copy_of_notMem _ _ _ _ (by simp; omega), get_copy_of_notMem _ _ _ _ (by simp; omega)]
    congr 1
    simp
    omega
  · rw [get_copy_of_mem _ _ _ _ (by omega), get_slice]
    refine (Vector.getElem_append_right (by simp; omega) (by simp)).trans ?_
    refine (get_slice data 28 time _
      ⟨time + (i - (56 - time)) - time, by omega⟩).trans ?_
    congr 1
    simp
    omega

end Rol

theorem desRol_cells (c d : BitVec 28) (time : Fin 29) :
    desRol (cells (n := 56) (c ++ d)) time =
      cells (n := 56) (c.rotateLeft time ++ d.rotateLeft time) := by
  apply ext_get
  intro i
  rw [get_cells]
  by_cases h : i.val < 28
  · rw [get_desRol_left _ _ i h, get_cells, getMsbD_c c d (Nat.mod_lt _ (by decide)),
      getMsbD_c _ _ h, BitVec.getMsbD_rotateLeft]
    simp [h]
  · have hi : 28 ≤ i.val := by omega
    have hd : i.val - 28 < 28 := by omega
    rw [get_desRol_right _ _ i hi, get_cells, getMsbD_d c d (by simp), getMsbD_d _ _ hi,
      BitVec.getMsbD_rotateLeft]
    simp [hd]

def pc2Read : Vector ℕ 48 := pc2.map fun i : Fin 56 => i.val + 1

def madeKey (key : BitVec 64) (n : ℕ) : BitVec 48 :=
  select pc2Read ((Fips46.shifted key (n + 1)).1 ++ (Fips46.shifted key (n + 1)).2)

def madeKeys (key : BitVec 64) : Vector (BitVec 48) 16 := Vector.ofFn fun n => madeKey key n

theorem get_pc2Read (i : Fin 48) : pc2Read.get i = (pc2.get i).val + 1 :=
  Vector.getElem_map _ i.isLt

theorem desPc2Transform_cells (x : BitVec 56) :
    desPc2Transform (cells x) = cells (select pc2Read x) :=
  ofFn_get_cells (fun i => by rw [get_pc2Read, Nat.add_sub_cancel]) x

def shiftArray (key : BitVec 64) (n : ℕ) : Vector ElemType 56 :=
  cells (n := 56) ((Fips46.shifted key n).1 ++ (Fips46.shifted key n).2)

theorem shiftArray_zero (key : BitVec 64) :
    shiftArray key 0 = desPc1Transform (cells key) := by
  have hx (x : BitVec 56) : x.extractLsb' 28 28 ++ x.extractLsb' 0 28 = x :=
    BitVec.extractLsb'_append_extractLsb'
  rw [desPc1Transform_cells, shiftArray, Fips46.shifted, hx]

theorem desRol_shiftArray (key : BitVec 64) (cnt : Fin 16) :
    desRol (shiftArray key cnt) (moveTimes.get cnt) = shiftArray key (cnt + 1) := by
  have htime : ∀ cnt : Fin 16, (moveTimes.get cnt).val = Fips46.shiftTable.getD cnt 0 := by decide
  rw [shiftArray, desRol_cells, htime]
  rfl

def keyTrace (key : BitVec 64) (subKeys : Vector (Vector ElemType 48) 16) (n : ℕ) :
    Vector ElemType 56 × Vector (Vector ElemType 48) 16 :=
  (shiftArray key n,
    Vector.ofFn fun i => if i.val < n then cells (madeKey key i) else subKeys.get i)

theorem keyTrace_step (key : BitVec 64) (subKeys : Vector (Vector ElemType 48) 16)
    (cnt : Fin 16) :
    (desRol (keyTrace key subKeys cnt).1 (moveTimes.get cnt),
      (keyTrace key subKeys cnt).2.set cnt
        (desPc2Transform (desRol (keyTrace key subKeys cnt).1 (moveTimes.get cnt))) cnt.isLt) =
      keyTrace key subKeys (cnt + 1) := by
  have hrow : desPc2Transform (shiftArray key (cnt + 1)) = cells (madeKey key cnt) :=
    desPc2Transform_cells _
  simp only [keyTrace, desRol_shiftArray, hrow]
  refine congrArg (Prod.mk _) (ext_get fun i => ?_)
  rw [get_ofFn]
  by_cases hi : i = cnt
  · subst hi
    rw [if_pos (by omega)]
    exact Vector.getElem_set_self i.isLt
  · have hne : cnt.val ≠ i.val := fun h => hi (Fin.ext h.symm)
    refine (Vector.getElem_set_ne cnt.isLt i.isLt hne).trans ?_
    refine (get_ofFn _ i).trans ?_
    by_cases hlt : i.val < cnt
    · rw [if_pos hlt, if_pos (by omega)]
    · rw [if_neg hlt, if_neg (by omega)]

theorem desMakeSubKeys_cells (key : BitVec 64) (subKeys : Vector (Vector ElemType 48) 16) :
    desMakeSubKeys (cells key) subKeys = (madeKeys key).map cells := by
  have hstart : (desPc1Transform (cells key), subKeys) = keyTrace key subKeys 0 := by
    rw [keyTrace, shiftArray_zero]
    refine congrArg (Prod.mk _) (ext_get fun i => ?_)
    simp
  have hend : (keyTrace key subKeys 16).2 = (madeKeys key).map cells := by
    apply ext_get
    intro i
    rw [get_map_cells, madeKeys, get_ofFn]
    simp [keyTrace]
  rw [desMakeSubKeys, hstart,
    loop_eq_trace (keyTrace key subKeys) (keyTrace_step key subKeys), hend]

/-- The two tables differ in one entry. -/
theorem select_pc2Read_eq_iff (x : BitVec 56) :
    select pc2Read x = select Fips46.pc2 x ↔ x.getMsbD 46 = x.getMsbD 47 := by
  have hagree : ∀ i : Fin 48, i.val ≠ 35 → (pc2.get i).val + 1 = Fips46.pc2[i] := by decide
  have hsame (i : Fin 48) (hi : i.val ≠ 35) : pc2Read[i] = Fips46.pc2[i] :=
    (get_pc2Read i).trans (hagree i hi)
  have hread : pc2Read[35] = 47 := get_pc2Read 35
  have hpc2 : Fips46.pc2[35] = 48 := by decide
  constructor
  · intro h
    have h35 := congrArg (fun y => y.getMsbD 35) h
    rwa [getMsbD_select _ _ (by decide), getMsbD_select _ _ (by decide), hread, hpc2] at h35
  · intro h
    apply ext_msb
    intro i
    rw [getMsbD_select _ _ i.isLt, getMsbD_select _ _ i.isLt]
    by_cases hi : i.val = 35
    · simp only [hi, hread, hpc2]
      exact h
    · exact congrArg (fun t => x.getMsbD (t - 1)) (hsame i hi)

theorem cells_injective {n : ℕ} {x y : BitVec n} (h : cells x = cells y) : x = y := by
  apply ext_msb
  intro i
  have hbit : ∀ a b : Bool, bit a = bit b → a = b := by decide
  have hi := congrArg (fun v => v.get i) h
  simp only [get_cells] at hi
  exact hbit _ _ hi

theorem desMakeSubKeys_eq_iff (key : BitVec 64) (subKeys : Vector (Vector ElemType 48) 16) :
    desMakeSubKeys (cells key) subKeys = (Fips46.roundKeys key).map cells ↔
      ∀ n : Fin 16, (Fips46.shifted key (n + 1)).2.getMsbD 18 =
        (Fips46.shifted key (n + 1)).2.getMsbD 19 := by
  have hrow (n : Fin 16) : madeKey key n = Fips46.roundKey key (n + 1) ↔
      (Fips46.shifted key (n + 1)).2.getMsbD 18 = (Fips46.shifted key (n + 1)).2.getMsbD 19 := by
    rw [madeKey, Fips46.roundKey, select_pc2Read_eq_iff, getMsbD_d _ _ (by decide),
      getMsbD_d _ _ (by decide)]
  rw [desMakeSubKeys_cells]
  constructor
  · intro h n
    have hn := congrArg (fun v => v.get n) h
    simp only [get_map_cells, madeKeys, Fips46.roundKeys, get_ofFn] at hn
    exact (hrow n).1 (cells_injective hn)
  · intro h
    apply ext_get
    intro n
    rw [get_map_cells, get_map_cells, madeKeys, Fips46.roundKeys, get_ofFn, get_ofFn,
      (hrow n).2 (h n)]

def shiftSum (n : ℕ) : ℕ := (Fips46.shiftTable.take n).sum

theorem shiftSum_succ (n : Fin 16) :
    shiftSum (n + 1) = shiftSum n + Fips46.shiftTable.getD n 0 := by
  revert n
  decide

theorem getMsbD_shifted (key : BitVec 64) {n j : ℕ} (hn : n ≤ 16) (hj : j < 28) :
    (Fips46.shifted key n).2.getMsbD j =
      (select Fips46.pc1 key).getMsbD (28 + (shiftSum n + j) % 28) := by
  induction n generalizing j with
  | zero =>
      have h : 56 - (0 + 28 - j) = 28 + j := by omega
      rw [Fips46.shifted, BitVec.getMsbD_extractLsb', h]
      simp only [shiftSum, List.take_zero, List.sum_nil, Nat.zero_add, Nat.mod_eq_of_lt hj]
      simp [hj]
      omega
  | succ n ih =>
      rw [Fips46.shifted, BitVec.getMsbD_rotateLeft, ih (by omega) (Nat.mod_lt _ (by decide)),
        shiftSum_succ ⟨n, by omega⟩]
      simp [hj, Nat.add_assoc]

def keyBit (key : Vector ElemType 8) (i : Fin 64) : Bool :=
  (key.get ⟨i / 8, div_eight_lt i⟩).getLsbD (i % 8)

def keyBitInRound (key : Vector ElemType 8) (n j : ℕ) : Bool :=
  keyBit key (pc1.get ⟨28 + (shiftSum (n + 1) + j) % 28, by omega⟩)

theorem getMsbD_shifted_ofBytes (key : Vector ElemType 8) (n : Fin 16) {j : ℕ} (hj : j < 28) :
    (Fips46.shifted (Fips46.ofBytes (mirror key)) (n + 1)).2.getMsbD j =
      keyBitInRound key n j := by
  have hi : 28 + (shiftSum (n + 1) + j) % 28 < 56 := by omega
  rw [getMsbD_shifted _ (by omega) hj, getMsbD_select _ _ hi]
  refine (congrArg _ (pc1_agrees ⟨_, hi⟩)).trans ?_
  rw [Fips46.getMsbD_ofBytes, get_mirror, BitVec.getMsbD_reverse]
  rfl

theorem des_conforms_iff (key : Vector ElemType 8) (subKeys : Vector (Vector ElemType 48) 16) :
    ((∀ block, desEncryptBlock block (desMakeSubKeys (char8ToBit64 key) subKeys) =
        some (mirror (Fips46.toBytes (Fips46.encipher (Fips46.ofBytes (mirror key))
          (Fips46.ofBytes (mirror block)))))) ∧
      desMakeSubKeys (char8ToBit64 key) subKeys =
        (Fips46.roundKeys (Fips46.ofBytes (mirror key))).map cells) ↔
      ∀ n : Fin 16, keyBitInRound key n 18 = keyBitInRound key n 19 := by
  have hiff := desMakeSubKeys_eq_iff (Fips46.ofBytes (mirror key)) subKeys
  simp only [getMsbD_shifted_ofBytes key _ (show 18 < 28 by decide),
    getMsbD_shifted_ofBytes key _ (show 19 < 28 by decide)] at hiff
  rw [char8ToBit64_eq, ← hiff]
  constructor
  · exact And.right
  · intro h
    refine ⟨fun block => ?_, h⟩
    rw [h, desEncryptBlock_cells]
    rfl

theorem des_misencrypts :
    let key : Vector ElemType 8 := #v[0xC8, 0x2C, 0xEA, 0x9E, 0xD9, 0x3D, 0xFB, 0x8F]
    let block : Vector ElemType 8 := #v[0x80, 0xC4, 0xA2, 0xE6, 0x91, 0xD5, 0xB3, 0xF7]
    let subKeys := desMakeSubKeys (char8ToBit64 key) (Vector.replicate 16 (Vector.replicate 48 0))
    desEncryptBlock block subKeys = some #v[0xEA, 0x8D, 0xA5, 0xD0, 0xB3, 0x03, 0x3C, 0xB5] ∧
      mirror (Fips46.toBytes (Fips46.encipher (Fips46.ofBytes (mirror key))
        (Fips46.ofBytes (mirror block)))) = #v[0xA1, 0x17, 0xC8, 0x2A, 0xF0, 0x50, 0x2D, 0xA0] := by
  intro key block subKeys
  have hkeys : subKeys = (madeKeys (Fips46.ofBytes (mirror key))).map cells := by
    rw [← desMakeSubKeys_cells, ← char8ToBit64_eq]
  rw [hkeys, desEncryptBlock_cells]
  decide +kernel

end Hatch.Des
