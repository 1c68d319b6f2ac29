import Hatch.DesSchedule

/-!
# Which keys give which subkeys

Row `n` of the subkeys reads, at each of its places, one of the 56 key bits that `PC_1` keeps, and
the sixteen rows together read all of them, although one entry of `PC_2` is wrong. So two keys
give the same subkeys exactly if they agree in the lower seven bits of each byte, and the sixteen
rows are equal exactly for the keys whose two halves are constant. Under such a key encryption
undoes itself.
-/

namespace Hatch.Des

open BitString FixedArray

/-- The place in the output of `PC_1` that row `n` reads at place `i`. -/
def keyPosition (n : Fin 16) (i : Fin 48) : Fin 56 :=
  let p := (pc2.get i).val
  if p < 28 then ⟨(shiftSum (n + 1) + p) % 28, by omega⟩
  else ⟨28 + (shiftSum (n + 1) + (p - 28)) % 28, by omega⟩

def keptBit (key : Vector ElemType 8) (j : Fin 56) : Bool := keyBit key (pc1.get j)

section Positions

theorem getMsbD_shifted_left (key : BitVec 64) {n j : ℕ} (hn : n ≤ 16) (hj : j < 28) :
    (Fips46.shifted key n).1.getMsbD j =
      (select Fips46.pc1 key).getMsbD ((shiftSum n + j) % 28) := by
  induction n generalizing j with
  | zero =>
      have h : 56 - (28 + 28 - j) = j := by omega
      rw [Fips46.shifted, BitVec.getMsbD_extractLsb', h]
      simp only [shiftSum, List.take_zero, List.sum_nil, Nat.zero_add, Nat.mod_eq_of_lt hj]
      simp [hj]
  | succ n ih =>
      rw [Fips46.shifted, BitVec.getMsbD_rotateLeft, ih (by omega) (Nat.mod_lt _ (by decide)),
        shiftSum_succ ⟨n, by omega⟩]
      simp [hj, Nat.add_assoc]

theorem getMsbD_madeKey (key : BitVec 64) (n : Fin 16) (i : Fin 48) :
    (madeKey key n).getMsbD i = (select Fips46.pc1 key).getMsbD (keyPosition n i) := by
  have hread : pc2Read[i.val] - 1 = (pc2.get i).val := by
    have h : pc2Read[i.val] = (pc2.get i).val + 1 := get_pc2Read i
    rw [h, Nat.add_sub_cancel]
  rw [madeKey, getMsbD_select _ _ i.isLt, hread, keyPosition]
  split
  · next h => rw [getMsbD_c _ _ h, getMsbD_shifted_left key (by omega) h]
  · next h =>
    rw [getMsbD_d _ _ (by omega), getMsbD_shifted key (by omega) (by omega)]

theorem getMsbD_pc1 (key : Vector ElemType 8) (j : Fin 56) :
    (select Fips46.pc1 (Fips46.ofBytes (mirror key))).getMsbD j = keptBit key j := by
  rw [getMsbD_select _ _ j.isLt]
  refine (congrArg _ (pc1_agrees j)).trans ?_
  rw [Fips46.getMsbD_ofBytes, get_mirror, BitVec.getMsbD_reverse]
  rfl

/-- A cell of the subkeys is a kept bit. -/
theorem get_desMakeSubKeys (key : Vector ElemType 8) (subKeys : Vector (Vector ElemType 48) 16)
    (n : Fin 16) (i : Fin 48) :
    ((desMakeSubKeys (char8ToBit64 key) subKeys).get n).get i =
      bit (keptBit key (keyPosition n i)) := by
  rw [char8ToBit64_eq, desMakeSubKeys_cells, get_map_cells, get_cells, madeKeys, get_ofFn,
    getMsbD_madeKey, getMsbD_pc1]

theorem bit_injective {a b : Bool} (h : bit a = bit b) : a = b := by
  revert a b
  decide

/-- Every kept bit is read in some row. -/
theorem exists_keyPosition : ∀ j : Fin 56, ∃ n i, keyPosition n i = j := by
  decide +kernel

/-- Some row and the next one read two neighbouring bits of a half at the same place. -/
theorem exists_neighbours : ∀ j : Fin 55, j.val ≠ 27 → ∃ n : Fin 15, ∃ i,
    keyPosition n.castSucc i = j.castSucc ∧ keyPosition n.succ i = j.succ := by
  decide +kernel

theorem keyPosition_lt_iff : ∀ n i, (keyPosition n i).val < 28 ↔ (pc2.get i).val < 28 := by
  decide +kernel

end Positions

section Kept

variable {key key' : Vector ElemType 8}

theorem kept_of_mod : ∀ b : Fin 64, b.val % 8 ≠ 7 ↔ ∃ j, pc1.get j = b := by
  decide +kernel

/-- The kept bits are the lower seven of each byte. -/
theorem keptBit_eq_iff :
    (∀ j, keptBit key j = keptBit key' j) ↔
      ∀ i, (key.get i).setWidth 7 = (key'.get i).setWidth 7 := by
  constructor
  · intro h i
    apply BitVec.eq_of_getLsbD_eq
    intro k hk
    obtain ⟨j, hj⟩ := (kept_of_mod ⟨8 * i + k, by omega⟩).mp (by simp; omega)
    have hbit := h j
    rw [keptBit, keptBit, hj] at hbit
    have hdiv : (8 * i.val + k) / 8 = i := by omega
    have hmod : (8 * i.val + k) % 8 = k := by omega
    simp only [keyBit, hdiv, hmod] at hbit
    rw [BitVec.getLsbD_setWidth, BitVec.getLsbD_setWidth]
    exact congrArg _ hbit
  · intro h j
    have hmod := (kept_of_mod (pc1.get j)).mpr ⟨j, rfl⟩
    have hbyte := congrArg (fun x => x.getLsbD ((pc1.get j).val % 8))
      (h ⟨(pc1.get j).val / 8, div_eight_lt _⟩)
    simp only [BitVec.getLsbD_setWidth] at hbyte
    rw [decide_eq_true (show (pc1.get j).val % 8 < 7 by omega), Bool.true_and,
      Bool.true_and] at hbyte
    exact hbyte

/-- Neighbours that are read at one place of two equal rows agree, so each half is constant. -/
theorem keptBit_of_neighbours (h : ∀ j : Fin 55, j.val ≠ 27 →
    keptBit key j.castSucc = keptBit key j.succ) (j : Fin 56) :
    keptBit key j = keptBit key (if j.val < 28 then ⟨0, by decide⟩ else ⟨28, by decide⟩) := by
  obtain ⟨j, hj⟩ := j
  induction j with
  | zero => rfl
  | succ j ih =>
      by_cases h27 : j = 27
      · subst h27
        rfl
      · have hstep := h ⟨j, by omega⟩ h27
        refine hstep.symm.trans ((ih (by omega)).trans ?_)
        have hlt : j < 28 ↔ j + 1 < 28 := by omega
        simp only [hlt]

end Kept

/-- Two keys give the same subkeys if and only if they agree in the lower seven bits of each
byte. -/
theorem desMakeSubKeys_eq_iff_lower (key key' : Vector ElemType 8)
    (subKeys subKeys' : Vector (Vector ElemType 48) 16) :
    desMakeSubKeys (char8ToBit64 key) subKeys = desMakeSubKeys (char8ToBit64 key') subKeys' ↔
      ∀ i, (key.get i).setWidth 7 = (key'.get i).setWidth 7 := by
  rw [← keptBit_eq_iff]
  constructor
  · intro h j
    obtain ⟨n, i, rfl⟩ := exists_keyPosition j
    refine bit_injective ?_
    rw [← get_desMakeSubKeys key subKeys, ← get_desMakeSubKeys key' subKeys', h]
  · intro h
    apply ext_get
    intro n
    apply ext_get
    intro i
    rw [get_desMakeSubKeys, get_desMakeSubKeys, h]

/-- The two halves that `PC_1` makes of the key are constant. -/
def Weak (key : Vector ElemType 8) : Prop :=
  ∀ j, keptBit key j = keptBit key (if j.val < 28 then ⟨0, by decide⟩ else ⟨28, by decide⟩)

instance (key : Vector ElemType 8) : Decidable (Weak key) :=
  inferInstanceAs (Decidable (∀ j, keptBit key j =
    keptBit key (if j.val < 28 then ⟨0, by decide⟩ else ⟨28, by decide⟩)))

theorem Weak.row_eq {key : Vector ElemType 8} (h : Weak key)
    (subKeys : Vector (Vector ElemType 48) 16) (n n' : Fin 16) :
    (desMakeSubKeys (char8ToBit64 key) subKeys).get n =
      (desMakeSubKeys (char8ToBit64 key) subKeys).get n' := by
  apply ext_get
  intro i
  rw [get_desMakeSubKeys, get_desMakeSubKeys, h, h (keyPosition n' i)]
  simp only [keyPosition_lt_iff]

/-- The sixteen subkeys are equal if and only if the halves of the key are constant. -/
theorem desMakeSubKeys_constant_iff (key : Vector ElemType 8)
    (subKeys : Vector (Vector ElemType 48) 16) :
    (∀ n n', (desMakeSubKeys (char8ToBit64 key) subKeys).get n =
      (desMakeSubKeys (char8ToBit64 key) subKeys).get n') ↔ Weak key := by
  refine ⟨fun h => keptBit_of_neighbours fun j hj => ?_, fun h => h.row_eq subKeys⟩
  obtain ⟨n, i, hi, hi'⟩ := exists_neighbours j hj
  refine bit_injective ?_
  rw [← hi, ← hi', ← get_desMakeSubKeys key subKeys, ← get_desMakeSubKeys key subKeys,
    h n.castSucc n.succ]

/-- Under such a key encryption undoes itself. -/
theorem desEncryptBlock_twice {key : Vector ElemType 8} (h : Weak key)
    (subKeys : Vector (Vector ElemType 48) 16) (block : Vector ElemType 8) :
    (desEncryptBlock block (desMakeSubKeys (char8ToBit64 key) subKeys) >>= fun c =>
      desEncryptBlock c (desMakeSubKeys (char8ToBit64 key) subKeys)) = some block := by
  have hmade : desMakeSubKeys (char8ToBit64 key) subKeys =
      (madeKeys (Fips46.ofBytes (mirror key))).map cells := by
    rw [char8ToBit64_eq, desMakeSubKeys_cells]
  have hrev : (madeKeys (Fips46.ofBytes (mirror key))).reverse =
      madeKeys (Fips46.ofBytes (mirror key)) := by
    apply ext_get
    intro n
    have hrow := h.row_eq subKeys n n.rev
    rw [hmade, get_map_cells, get_map_cells] at hrow
    refine (Vector.getElem_reverse n.isLt).trans ?_
    refine Eq.trans ?_ (cells_injective hrow).symm
    exact congrArg (madeKeys (Fips46.ofBytes (mirror key))).get (Fin.ext (by simp))
  have hinv := standardBlock_reverse (madeKeys (Fips46.ofBytes (mirror key))) block
  rw [hrev] at hinv
  rw [hmade, desEncryptBlock_cells, Option.bind_eq_bind, Option.bind_some, desEncryptBlock_cells,
    hinv]

theorem desEncryptBlock_twice_zero :
    let subKeys := desMakeSubKeys (char8ToBit64 (Vector.replicate 8 0x80))
      (Vector.replicate 16 (Vector.replicate 48 0))
    (desEncryptBlock #v[0x68, 0x61, 0x74, 0x63, 0x68, 0xff, 0x80, 0x00] subKeys >>= fun c =>
      desEncryptBlock c subKeys) = some #v[0x68, 0x61, 0x74, 0x63, 0x68, 0xff, 0x80, 0x00] :=
  desEncryptBlock_twice (by decide +kernel) _ _

end Hatch.Des
