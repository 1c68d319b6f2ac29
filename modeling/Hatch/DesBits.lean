import Hatch.Des
import Hatch.Fips46
import Hatch.FixedArray

/-!
# The transforms on arrays of bits

`cells x` is the array of a bit string, one cell per bit. On such arrays every transform of
the source is the operation of the standard with the same name, and no S-box number leaves
its range.
-/

namespace Hatch.Des

open BitString CountedLoop FixedArray

def bit (b : Bool) : ElemType := (BitVec.ofBool b).setWidth 8

def cells {n : ℕ} (x : BitVec n) : Vector ElemType n := Vector.ofFn fun i => bit (x.getMsbD i)

section Tables

variable {n m : ℕ}

@[simp] theorem get_cells (x : BitVec n) (i : Fin n) : (cells x).get i = bit (x.getMsbD i) := by
  simp [cells]

/-- A transform through a table with positions from 0 is the selection through the same
table with positions from 1. -/
theorem ofFn_get_cells {t : Vector (Fin n) m} {u : Vector ℕ m}
    (h : ∀ i, u.get i - 1 = (t.get i).val) (x : BitVec n) :
    Vector.ofFn (fun i => (cells x).get (t.get i)) = cells (select u x) := by
  apply ext_get
  intro i
  rw [get_ofFn, get_cells, get_cells, getMsbD_select u x i.isLt]
  rw [← h i]
  rfl

end Tables

theorem desIpTransform_cells (x : BitVec 64) :
    desIpTransform (cells x) = cells (select Fips46.ip x) :=
  ofFn_get_cells (by decide) x

theorem desIp1Transform_cells (x : BitVec 64) :
    desIp1Transform (cells x) = cells (select Fips46.ipInv x) :=
  ofFn_get_cells (by decide) x

theorem desETransform_cells (x : BitVec 32) :
    desETransform (cells x) = cells (select Fips46.expansion x) :=
  ofFn_get_cells (by decide) x

theorem desPTransform_cells (x : BitVec 32) :
    desPTransform (cells x) = cells (select Fips46.permutation x) :=
  ofFn_get_cells (by decide) x

theorem pc1_agrees : ∀ i, Fips46.pc1.get i - 1 = (pc1.get i).val := by
  decide

theorem desPc1Transform_cells (x : BitVec 64) :
    desPc1Transform (cells x) = cells (select Fips46.pc1 x) :=
  ofFn_get_cells pc1_agrees x

theorem bit_xor (a b : Bool) : bit a ^^^ bit b = bit (a ^^ b) := by
  revert a b
  decide

theorem desXor_cells {n : ℕ} (x y : BitVec n) : desXor (cells x) (cells y) = cells (x ^^^ y) := by
  apply ext_get
  intro i
  simp [desXor, bit_xor]

section Halves

variable (l r y : BitVec 32)

theorem getMsbD_left {i : ℕ} (h : i < 32) :
    BitVec.getMsbD (w := 64) (l ++ r) i = l.getMsbD i := by
  have := BitVec.getMsbD_append (x := l) (y := r) (i := i)
  rwa [if_neg (by omega)] at this

theorem getMsbD_right {i : ℕ} (h : 32 ≤ i) :
    BitVec.getMsbD (w := 64) (l ++ r) i = r.getMsbD (i - 32) := by
  have := BitVec.getMsbD_append (x := l) (y := r) (i := i)
  rwa [if_pos h] at this

theorem desXor_cells_append :
    desXor (cells (n := 64) (l ++ r)) (cells y) = cells (n := 64) ((l ^^^ y) ++ r) := by
  apply ext_get
  intro i
  rw [desXor, get_ofFn, get_cells, get_cells]
  by_cases h : i.val < 32
  · rw [dif_pos h, get_cells, getMsbD_left l r h, getMsbD_left (l ^^^ y) r h, BitVec.getMsbD_xor,
      bit_xor]
  · rw [dif_neg h, getMsbD_right l r (by omega), getMsbD_right (l ^^^ y) r (by omega)]

theorem slice_cells_append (h : 32 + 32 ≤ 64) :
    slice (cells (n := 64) (l ++ r)) 32 32 h = cells r := by
  apply ext_get
  intro i
  rw [get_slice, get_cells, get_cells, getMsbD_right l r (by simp), Nat.add_sub_cancel_left]

theorem desSwap_cells_append :
    desSwap (cells (n := 64) (l ++ r)) = cells (n := 64) (r ++ l) := by
  apply ext_get
  intro i
  rw [desSwap, get_cells]
  by_cases h : i.val < 32
  · rw [get_copy_of_notMem _ _ _ _ (by omega), get_copy_of_mem _ _ _ _ (by omega), get_slice,
      get_cells, getMsbD_left r l h, getMsbD_right l r (by simp)]
    simp
  · rw [get_copy_of_mem _ _ _ _ (by omega), get_slice, get_cells, getMsbD_right r l (by omega),
      getMsbD_left l r (by simp; omega)]
    simp

end Halves

theorem sboxOutput_bits : ∀ (cnt : Fin 8) (y : BitVec 6),
    sboxOutput cnt (sboxAddress fun i => bit (y.getMsbD i)).1
      (sboxAddress fun i => bit (y.getMsbD i)).2 = some ((Fips46.sbox cnt y).setWidth 32) := by
  decide

theorem outputBits_setWidth : ∀ v : BitVec 4, outputBits (v.setWidth 32) = cells v := by
  decide

theorem getMsbD_group (b : BitVec 48) (j : Fin 8) (i : Fin 6) :
    (b.extractLsb' (42 - 6 * j) 6).getMsbD i = b.getMsbD (6 * j + i) := by
  have h : 48 - (42 - 6 * j.val + 6 - i.val) = 6 * j + i := by omega
  rw [BitVec.getMsbD_extractLsb', h]
  simp
  omega

theorem getMsbD_sboxes (b : BitVec 48) (j : Fin 8) {i : ℕ} (h : 4 * j ≤ i ∧ i < 4 * j + 4) :
    (Fips46.sboxes b).getMsbD i =
      (Fips46.sbox j (b.extractLsb' (42 - 6 * j) 6)).getMsbD (i - 4 * j) := by
  have hd : i / 4 = j := by omega
  have hm : i % 4 = i - 4 * j := by omega
  rw [Fips46.sboxes, getMsbD_pack _ (by omega), get_ofFn]
  simp only [hd, hm]

/-- The array after the first `k` S-boxes: their outputs stand in front, and no input of a
later S-box has been overwritten. -/
def sboxTrace (b : BitVec 48) (k : ℕ) : Vector ElemType 48 :=
  Vector.ofFn fun i => bit (if i.val < 4 * k then (Fips46.sboxes b).getMsbD i else b.getMsbD i)

theorem sboxStep_trace (b : BitVec 48) (cnt : Fin 8) :
    sboxStep cnt (sboxTrace b cnt) = some (sboxTrace b (cnt + 1)) := by
  have hcells : (fun i : Fin 6 => (sboxTrace b cnt).get ⟨6 * cnt + i, by omega⟩) =
      fun i : Fin 6 => bit ((b.extractLsb' (42 - 6 * cnt) 6).getMsbD i) := by
    funext i
    rw [sboxTrace, get_ofFn, getMsbD_group, if_neg (by simp; omega)]
  rw [sboxStep, hcells]
  simp only [sboxOutput_bits, Option.pure_def, Option.bind_eq_bind, Option.bind_some,
    outputBits_setWidth, Option.some.injEq]
  apply ext_get
  intro i
  rw [sboxTrace, sboxTrace, get_ofFn]
  by_cases h : 4 * cnt.val ≤ i ∧ i < 4 * cnt.val + 4
  · rw [get_copy_of_mem _ _ _ _ h, get_cells, if_pos (by omega), getMsbD_sboxes b cnt h]
  · rw [get_copy_of_notMem _ _ _ _ h, get_ofFn]
    by_cases hi : i.val < 4 * cnt
    · rw [if_pos hi, if_pos (by omega)]
    · rw [if_neg hi, if_neg (by omega)]

theorem desSbox_cells (b : BitVec 48) : desSbox (cells b) = some (sboxTrace b 8) := by
  have h0 : cells b = sboxTrace b 0 := by
    simp [cells, sboxTrace]
  rw [desSbox, h0]
  exact loopM_eq_trace (sboxTrace b) (sboxStep_trace b)

theorem slice_sboxTrace (b : BitVec 48) (h : 0 + 32 ≤ 48) :
    slice (sboxTrace b 8) 0 32 h = cells (Fips46.sboxes b) := by
  apply ext_get
  intro i
  simp [sboxTrace]

theorem desMix_cells (l r : BitVec 32) (k : BitVec 48) :
    desMix (cells (n := 64) (l ++ r)) (cells k) =
      some (cells (n := 64) ((l ^^^ Fips46.f k r) ++ r)) := by
  simp only [desMix, slice_cells_append, desETransform_cells, desXor_cells, desSbox_cells,
    Option.bind_eq_bind, Option.bind_some, slice_sboxTrace, desPTransform_cells,
    desXor_cells_append]
  rfl

end Hatch.Des
